import Ia32Wasm.Text.BitNames

/-!
# Instruction prefixes

The legacy prefix bytes in front of an instruction, as a set of bits.  Of the segment overrides only
`FS` and `GS` change an address in a flat memory model, and `FS` wins when both are present.
-/

namespace Ia32Wasm.X86

/-- A set of prefixes; bits without a name are kept. -/
structure Prefixes where
  bits : UInt16 := 0
deriving DecidableEq, Repr

namespace Prefixes

def lock : Prefixes := ⟨0x001⟩
def repne : Prefixes := ⟨0x002⟩
def rep : Prefixes := ⟨0x004⟩
def operandSize : Prefixes := ⟨0x008⟩
def addressSize : Prefixes := ⟨0x010⟩
def es : Prefixes := ⟨0x020⟩
def cs : Prefixes := ⟨0x040⟩
def ss : Prefixes := ⟨0x080⟩
def ds : Prefixes := ⟨0x100⟩
def fs : Prefixes := ⟨0x200⟩
def gs : Prefixes := ⟨0x400⟩

/-- The prefixes of either set. -/
def union (p q : Prefixes) : Prefixes := ⟨p.bits ||| q.bits⟩

/-- Every prefix of `q` is in `p`. -/
def contains (p q : Prefixes) : Bool := p.bits &&& q.bits == q.bits

/-- Some prefix is in both sets. -/
def intersects (p q : Prefixes) : Bool := p.bits &&& q.bits != 0

/-- The prefix that a byte encodes. -/
def ofByte? (byte : UInt8) : Option Prefixes :=
  match byte with
  | 0xf0 => some lock
  | 0xf2 => some repne
  | 0xf3 => some rep
  | 0x66 => some operandSize
  | 0x67 => some addressSize
  | 0x26 => some es
  | 0x2e => some cs
  | 0x36 => some ss
  | 0x3e => some ds
  | 0x64 => some fs
  | 0x65 => some gs
  | _ => none

/-- The number of the segment register whose base is added to addresses. -/
def baseSegment? (p : Prefixes) : Option UInt8 :=
  if p.contains fs then some 4 else if p.contains gs then some 5 else none

/-- The names of the prefixes. -/
def names : BitNames :=
  [("LOCK", 0x001), ("REPNE", 0x002), ("REP", 0x004), ("OPERAND_SIZE", 0x008), ("ADDRESS_SIZE", 0x010),
    ("ES", 0x020), ("CS", 0x040), ("SS", 0x080), ("DS", 0x100), ("FS", 0x200), ("GS", 0x400)]

/-- The text of a set of prefixes. -/
def text (p : Prefixes) : String := names.render p.bits.toNat

end Prefixes

end Ia32Wasm.X86
