import Ia32Wasm.Machine.Slot
import Ia32Wasm.Text.BitNames

/-!
# Machine states

The contents of every slot, with the flags packed into one word at their architectural positions.
-/

namespace Ia32Wasm.Machine

/-- The status flags as a set of bits; bits of no flag are kept. -/
structure Flags where
  bits : UInt32 := 0
deriving DecidableEq, Repr

namespace Flags

/-- The word with only the bit of a flag. -/
def mask (flag : Flag) : UInt32 := UInt32.ofNat (1 <<< flag.bit)

/-- The bits of all flags. -/
def known : UInt32 := Flag.all.foldl (fun all flag => all ||| mask flag) 0

/-- The flag is set. -/
def contains (f : Flags) (flag : Flag) : Bool := f.bits &&& mask flag == mask flag

/-- The flags with one set or cleared. -/
def set (f : Flags) (flag : Flag) (on : Bool) : Flags :=
  if on then ⟨f.bits ||| mask flag⟩ else ⟨f.bits &&& ~~~mask flag⟩

/-- The names of the flags. -/
def names : BitNames :=
  [("CF", 0x001), ("PF", 0x004), ("AF", 0x010), ("ZF", 0x040), ("SF", 0x080), ("DF", 0x400), ("OF", 0x800)]

/-- The text of a set of flags. -/
def text (f : Flags) : String := names.render f.bits.toNat

end Flags

/-- The contents of every slot. -/
structure State where
  registers : Vector UInt32 8 := Vector.replicate 8 0
  flags : Flags := {}
  segments : Vector UInt32 6 := Vector.replicate 6 0
  link : UInt32 := 0
  t1 : UInt32 := 0
  t2 : UInt32 := 0
deriving DecidableEq, Repr

namespace State

/-- The contents of a slot; that of a flag is `0` or `1`. -/
def get (s : State) : Slot → UInt32
  | .register i => s.registers.get i
  | .flag f => if s.flags.contains f then 1 else 0
  | .link => s.link
  | .t1 => s.t1
  | .t2 => s.t2
  | .segment i => s.segments.get i

/-- The state with a slot changed; a flag is set by any value but zero. -/
def set (s : State) (slot : Slot) (value : UInt32) : State :=
  match slot with
  | .register i => { s with registers := s.registers.setIfInBounds i value }
  | .flag f => { s with flags := s.flags.set f (value != 0) }
  | .link => { s with link := value }
  | .t1 => { s with t1 := value }
  | .t2 => { s with t2 := value }
  | .segment i => { s with segments := s.segments.setIfInBounds i value }

/-- The bit of the packed flags word that is always set. -/
def reservedBit : UInt32 := 2

/-- The packed flags word. -/
def eflags (s : State) : UInt32 := s.flags.bits ||| reservedBit

/-- The state with the flags of a packed word; its other bits are dropped. -/
def setEflags (s : State) (word : UInt32) : State := { s with flags := ⟨word &&& Flags.known⟩ }

end State

end Ia32Wasm.Machine
