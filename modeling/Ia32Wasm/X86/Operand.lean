import Ia32Wasm.Text.Hex
import Ia32Wasm.X86.OperandSize

/-!
# Operands

An operand is a register, a constant, an address built from registers, a segment register, an
absolute offset or the name of an imported function.  An indirect operand is the memory at its
address; otherwise it is its own value.  Registers have their encoding numbers: an 8-bit register
from 4 on is a high byte, and a 128-bit one is a vector register.
-/

namespace Ia32Wasm.X86

/-- An operand of an instruction. -/
inductive Operand where
  | register (index : UInt8) (size : OperandSize) (indirect : Bool) (displacement : Option Int32)
  | immediate (value : Int64) (size : OperandSize) (indirect : Bool) (displacement : Option Int32)
  | scaledIndex (base index : Option UInt8) (scale : UInt8) (displacement : Option Int32) (size : OperandSize)
      (indirect : Bool)
  | segment (index : UInt8) (size : OperandSize) (indirect : Bool) (displacement : Option Int32)
  | offset (value : UInt32) (size : OperandSize)
  | symbol (name : String)
deriving DecidableEq, Repr

/-! ### Register names -/

/-- The 32-bit registers by number. -/
def wideNames : List String := ["eax", "ecx", "edx", "ebx", "esp", "ebp", "esi", "edi"]

/-- The 16-bit registers by number. -/
def wordNames : List String := ["ax", "cx", "dx", "bx", "sp", "bp", "si", "di"]

/-- The 8-bit registers by number. -/
def byteNames : List String := ["al", "cl", "dl", "bl", "ah", "ch", "dh", "bh"]

/-- The segment registers by number. -/
def segmentNames : List String := ["es", "cs", "ss", "ds", "fs", "gs"]

/-- The name of a 32-bit register; only the low three bits of its number count. -/
def wideName (index : UInt8) : String := wideNames.getD (index &&& 7).toNat ""

/-- The name of a register of some size. -/
def registerName (index : UInt8) : OperandSize → String
  | .bits8 => byteNames.getD (index &&& 7).toNat ""
  | .bits16 => wordNames.getD (index &&& 7).toNat ""
  | .bits32 => wideName index
  | .bits128 => "xmm" ++ toString index.toNat

namespace Operand

/-- A register as its own value. -/
def reg (index : UInt8) (size : OperandSize) : Operand := .register index size false none

/-- A constant. -/
def imm (value : Int64) (size : OperandSize) : Operand := .immediate value size false none

/-- The memory at the address in a register. -/
def pointer (index : UInt8) (size : OperandSize) : Operand := .register index size true none

/-- The width of an operand; the name of a function has none. -/
def size? : Operand → Option OperandSize
  | .register _ size _ _ | .immediate _ size _ _ | .scaledIndex _ _ _ _ size _ | .segment _ size _ _
  | .offset _ size => some size
  | .symbol _ => none

/-- The value of a constant. -/
def constant? : Operand → Option Int64
  | .immediate value _ false _ => some value
  | _ => none

/-- The address of memory at a constant address. -/
def pointer? : Operand → Option UInt32
  | .immediate value _ true displacement =>
    some (value.toUInt64.toUInt32 + (displacement.getD 0).toUInt32)
  | _ => none

/-! ### Text -/

/-- A displacement with its sign in front. -/
def displacementText : Option Int32 → String
  | some d => (if d < 0 then "-" else "+") ++ Hex.marked d.toInt.natAbs
  | none => ""

/-- The registers of an address, joined by a plus sign. -/
def indexText (base index : Option UInt8) (scale : UInt8) : String :=
  "+".intercalate
    (base.toList.map wideName ++ index.toList.map fun i => wideName i ++ "*" ++ toString scale.toNat)

/-- The text of an operand. -/
def text : Operand → String
  | .register index size false _ => registerName index size
  | .register index size true displacement =>
    size.keyword ++ " ptr [" ++ wideName index ++ displacementText displacement ++ "]"
  | .immediate value size false _ => Hex.marked (value.toUInt64.toUInt32 &&& size.mask).toNat
  | .immediate value size true displacement =>
    size.keyword ++ " ptr [" ++ Hex.marked value.toUInt64.toUInt32.toNat ++ displacementText displacement ++ "]"
  | .scaledIndex base index scale displacement size indirect =>
    (if indirect then size.keyword ++ " ptr " else "") ++ "[" ++
      (if base.isNone && index.isNone then Hex.marked (displacement.getD 0).toUInt32.toNat
        else indexText base index scale ++ displacementText displacement) ++ "]"
  | .segment index size indirect displacement =>
    let name := segmentNames.getD index.toNat "?s"
    if indirect then
      size.keyword ++ " ptr " ++ name ++ ":[" ++ Hex.marked (displacement.getD 0).toUInt32.toNat ++ "]"
    else name
  | .offset value size => size.keyword ++ " ptr [" ++ Hex.marked value.toNat ++ "]"
  | .symbol name => name

end Operand

end Ia32Wasm.X86
