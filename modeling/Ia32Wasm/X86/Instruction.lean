import Ia32Wasm.X86.Mnemonic
import Ia32Wasm.X86.Operand
import Ia32Wasm.X86.Prefixes

/-!
# Instructions

A decoded instruction with the addresses it occupies.  A branch has its target in one of three
forms: relative to the next instruction, as a far pointer, or, once resolved, as the triple of
constants `1`, chunk and index, where a negative chunk means the chunk the branch is in.
-/

namespace Ia32Wasm.X86

/-- Where a resolved branch goes: to an instruction of its own chunk or of another. -/
inductive Destination where
  | inside (index : UInt32)
  | across (chunk index : UInt32)
deriving DecidableEq, Repr

/-- A decoded instruction; a two-byte opcode is `0x0f00` plus its second byte. -/
structure Instruction where
  prefixes : Prefixes
  opcode : UInt16
  mnemonic : Mnemonic
  operands : List Operand
  address : UInt32
  nextAddress : UInt32
deriving DecidableEq, Repr

namespace Instruction

/-- The number of bytes it occupies. -/
def length (i : Instruction) : UInt32 := i.nextAddress - i.address

/-- It occupies no bytes. -/
def isEmpty (i : Instruction) : Bool := i.length == 0

/-- A jump of no bytes to `address`, which ends a run that falls through into code its chunk already holds. -/
def fallThrough (address : UInt32) : Instruction where
  prefixes := {}
  opcode := 0xe9
  mnemonic := .jump
  operands := [.imm 0 .bits32]
  address := address
  nextAddress := address

/-- It is a jump of no bytes. -/
def isFallThrough (i : Instruction) : Bool := i.mnemonic == .jump && i.isEmpty

/-- The target of a branch relative to the next instruction. -/
def relativeTarget? (i : Instruction) : Option UInt32 :=
  if i.mnemonic.isBranch then
    match i.operands with
    | [op] => op.constant?.map fun displacement => i.nextAddress + displacement.toUInt64.toUInt32
    | _ => none
  else none

/-- The offset of a far pointer; its selector is not used. -/
def farTarget? (i : Instruction) : Option UInt32 :=
  if i.mnemonic = .call ∨ i.mnemonic = .jump then
    match i.operands with
    | [selector, offset] => selector.constant?.bind fun _ => offset.constant?.map fun v => v.toUInt64.toUInt32
    | _ => none
  else none

/-! ### Resolved targets -/

/-- The first constant of a resolved target. -/
def programMark : Int64 := 1

/-- A constant as an index. -/
def index? (value : Int64) : Option UInt32 :=
  if 0 ≤ value.toInt ∧ value.toInt < UInt32.size then some (UInt32.ofNat value.toInt.toNat) else none

/-- The target of a resolved branch. -/
def destination? (i : Instruction) : Option Destination :=
  if i.mnemonic.isBranch then
    match i.operands with
    | [mark, chunk, index] => do
      let mark ← mark.constant?
      let chunk ← chunk.constant?
      let index ← index.constant?
      if mark = programMark then
        let index ← index? index
        if chunk < 0 then return .inside index else return .across (← index? chunk) index
      else none
    | _ => none
  else none

/-- A constant operand that holds an index. -/
def indexOperand (index : UInt32) : Operand := .imm (Int64.ofNat index.toNat) .bits32

/-- The operands of a resolved branch. -/
def destinationOperands : Destination → List Operand
  | .inside index => [.imm programMark .bits32, .imm (-1) .bits32, indexOperand index]
  | .across chunk index => [.imm programMark .bits32, indexOperand chunk, indexOperand index]

/-- The branch with its target resolved. -/
def withDestination (i : Instruction) (d : Destination) : Instruction :=
  { i with operands := destinationOperands d }

/-! ### Text -/

/-- The operands in a listing: a far pointer as `FAR selector:offset`, all others separated by commas. -/
def operandsText (i : Instruction) : String :=
  match i.operands with
  | [] => ""
  | [selector, offset] =>
    if i.farTarget?.isSome then " FAR " ++ selector.text ++ ":" ++ offset.text
    else " " ++ selector.text ++ ", " ++ offset.text
  | operands => " " ++ ", ".intercalate (operands.map Operand.text)

/-- The text of an instruction in a listing. -/
def text (i : Instruction) : String :=
  (if i.prefixes.contains .rep && (i.mnemonic == .movs || i.mnemonic == .stos) then "REP " else "") ++
    i.mnemonic.name ++ i.operandsText

end Instruction

end Ia32Wasm.X86
