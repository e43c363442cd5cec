import Ia32Wasm.Lowering.Flags
import Ia32Wasm.Lowering.Operands

/-!
# The stack

The stack grows down: a push lowers the stack pointer by the width of the value and then stores it,
and a pop loads it and then raises the stack pointer.
-/

namespace Ia32Wasm.Lowering

open Machine (Flag Slot)
open X86 (Instruction OperandSize)

/-- A constant added to the stack pointer. -/
def moveStackPointer (delta : UInt32) : Code := addToGlobal Slot.esp.index delta

/-- The value on the wasm stack onto the stack in memory. -/
def pushValue (size : OperandSize) : Lowering Unit := do
  emit (.localSet Local.tmp :: moveStackPointer (0 - UInt32.ofNat size.bytes) ++
    [getSlot .esp, .localGet Local.tmp])
  store size

/-- The value on top of the stack in memory onto the wasm stack. -/
def popValue (size : OperandSize) : Lowering Unit := do
  emit [getSlot .esp]
  load size
  emit (moveStackPointer (UInt32.ofNat size.bytes))

/-- A 32-bit constant onto the stack. -/
def pushConstant (value : UInt32) : Lowering Unit := do
  emit [.i32Const value]
  pushValue .bits32

/-- An operand onto the stack. -/
def push (i : Instruction) : Lowering Unit :=
  match i.operands with
  | [source] => do
    let size ← scalarSize source
    loadOperand source
    pushValue size
  | _ => unsupported

/-- The value on top of the stack into an operand. -/
def pop (i : Instruction) : Lowering Unit :=
  match i.operands with
  | [destination] => do
    popValue (← scalarSize destination)
    storeOperand destination
  | _ => unsupported

/-- The registers onto the stack by number, with the stack pointer as it was before the first. -/
def pushRegisters : Lowering Unit := do
  emit [getSlot .esp, .localSet Local.lhs]
  [0, 1, 2, 3, 4, 5, 6, 7].forM fun index => do
    if index = 4 then emit [.localGet Local.lhs] else loadRegister index .bits32
    pushValue .bits32

/-- The registers from the stack; the place of the stack pointer is passed over. -/
def popRegisters : Lowering Unit :=
  [7, 6, 5, 4, 3, 2, 1, 0].forM fun index => do
    if index = 4 then emit (moveStackPointer 4)
    else
      popValue .bits32
      storeRegister index .bits32

/-- The packed flags word. -/
def packedFlags : Code :=
  .i32Const 2 :: Flag.all.flatMap fun flag =>
    [getFlag flag, .i32Const (UInt32.ofNat flag.bit), .op .i32Shl, .op .i32Or]

/-- The flags from a packed word in the first local. -/
def unpackFlags : Code := Flag.all.flatMap fun flag => setFlag flag (.localGet Local.lhs :: bitAt flag.bit)

/-- The flags onto the stack. -/
def pushFlags : Lowering Unit := do
  emit packedFlags
  pushValue .bits32

/-- The flags from the stack. -/
def popFlags : Lowering Unit := do
  popValue .bits32
  emit (.localSet Local.lhs :: unpackFlags)

/-- The end of a procedure frame: the stack pointer from the frame pointer, and the frame pointer
from the stack. -/
def leaveFrame : Lowering Unit := do
  emit [getSlot .ebp, setSlot .esp]
  popValue .bits32
  emit [setSlot .ebp]

/-- A lowering for an instruction without operands. -/
def withoutOperands (i : Instruction) (lowering : Lowering Unit) : Lowering Unit :=
  match i.operands with
  | [] => lowering
  | _ => unsupported

end Ia32Wasm.Lowering
