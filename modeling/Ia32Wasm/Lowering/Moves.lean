import Ia32Wasm.Lowering.Arithmetic
import Ia32Wasm.Lowering.Flags

/-!
# Moves

Instructions that move values: plain and widening moves, addresses, exchanges, stores of conditions,
the extension of the accumulator, and the string instructions, which move or fill memory element by
element.
-/

namespace Ia32Wasm.Lowering

open Machine (Slot)
open X86 (Instruction Operand)

/-- A plain move. -/
def move (i : Instruction) : Lowering Unit :=
  match i.operands with
  | [destination, source] => do
    loadOperand source
    storeOperand destination
  | _ => unsupported

/-- A move that extends its source to the width of its destination. -/
def widen (signed : Bool) (i : Instruction) : Lowering Unit :=
  match i.operands with
  | [destination, source] => do
    let size ← scalarSize source
    loadOperand source
    if signed then
      emit (signExtend size)
      emit (maskTo (← scalarSize destination))
    storeOperand destination
  | _ => unsupported

/-- The address of an operand into another. -/
def loadAddress (i : Instruction) : Lowering Unit :=
  match i.operands with
  | [destination, source] => do
    addressOf source
    emit (maskTo (← scalarSize destination))
    storeOperand destination
  | _ => unsupported

/-- An exchange; the first operand is stored first, since its address may use the second. -/
def exchange (i : Instruction) : Lowering Unit :=
  match i.operands with
  | [first, second] => do
    stage first second
    emit [.localGet Local.rhs]
    storeOperand first
    emit [.localGet Local.lhs]
    storeOperand second
  | _ => unsupported

/-- A comparison of the accumulator with the destination; if they are equal the source goes into the
destination, and else the destination into the accumulator. -/
def compareExchange (i : Instruction) : Lowering Unit :=
  match i.operands with
  | [destination, source] => do
    let size ← scalarSize destination
    stage (.reg 0 size) destination
    emit [.localGet Local.lhs, .localGet Local.rhs, .op .i32Sub]
    finishResult none size
    emit [.localGet Local.lhs, .localGet Local.rhs, .op .i32Eq, .ifThen]
    loadOperand source
    storeOperand destination
    emit [.orElse, .localGet Local.rhs]
    storeRegister 0 size
    emit [.close]
  | _ => unsupported

/-- The value of a condition into an operand. -/
def storeCondition (i : Instruction) : Lowering Unit :=
  match i.operands with
  | [destination] => do
    testCondition i
    storeOperand destination
  | _ => unsupported

/-- The sign of the accumulator into every bit of its extension. -/
def extendAccumulator (i : Instruction) : Lowering Unit :=
  if i.prefixes.contains .operandSize then do
    loadRegister 0 .bits16
    emit (signExtend .bits16 ++ [.i32Const 15, .op .i32ShrS] ++ maskTo .bits16)
    storeRegister 2 .bits16
  else do
    loadRegister 0 .bits32
    emit [.i32Const 31, .op .i32ShrS]
    storeRegister 2 .bits32

/-- Some registers set to zero. -/
def clearRegisters (registers : List Slot) : Code :=
  registers.flatMap fun register => [.i32Const 0, setSlot register]

/-! ### String instructions -/

/-- The step of a string instruction over elements of `width` bytes: down when the direction flag is set. -/
def stringStep (width : UInt32) : Code :=
  [.i32Const (0 - width), .i32Const width, getFlag .df, .select, .localSet Local.tmp]

/-- The step added to a register. -/
def advance (register : Slot) : Code :=
  [getSlot register, .localGet Local.tmp, .op .i32Add, setSlot register]

/-- The head of a loop that ends when the count register is zero. -/
def repeatHead : Code := [.block, .loop, getSlot .ecx, .op .i32Eqz, .brIf 1]

/-- The tail of a loop that counts the count register down. -/
def repeatTail : Code := addToGlobal Slot.ecx.index 0xffffffff ++ [.br 0, .close, .close]

/-- A string instruction on one element or, under a repeat prefix, on as many as the count register says. -/
def stringOn (i : Instruction) (destination : Operand) (element : X86.OperandSize → Lowering Unit)
    (moved : Code) : Lowering Unit := do
  let size ← scalarSize destination
  let repeats := i.prefixes.intersects (.union .rep .repne)
  emit (stringStep (UInt32.ofNat size.bytes) ++ (if repeats then repeatHead else []) ++ [getSlot .edi])
  element size
  store size
  emit (moved ++ advance .edi ++ if repeats then repeatTail else [])

/-- Memory at the source index moved to the destination index. -/
def moveString (i : Instruction) : Lowering Unit :=
  match i.operands with
  | [destination, _] =>
    stringOn i destination (fun size => do emit [getSlot .esi]; load size) (advance .esi)
  | _ => unsupported

/-- A value stored at the destination index. -/
def fillString (i : Instruction) : Lowering Unit :=
  match i.operands with
  | [destination, source] => stringOn i destination (fun _ => loadOperand source) []
  | _ => unsupported

end Ia32Wasm.Lowering
