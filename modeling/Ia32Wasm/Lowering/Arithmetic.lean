import Ia32Wasm.Lowering.Operands
import Ia32Wasm.X86.Instruction

/-!
# Arithmetic

The sources of an arithmetic instruction are put into the locals, and its result, cut to the width
of the operation, into `t1` and then into its destination.  Products and dividends are 64 bits wide;
a division by zero raises interrupt zero and does not come back.
-/

namespace Ia32Wasm.Lowering

open Machine (Slot)
open X86 (BinaryOp Instruction Operand OperandSize ShiftOp UnaryOp)

/-- The value on the stack, cut to a width, into `t1` and then into the destination, if there is one. -/
def finishResult (destination : Option Operand) (size : OperandSize) : Lowering Unit := do
  emit (maskTo size ++ [setSlot .t1])
  match destination with
  | none => pure ()
  | some op => do
    emit [getSlot .t1]
    storeOperand op

/-! ### Sums, differences and bitwise operations -/

/-- The result of a binary operation on the two values on the stack. -/
def binaryCode : BinaryOp → Code
  | .add => [.op .i32Add]
  | .adc => [.op .i32Add, getSlot (.flag .cf), .op .i32Add]
  | .sub | .cmp => [.op .i32Sub]
  | .sbb => [.op .i32Sub, getSlot (.flag .cf), .op .i32Sub]
  | .and | .test => [.op .i32And]
  | .or => [.op .i32Or]
  | .xor => [.op .i32Xor]

/-- The operation stores its result; a comparison and a test do not. -/
def storesResult (op : BinaryOp) : Bool := op ≠ .cmp && op ≠ .test

/-- A binary operation with an optional destination. -/
def binaryOn (op : BinaryOp) (destination : Option Operand) (lhs rhs : Operand) : Lowering Unit := do
  let size ← scalarSize lhs
  stage lhs rhs
  emit ([.localGet Local.lhs, .localGet Local.rhs] ++ binaryCode op)
  finishResult (if storesResult op then destination else none) size

/-- A binary operation. -/
def binary (op : BinaryOp) (i : Instruction) : Lowering Unit :=
  match i.operands with
  | [destination, lhs, rhs] => binaryOn op (some destination) lhs rhs
  | [lhs, rhs] => binaryOn op none lhs rhs
  | _ => unsupported

/-- A sum or difference of the sources in the locals, stored in the operand. -/
def unaryResult (op : Wasm.Numeric) (operand : Operand) (size : OperandSize) : Lowering Unit := do
  emit [.localGet Local.lhs, .localGet Local.rhs, .op op]
  finishResult (some operand) size

/-- A unary operation on an operand of some size. -/
def unaryOn (op : UnaryOp) (operand : Operand) (size : OperandSize) : Lowering Unit :=
  match op with
  | .inc => do
    loadOperand operand
    emit [.localSet Local.lhs, .i32Const 1, .localSet Local.rhs]
    unaryResult .i32Add operand size
  | .dec => do
    loadOperand operand
    emit [.localSet Local.lhs, .i32Const 1, .localSet Local.rhs]
    unaryResult .i32Sub operand size
  | .neg => do
    emit [.i32Const 0, .localSet Local.lhs]
    loadOperand operand
    emit [.localSet Local.rhs]
    unaryResult .i32Sub operand size
  | .not => do
    loadOperand operand
    emit ([.i32Const 0xffffffff, .op .i32Xor] ++ maskTo size)
    storeOperand operand

/-- A unary operation. -/
def unary (op : UnaryOp) (i : Instruction) : Lowering Unit :=
  match i.operands with
  | [operand] => do unaryOn op operand (← scalarSize operand)
  | _ => unsupported

/-! ### Shifts -/

/-- The result of a shift of the first source by the second. -/
def shiftCode (op : ShiftOp) (size : OperandSize) : Code :=
  match op with
  | .shl => [.localGet Local.lhs, .localGet Local.rhs, .op .i32Shl]
  | .shr => [.localGet Local.lhs, .localGet Local.rhs, .op .i32ShrU]
  | .sar => .localGet Local.lhs :: signExtend size ++ [.localGet Local.rhs, .op .i32ShrS]

/-- A shift; only the low five bits of the count are used. -/
def shift (op : ShiftOp) (i : Instruction) : Lowering Unit :=
  match i.operands with
  | [destination, lhs, count] => do
    let size ← scalarSize lhs
    loadOperand lhs
    emit [.localSet Local.lhs]
    loadOperand count
    emit ([.i32Const 31, .op .i32And, .localSet Local.rhs] ++ shiftCode op size)
    finishResult (some destination) size
  | _ => unsupported

/-! ### Products -/

/-- The value on the stack extended to 64 bits. -/
def extendWide (size : OperandSize) (signed : Bool) : Code :=
  if signed then signExtend size ++ [.op .i64ExtendI32S] else [.op .i64ExtendI32U]

/-- The product of the sources into the wide local. -/
def wideProduct (size : OperandSize) (signed : Bool) : Code :=
  .localGet Local.lhs :: extendWide size signed ++ .localGet Local.rhs :: extendWide size signed ++
    [.op .i64Mul, .localSet Local.wide]

/-- The low half of the wide local. -/
def lowHalf : Code := [.localGet Local.wide, .op .i32WrapI64]

/-- The part of the wide local above a width. -/
def highPart (size : OperandSize) : Code :=
  [.localGet Local.wide, .i64Const (UInt64.ofNat size.bits), .op .i64ShrU, .op .i32WrapI64] ++ maskTo size

/-- The product of two operands into a third. -/
def multiplyInto (destination lhs rhs : Operand) : Lowering Unit := do
  let size ← scalarSize destination
  stage lhs rhs
  emit (wideProduct size true ++ lowHalf)
  finishResult (some destination) size

/-- The product of the accumulator and an operand into the accumulator and its extension. -/
def multiplyAccumulator (signed : Bool) (source : Operand) : Lowering Unit := do
  let size ← scalarSize source
  stage (.reg 0 size) source
  emit (wideProduct size signed ++ lowHalf ++ maskTo size ++ [setSlot .t1])
  if size = .bits8 then
    emit (lowHalf ++ [.i32Const 0xffff, .op .i32And])
    storeRegister 0 .bits16
  else
    emit [getSlot .t1]
    storeRegister 0 size
    emit (highPart size)
    storeRegister 2 size

/-- A multiplication; only a signed one has three operands. -/
def multiply (signed : Bool) (i : Instruction) : Lowering Unit :=
  match i.operands with
  | [destination, lhs, rhs] => if signed then multiplyInto destination lhs rhs else unsupported
  | [source] => multiplyAccumulator signed source
  | _ => unsupported

/-! ### Quotients -/

/-- Interrupt zero unless the divisor in the second local is other than zero. -/
def checkDivisor : Code :=
  [.block, .localGet Local.rhs, .brIf 0, .i32Const 0, setSlot .t1, callHook .interrupt, .unreachable, .close]

/-- The dividend for a divisor of some size: `AX`, `DX:AX` or `EDX:EAX`. -/
def dividend (size : OperandSize) (signed : Bool) : Lowering Unit :=
  match size with
  | .bits8 => do
    loadRegister 0 .bits16
    emit (extendWide .bits16 signed)
  | .bits16 => do
    loadRegister 2 .bits16
    emit [.i32Const 16, .op .i32Shl]
    loadRegister 0 .bits16
    emit (.op .i32Or :: extendWide .bits32 signed)
  | .bits32 => do
    loadRegister 2 .bits32
    emit [.op .i64ExtendI32U, .i64Const 32, .op .i64Shl]
    loadRegister 0 .bits32
    emit [.op .i64ExtendI32U, .op .i64Or]
  | .bits128 => unsupported

/-- A quotient or remainder of the wide local by the second into a register. -/
def divideInto (op : Wasm.Numeric) (size : OperandSize) (signed : Bool) (register : UInt8) : Lowering Unit := do
  emit (.localGet Local.wide :: .localGet Local.rhs :: extendWide size signed ++ [.op op, .op .i32WrapI64] ++
    maskTo size)
  storeRegister register size

/-- The register of the remainder: for bytes it is the high byte of the accumulator. -/
def remainderRegister (size : OperandSize) : UInt8 := if size = .bits8 then 4 else 2

/-- A division of the accumulator and its extension. -/
def divide (signed : Bool) (i : Instruction) : Lowering Unit :=
  match i.operands with
  | [divisor] => do
    let size ← scalarSize divisor
    loadOperand divisor
    emit (.localSet Local.rhs :: checkDivisor)
    dividend size signed
    emit [.localSet Local.wide]
    divideInto (if signed then .i64DivS else .i64DivU) size signed 0
    divideInto (if signed then .i64RemS else .i64RemU) size signed (remainderRegister size)
  | _ => unsupported

end Ia32Wasm.Lowering
