import Ia32Wasm.Lowering.Basic
import Ia32Wasm.X86.Instruction

/-!
# Status flags

Each flag is a slot that holds `0` or `1`.  After an arithmetic instruction the flags are computed
from its sources, which are in the locals, and from its result, which is in `t1`; a condition is
computed from the flags.
-/

namespace Ia32Wasm.Lowering

open Machine (Flag Slot)
open X86 (Condition Instruction Mnemonic OperandSize ShiftOp)

/-- The contents of a flag. -/
def getFlag (flag : Flag) : Wasm.Instr Callee := getSlot (.flag flag)

/-- A flag set to the value of some code. -/
def setFlag (flag : Flag) (value : Code) : Code := value ++ [setSlot (.flag flag)]

/-- A flag cleared. -/
def clearFlag (flag : Flag) : Code := setFlag flag [.i32Const 0]

/-- One bit of the value on the stack. -/
def bitAt (bit : Nat) : Code :=
  (if bit = 0 then [] else [.i32Const (UInt32.ofNat bit), .op .i32ShrU]) ++ [.i32Const 1, .op .i32And]

/-- The highest bit of a value of some width. -/
def signOf (size : OperandSize) : Code := bitAt (size.bits - 1)

/-- The two sources as 64-bit values. -/
def wideSources : Code :=
  [.localGet Local.lhs, .op .i64ExtendI32U, .localGet Local.rhs, .op .i64ExtendI32U]

/-- The carry flag as a 64-bit value, added to the one on the stack. -/
def addWideCarry : Code := [getFlag .cf, .op .i64ExtendI32U, .op .i64Add]

/-- Whether the 64-bit value on the stack has a bit beyond some width. -/
def exceeds (size : OperandSize) : Code :=
  [.i64Const (UInt64.ofNat size.bits), .op .i64ShrU, .i64Const 0, .op .i64Ne]

/-! ### Flags of a result -/

/-- ZF, SF and PF from the result. -/
def resultFlags (size : OperandSize) : Code :=
  setFlag .zf [getSlot .t1, .op .i32Eqz] ++
  setFlag .sf (getSlot .t1 :: signOf size) ++
  setFlag .pf [getSlot .t1, .i32Const 0xff, .op .i32And, .op .i32Popcnt, .i32Const 1, .op .i32And, .op .i32Eqz]

/-- AF from the sources and the result. -/
def auxiliaryFlag : Code :=
  setFlag .af
    ([.localGet Local.lhs, .localGet Local.rhs, .op .i32Xor, getSlot .t1, .op .i32Xor] ++ bitAt 4)

/-- The flags of a sum: CF is the carry out of the width and OF a result whose sign differs from
both sources. -/
def addFlags (size : OperandSize) (carryIn writesCarry : Bool) : Code :=
  (if writesCarry then
    setFlag .cf (wideSources ++ [.op .i64Add] ++ (if carryIn then addWideCarry else []) ++ exceeds size)
  else []) ++
  setFlag .of
    ([.localGet Local.lhs, getSlot .t1, .op .i32Xor, .localGet Local.rhs, getSlot .t1, .op .i32Xor, .op .i32And] ++
      signOf size) ++
  auxiliaryFlag ++ resultFlags size

/-- The flags of a difference: CF is the borrow and OF a result whose sign differs from the first of
two sources with different signs. -/
def subFlags (size : OperandSize) (borrowIn writesCarry : Bool) : Code :=
  (if writesCarry then
    setFlag .cf
      (if borrowIn then wideSources ++ addWideCarry ++ [.op .i64LtU]
      else [.localGet Local.lhs, .localGet Local.rhs, .op .i32LtU])
  else []) ++
  setFlag .of
    ([.localGet Local.lhs, .localGet Local.rhs, .op .i32Xor, .localGet Local.lhs, getSlot .t1, .op .i32Xor,
      .op .i32And] ++ signOf size) ++
  auxiliaryFlag ++ resultFlags size

/-- The flags of a bitwise operation. -/
def logicFlags (size : OperandSize) : Code :=
  clearFlag .cf ++ clearFlag .of ++ clearFlag .af ++ resultFlags size

/-- CF and OF of a shift by a count other than zero: CF is the last bit shifted out. -/
def shiftedOut (op : ShiftOp) (size : OperandSize) : Code :=
  match op with
  | .shl =>
    setFlag .cf
      (wideSources ++ [.op .i64Shl, .i64Const (UInt64.ofNat size.bits), .op .i64ShrU, .op .i32WrapI64, .i32Const 1,
        .op .i32And]) ++
    setFlag .of (getSlot .t1 :: signOf size ++ [getFlag .cf, .op .i32Xor])
  | .shr =>
    setFlag .cf
      [.localGet Local.lhs, .localGet Local.rhs, .i32Const 1, .op .i32Sub, .op .i32ShrU, .i32Const 1, .op .i32And] ++
    setFlag .of (.localGet Local.lhs :: signOf size)
  | .sar =>
    setFlag .cf
      (.localGet Local.lhs :: signExtend size ++
        [.localGet Local.rhs, .i32Const 1, .op .i32Sub, .op .i32ShrS, .i32Const 1, .op .i32And]) ++
    clearFlag .of

/-- The flags of a shift; a shift by zero leaves them as they are. -/
def shiftFlags (op : ShiftOp) (size : OperandSize) : Code :=
  [.block, .localGet Local.rhs, .op .i32Eqz, .brIf 0] ++ shiftedOut op size ++ resultFlags size ++ [.close]

/-- CF and OF of a product: whether it exceeds the width. -/
def multiplyFlags (size : OperandSize) (signed : Bool) : Code :=
  setFlag .cf
    (.localGet Local.wide ::
      (if signed then
        [.localGet Local.wide, .op .i32WrapI64] ++ signExtend size ++ [.op .i64ExtendI32S, .op .i64Ne]
      else exceeds size)) ++
  setFlag .of [getFlag .cf]

/-- How an operation on a width changes the flags; most change none. -/
def flagsOf? : Mnemonic → Option (OperandSize → Code)
  | .binary .add => some fun size => addFlags size false true
  | .binary .adc => some fun size => addFlags size true true
  | .unary .inc => some fun size => addFlags size false false
  | .binary .sub | .binary .cmp | .unary .neg | .cmpxchg => some fun size => subFlags size false true
  | .binary .sbb => some fun size => subFlags size true true
  | .unary .dec => some fun size => subFlags size false false
  | .binary .and | .binary .or | .binary .xor | .binary .test => some logicFlags
  | .shift op => some (shiftFlags op)
  | .multiply signed => some fun size => multiplyFlags size signed
  | _ => none

/-- The change of the flags by an instruction, on the width of its first operand. -/
def updateFlags (i : Instruction) : Lowering Unit :=
  match flagsOf? i.mnemonic with
  | none => pure ()
  | some flags => do
    let first ← require i.operands.head?
    emit (flags (← scalarSize first))

/-! ### Conditions -/

/-- The condition with an even code that a condition is or negates. -/
def predicate : Condition → Code
  | .o | .no => [getFlag .of]
  | .b | .ae => [getFlag .cf]
  | .e | .ne => [getFlag .zf]
  | .be | .a => [getFlag .cf, getFlag .zf, .op .i32Or]
  | .s | .ns => [getFlag .sf]
  | .p | .np => [getFlag .pf]
  | .l | .ge => [getFlag .sf, getFlag .of, .op .i32Ne]
  | .le | .g => [getFlag .zf, getFlag .sf, getFlag .of, .op .i32Ne, .op .i32Or]

/-- The value of a condition. -/
def condition (c : Condition) : Code := predicate c ++ (if c.code % 2 = 1 then [.op .i32Eqz] else [])

/-- The value of the condition that an instruction tests. -/
def testCondition (i : Instruction) : Lowering Unit :=
  match i.mnemonic with
  | .jumpIf c | .set c => emit (condition c)
  | .into => emit (condition .o)
  | .jecxz => emit [getSlot .ecx, .op .i32Eqz]
  | _ => unsupported

end Ia32Wasm.Lowering
