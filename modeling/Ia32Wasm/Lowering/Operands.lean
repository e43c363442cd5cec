import Ia32Wasm.Lowering.Basic

/-!
# Operands

The value of an operand is put on the stack, or taken from the stack into it.  Whole registers,
constants and memory at an address in a register or at a constant one are plain; parts of registers,
segment registers and the other addresses are composed.  A value is always extended with zeros.
-/

namespace Ia32Wasm.Lowering

open Machine (Slot)
open X86 (Operand OperandSize)

/-! ### Registers -/

/-- The global of a register, by the low three bits of its number. -/
def registerGlobal (index : UInt8) : Nat := (index &&& 7).toNat

/-- The global that holds an 8-bit register, by the low two bits of its number. -/
def byteGlobal (index : UInt8) : Nat := (index &&& 3).toNat

/-- The position of an 8-bit register in its global: from the number 4 on it is the second byte. -/
def byteShift (index : UInt8) : UInt32 := if 4 ≤ index then 8 else 0

/-- The global of a segment register. -/
def segmentGlobal (index : UInt8) : Lowering Nat :=
  if h : index.toNat < 6 then pure (Slot.segment ⟨index.toNat, h⟩).index else unsupported

/-- A value shifted left; a shift by zero is left out. -/
def shiftLeft (amount : UInt32) : Code := if amount = 0 then [] else [.i32Const amount, .op .i32Shl]

/-- A value shifted right; a shift by zero is left out. -/
def shiftRight (amount : UInt32) : Code := if amount = 0 then [] else [.i32Const amount, .op .i32ShrU]

/-- The value on the stack into the part of a global that begins at bit `shift`; the rest of the
global stays. -/
def insertInto (index : Nat) (size : OperandSize) (shift : UInt32) : Code :=
  maskTo size ++ shiftLeft shift ++
    [.localSet Local.value, .globalGet index, .i32Const (~~~(size.mask <<< shift)), .op .i32And,
      .localGet Local.value, .op .i32Or, .globalSet index]

/-! ### Addresses -/

/-- A displacement added to the value on the stack, if there is one. -/
def addDisplacement : Option Int32 → Code
  | some d => [.i32Const d.toUInt32, .op .i32Add]
  | none => []

/-- The number of the lowest bit that is set in a scale. -/
def scaleShift (scale : UInt8) : Nat := ((List.range 8).find? scale.toNat.testBit).getD 0

/-- The index register of an address times its scale; only the lowest bit of the scale counts. -/
def scaledCode (index scale : UInt8) : Code :=
  .globalGet (registerGlobal index) ::
    (if 1 < scale then [.i32Const (UInt32.ofNat (scaleShift scale)), .op .i32Shl] else [])

/-- The summands of an address. -/
def addressTerms (base index : Option UInt8) (scale : UInt8) (displacement : Option Int32) : List Code :=
  (base.map fun b => [.globalGet (registerGlobal b)]).toList ++
  (index.map fun i => scaledCode i scale).toList ++
  (displacement.map fun d => [.i32Const d.toUInt32]).toList

/-- The sum of some terms; without any it is zero. -/
def sumTerms (terms : List Code) : Code :=
  if terms.isEmpty then [.i32Const 0] else terms.flatten ++ List.replicate (terms.length - 1) (.op .i32Add)

/-- The address of a composed operand. -/
def composedAddress? : Operand → Option (Lowering Unit)
  | .scaledIndex base index scale displacement _ _ =>
    some (emit (sumTerms (addressTerms base index scale displacement)))
  | .segment index _ true displacement => some do
    emit (.globalGet (← segmentGlobal index) :: addDisplacement displacement)
  | .offset value _ => some (emit [.i32Const value])
  | _ => none

/-- The address of an operand in memory. -/
def addressOf : Operand → Lowering Unit
  | .register index _ true displacement => emit (.globalGet index.toNat :: addDisplacement displacement)
  | .immediate value _ true displacement =>
    emit [.i32Const (value.toUInt64.toUInt32 + (displacement.getD 0).toUInt32)]
  | op => (composedAddress? op).getD unsupported

/-! ### Loads and stores -/

/-- The value of the memory that an operand addresses. -/
def loadFrom (op : Operand) (size : OperandSize) : Lowering Unit := do
  addressOf op
  load size

/-- The value on the stack into the memory that an operand addresses. -/
def storeTo (op : Operand) (size : OperandSize) : Lowering Unit := do
  emit [.localSet Local.value]
  addressOf op
  emit [.localGet Local.value]
  store size

/-- The value of a composed operand. -/
def loadComposed? : Operand → Option (Lowering Unit)
  | .register index .bits16 false _ => some (emit (.globalGet (registerGlobal index) :: maskTo .bits16))
  | .register index .bits8 false _ =>
    some (emit (.globalGet (byteGlobal index) :: shiftRight (byteShift index) ++ maskTo .bits8))
  | .segment index _ false _ => some do emit [.globalGet (← segmentGlobal index)]
  | op@(.segment _ size true _) | op@(.scaledIndex _ _ _ _ size true) | op@(.offset _ size) =>
    some (loadFrom op size)
  | _ => none

/-- The value on the stack into a composed operand. -/
def storeComposed? : Operand → Option (Lowering Unit)
  | .register index .bits16 false _ => some (emit (insertInto (registerGlobal index) .bits16 0))
  | .register index .bits8 false _ => some (emit (insertInto (byteGlobal index) .bits8 (byteShift index)))
  | .segment index _ false _ => some do
    let segment ← segmentGlobal index
    emit (maskTo .bits16 ++ [.globalSet segment])
  | op@(.segment _ size true _) | op@(.scaledIndex _ _ _ _ size true) | op@(.offset _ size) =>
    some (storeTo op size)
  | _ => none

/-- The value of an operand. -/
def loadOperand : Operand → Lowering Unit
  | .register index .bits32 false _ => emit [.globalGet index.toNat]
  | .immediate value size false _ => emit [.i32Const (value.toUInt64.toUInt32 &&& size.mask)]
  | op@(.register _ size true _) | op@(.immediate _ size true _) => loadFrom op size
  | op => (loadComposed? op).getD unsupported

/-- The value on the stack into an operand. -/
def storeOperand : Operand → Lowering Unit
  | .register index .bits32 false _ => emit [.globalSet index.toNat]
  | op@(.register _ size true _) | op@(.immediate _ size true _) => storeTo op size
  | op => (storeComposed? op).getD unsupported

/-- The value of a register. -/
def loadRegister (index : UInt8) (size : OperandSize) : Lowering Unit := loadOperand (.reg index size)

/-- The value on the stack into a register. -/
def storeRegister (index : UInt8) (size : OperandSize) : Lowering Unit := storeOperand (.reg index size)

/-- The values of two operands into the locals for sources. -/
def stage (lhs rhs : Operand) : Lowering Unit := do
  loadOperand lhs
  emit [.localSet Local.lhs]
  loadOperand rhs
  emit [.localSet Local.rhs]

end Ia32Wasm.Lowering
