import Ia32Wasm.Lowering.Instruction
import Ia32Wasm.Proofs.Wasm.Nesting

/-!
# What lowerings emit

Most lowerings emit instructions that only move and compute values, and of the globals these write registers, `t1` and
segments alone, unless an operand of the lowered instruction names another one as a register.

* `Emits` states a property of every instruction that a lowering emits, with or without an obstacle.
* `Plain` is a property that all such instructions have, so the lemmas about lowerings hold for each plain property.
* `Benign` is a plain property: the instruction works on values, and it does not write `link`.
-/

namespace Ia32Wasm

open Machine (Flag Slot)
open X86 (BinaryOp Condition Instruction Mnemonic Operand OperandSize ShiftOp UnaryOp)

/-- The operand is a register with the number of the global of `link`. -/
def X86.Operand.NamesLink : Operand → Prop
  | .register index _ _ _ => index.toNat = Slot.link.index
  | _ => False

namespace Lowering

variable {α β : Type} {P Q : Wasm.Instr Callee → Prop} {links : Prop}

/-- Every instruction that the lowering emits has a property. -/
def Emits (P : Wasm.Instr Callee → Prop) (x : Lowering α) : Prop := ∀ instr ∈ x.code, P instr

/-- The instruction works on values alone, and it writes `link` only where `links` allows that. -/
def Benign (links : Prop) : Wasm.Instr Callee → Prop
  | .globalSet index => index = Slot.link.index → links
  | instr => instr.isData = true

@[simp] theorem benign_globalSet_iff {index : Nat} :
    Benign links (.globalSet index) ↔ (index = Slot.link.index → links) := Iff.rfl

@[simp] theorem benign_iff_isData {instr : Wasm.Instr Callee} (h : ∀ index, instr ≠ .globalSet index) :
    Benign links instr ↔ instr.isData = true := by
  cases instr <;> simp_all [Benign]

/-- The instruction works on values alone and writes no global. -/
@[simp] def computes : Wasm.Instr Callee → Bool
  | .globalSet _ => false
  | instr => instr.isData

/-- The property holds of instructions that write no global, and of writes to registers, `t1` and segments. -/
class Plain (P : Wasm.Instr Callee → Prop) : Prop where
  data {instr : Wasm.Instr Callee} : computes instr = true → P instr
  register {index : Nat} : index < 8 → P (.globalSet index)
  result : P (setSlot .t1)
  segment {index : Nat} : 18 ≤ index → P (.globalSet index)

/-! ### Composition -/

/-- Code of a sequence: both parts, if the first has an outcome to go on with. -/
theorem bind_code_of_ok {x : Lowering α} {f : α → Lowering β} {a : α} (h : x.outcome = .ok a) :
    (x >>= f).code = x.code ++ (f a).code := by
  show (Lowering.bind x f).code = _
  rw [Lowering.bind, h]

/-- Code behind an obstacle is not emitted. -/
theorem bind_code_of_error {x : Lowering α} {f : α → Lowering β} {e : Obstacle} (h : x.outcome = .error e) :
    (x >>= f).code = x.code := by
  show (Lowering.bind x f).code = _
  rw [Lowering.bind, h]

theorem bind_outcome_of_ok {x : Lowering α} {f : α → Lowering β} {a : α} (h : x.outcome = .ok a) :
    (x >>= f).outcome = (f a).outcome := by
  show (Lowering.bind x f).outcome = _
  rw [Lowering.bind, h]

/-- The first obstacle is that of the sequence. -/
theorem bind_outcome_of_error {x : Lowering α} {f : α → Lowering β} {e : Obstacle} (h : x.outcome = .error e) :
    (x >>= f).outcome = .error e := by
  show (Lowering.bind x f).outcome = _
  rw [Lowering.bind, h]

@[simp] theorem outcome_emit (code : Code) : (emit code).outcome = .ok () := rfl

@[simp] theorem code_emit (code : Code) : (emit code).code = code := rfl

@[simp] theorem code_pure (a : α) : (pure a : Lowering α).code = [] := rfl

@[simp] theorem outcome_pure (a : α) : (pure a : Lowering α).outcome = .ok a := rfl

/-- A weaker property is emitted as well. -/
theorem emits_mono {x : Lowering α} (hPQ : ∀ instr, P instr → Q instr) (h : Emits P x) : Emits Q x :=
  fun instr hi => hPQ instr (h instr hi)

@[simp] theorem emits_bind_iff {x : Lowering α} {f : α → Lowering β} :
    Emits P (x >>= f) ↔ Emits P x ∧ ∀ a, x.outcome = .ok a → Emits P (f a) := by
  unfold Emits
  cases h : x.outcome with
  | error e => simp [bind_code_of_error h]
  | ok a =>
    rw [bind_code_of_ok h]
    simp [or_imp, forall_and]

@[simp] theorem emits_pure (a : α) : Emits P (pure a : Lowering α) := by simp [Emits]

@[simp] theorem emits_unsupported : Emits P (unsupported : Lowering α) := by simp [Emits, unsupported]

@[simp] theorem emits_require (o : Option α) : Emits P (require o) := by
  cases o <;> simp [require]

@[simp] theorem emits_scalarSize (op : Operand) : Emits P (scalarSize op) := by
  unfold scalarSize
  split <;> simp

@[simp] theorem emits_segmentGlobal (index : UInt8) : Emits P (segmentGlobal index) := by
  unfold segmentGlobal
  split <;> simp

/-- What each round emits, the loop emits. -/
theorem emits_forM {γ : Type} {l : List γ} {f : γ → Lowering PUnit} (h : ∀ x ∈ l, Emits P (f x)) :
    Emits P (l.forM f) := by
  induction l with
  | nil => exact emits_pure _
  | cons x l ih =>
    refine emits_bind_iff.2 ⟨h x (by simp), fun _ _ => ih fun y hy => h y (by simp [hy])⟩

theorem emits_withoutOperands {x : Lowering Unit} (i : Instruction) (h : Emits P x) :
    Emits P (withoutOperands i x) := by
  unfold withoutOperands
  split
  · exact h
  · simp

/-! ### Code that works on values -/

section Code

variable {code first second : Code}

@[simp] theorem emits_emit_nil : Emits P (emit []) := by simp [Emits]

/-- Given code is checked instruction by instruction. -/
theorem emits_emit_cons_iff {instr : Wasm.Instr Callee} :
    Emits P (emit (instr :: code)) ↔ P instr ∧ Emits P (emit code) := by
  simp [Emits]

@[simp] theorem emits_emit_append_iff :
    Emits P (emit (first ++ second)) ↔ Emits P (emit first) ∧ Emits P (emit second) := by
  simp [Emits, or_imp, forall_and]

private theorem emits_emit_flatMap {γ : Type} (l : List γ) {f : γ → Code} (h : ∀ x ∈ l, Emits P (emit (f x))) :
    Emits P (emit (l.flatMap f)) := by
  intro instr hi
  obtain ⟨x, hx, hi⟩ := List.mem_flatMap.1 hi
  exact h x hx instr hi

@[simp 900] theorem emits_emit_setSlot_iff {slot : Slot} :
    Emits P (emit (setSlot slot :: code)) ↔ P (setSlot slot) ∧ Emits P (emit code) := emits_emit_cons_iff

variable [Plain P]

-- Reads and writes of slots have rules of their own, which come first: `computes` is stuck on them.
@[simp low] theorem emits_emit_step_iff {instr : Wasm.Instr Callee} :
    Emits P (emit (instr :: code)) ↔ (computes instr = false → P instr) ∧ Emits P (emit code) := by
  rw [emits_emit_cons_iff]
  refine and_congr_left fun _ => ⟨fun h _ => h, fun h => ?_⟩
  cases hcomputes : computes instr with
  | true => exact Plain.data hcomputes
  | false => exact h hcomputes

@[simp] theorem emits_emit_getSlot_iff {slot : Slot} :
    Emits P (emit (getSlot slot :: code)) ↔ Emits P (emit code) := by
  rw [emits_emit_cons_iff]
  exact and_iff_right (Plain.data rfl)

@[simp] theorem emits_emit_getFlag_iff {flag : Flag} : Emits P (emit (getFlag flag :: code)) ↔ Emits P (emit code) :=
  emits_emit_getSlot_iff

@[simp] theorem emits_emit_setRegister_iff {register : Fin 8} :
    Emits P (emit (setSlot (.register register) :: code)) ↔ Emits P (emit code) := by
  rw [emits_emit_cons_iff]
  exact and_iff_right (Plain.register register.isLt)

@[simp] theorem emits_emit_setResult_iff : Emits P (emit (setSlot .t1 :: code)) ↔ Emits P (emit code) := by
  rw [emits_emit_cons_iff]
  exact and_iff_right Plain.result

end Code

section Plain

variable [Plain P]

@[simp] theorem emits_maskTo (size : OperandSize) : Emits P (emit (maskTo size)) := by
  cases size <;> simp [maskTo, OperandSize.mask]

@[simp] theorem emits_signExtend (size : OperandSize) : Emits P (emit (signExtend size)) := by
  cases size <;> simp [signExtend]

/-! ### Operands -/

/-- Registers are the first eight slots. -/
theorem registerGlobal_lt (index : UInt8) : registerGlobal index < 8 := by
  unfold registerGlobal
  have : (index &&& 7).toNat = index.toNat % 8 := by
    rw [UInt8.toNat_and]
    exact Nat.and_two_pow_sub_one_eq_mod index.toNat 3
  omega

theorem byteGlobal_lt (index : UInt8) : byteGlobal index < 4 := by
  unfold byteGlobal
  have : (index &&& 3).toNat = index.toNat % 4 := by
    rw [UInt8.toNat_and]
    exact Nat.and_two_pow_sub_one_eq_mod index.toNat 2
  omega

/-- Segment registers are behind the flags and scratch slots. -/
theorem le_of_segmentGlobal {index : UInt8} {global : Nat} (h : (segmentGlobal index).outcome = .ok global) :
    18 ≤ global := by
  unfold segmentGlobal at h
  split at h
  · cases h
    simp [Slot.index]
  · cases h

@[simp] theorem emits_load (size : OperandSize) : Emits P (load size) := by
  simp [load]

@[simp] theorem emits_store (size : OperandSize) : Emits P (store size) := by
  simp [store]

@[simp] theorem emits_shiftLeft (amount : UInt32) : Emits P (emit (shiftLeft amount)) := by
  unfold shiftLeft
  split <;> simp

@[simp] theorem emits_shiftRight (amount : UInt32) : Emits P (emit (shiftRight amount)) := by
  unfold shiftRight
  split <;> simp

private theorem emits_insertInto {index : Nat} (h : index < 8) (size : OperandSize) (shift : UInt32) :
    Emits P (emit (insertInto index size shift)) := by
  have hwrite : P (.globalSet index) := Plain.register h
  simp [insertInto, hwrite]

@[simp] theorem emits_addDisplacement (d : Option Int32) : Emits P (emit (addDisplacement d)) := by
  cases d <;> simp [addDisplacement]

@[simp] theorem emits_scaledCode (index scale : UInt8) : Emits P (emit (scaledCode index scale)) := by
  unfold scaledCode
  split <;> simp

private theorem emits_sumTerms {terms : List Code} (h : ∀ term ∈ terms, Emits P (emit term)) :
    Emits P (emit (sumTerms terms)) := by
  unfold sumTerms
  split
  · simp
  · have hflat : Emits P (emit terms.flatten) := by
      intro instr hi
      obtain ⟨term, ht, hi⟩ := List.mem_flatten.1 hi
      exact h term ht instr hi
    have hsums : Emits P (emit (List.replicate (terms.length - 1) (.op .i32Add))) := by
      intro instr hi
      rw [List.eq_of_mem_replicate hi]
      exact Plain.data rfl
    exact emits_emit_append_iff.2 ⟨hflat, hsums⟩

private theorem emits_composedAddress {op : Operand} {x : Lowering Unit} (h : composedAddress? op = some x) :
    Emits P x := by
  unfold composedAddress? at h
  split at h
  · rename_i base index scale displacement _ _
    cases h
    apply emits_sumTerms
    simp only [addressTerms, List.mem_append, Option.mem_toList, Option.map_eq_some_iff]
    rintro term ((⟨b, -, rfl⟩ | ⟨i, -, rfl⟩) | ⟨d, -, rfl⟩) <;> simp
  · cases h
    simp
  · cases h
    simp
  · cases h

@[simp] theorem emits_addressOf (op : Operand) : Emits P (addressOf op) := by
  unfold addressOf
  split
  · simp
  · simp
  · cases h : composedAddress? op with
    | none => simp
    | some x => exact emits_composedAddress h

@[simp] theorem emits_loadFrom (op : Operand) (size : OperandSize) : Emits P (loadFrom op size) := by
  simp [loadFrom]

@[simp] theorem emits_storeTo (op : Operand) (size : OperandSize) : Emits P (storeTo op size) := by
  simp [storeTo]

private theorem emits_loadComposed {op : Operand} {x : Lowering Unit} (h : loadComposed? op = some x) :
    Emits P x := by
  unfold loadComposed? at h
  split at h <;> cases h <;> simp

private theorem emits_storeComposed {op : Operand} {x : Lowering Unit} (h : storeComposed? op = some x) :
    Emits P x := by
  unfold storeComposed? at h
  split at h
  · cases h
    exact emits_insertInto (registerGlobal_lt _) _ _
  · cases h
    exact emits_insertInto (Nat.lt_of_lt_of_le (byteGlobal_lt _) (by omega)) _ _
  · cases h
    refine emits_bind_iff.2 ⟨by simp, fun global hg => ?_⟩
    have hwrite : P (.globalSet global) := Plain.segment (le_of_segmentGlobal hg)
    simp [hwrite]
  all_goals cases h <;> simp

@[simp] theorem emits_loadOperand (op : Operand) : Emits P (loadOperand op) := by
  unfold loadOperand
  split
  · simp
  · simp
  · simp
  · simp
  · cases h : loadComposed? op with
    | none => simp
    | some x => exact emits_loadComposed h

/-- A write to the global with the number of the register that the operand is, if it is one, has the property. -/
def Allows (P : Wasm.Instr Callee → Prop) : Operand → Prop
  | .register index _ _ _ => P (.globalSet index.toNat)
  | _ => True

/-- Every operand of the instruction may be stored to. -/
def OperandsAllow (P : Wasm.Instr Callee → Prop) (i : Instruction) : Prop := ∀ op ∈ i.operands, Allows P op

/-- Only a store to a register writes a global that is not known. -/
theorem emits_storeOperand {op : Operand} (hop : Allows P op) : Emits P (storeOperand op) := by
  unfold storeOperand
  split
  · simpa [Allows] using hop
  · simp
  · simp
  · cases h : storeComposed? op with
    | none => simp
    | some x => exact emits_storeComposed h

@[simp] theorem emits_loadRegister (index : UInt8) (size : OperandSize) : Emits P (loadRegister index size) := by
  simp [loadRegister]

theorem emits_storeRegister {index : UInt8} (h : index.toNat < 8) (size : OperandSize) :
    Emits P (storeRegister index size) :=
  emits_storeOperand (Plain.register h)

@[simp] theorem emits_stage (lhs rhs : Operand) : Emits P (stage lhs rhs) := by
  simp [stage]

/-! ### Conditions -/

@[simp] theorem emits_bitAt (bit : Nat) : Emits P (emit (bitAt bit)) := by
  unfold bitAt
  split <;> simp

@[simp] theorem emits_condition (c : Condition) : Emits P (emit (condition c)) := by
  cases c <;> simp [condition, predicate, Condition.code]

@[simp] theorem emits_testCondition (i : Instruction) : Emits P (testCondition i) := by
  unfold testCondition
  split <;> simp

/-! ### Arithmetic -/

theorem emits_finishResult {destination : Option Operand} (size : OperandSize) (h : ∀ op ∈ destination, Allows P op) :
    Emits P (finishResult destination size) := by
  cases destination with
  | none => simp [finishResult]
  | some op => simpa [finishResult] using emits_storeOperand (h op rfl)

@[simp] theorem emits_binaryCode (op : BinaryOp) : Emits P (emit (binaryCode op)) := by
  cases op <;> simp [binaryCode]

private theorem emits_binaryOn (op : BinaryOp) {destination : Option Operand} (lhs rhs : Operand)
    (h : ∀ op ∈ destination, Allows P op) : Emits P (binaryOn op destination lhs rhs) := by
  have hfinish : ∀ size, Emits P (finishResult (if storesResult op then destination else none) size) := by
    intro size
    apply emits_finishResult
    split <;> simp_all
  simp [binaryOn, hfinish]

private theorem emits_unaryResult (op : Wasm.Numeric) {operand : Operand} (size : OperandSize)
    (h : Allows P operand) :
    Emits P (unaryResult op operand size) := by
  have hfinish : Emits P (finishResult (some operand) size) := emits_finishResult size (by rintro _ ⟨⟩; exact h)
  simp [unaryResult, hfinish]

private theorem emits_unaryOn (op : UnaryOp) {operand : Operand} (size : OperandSize) (h : Allows P operand) :
    Emits P (unaryOn op operand size) := by
  cases op <;> simp [unaryOn, emits_unaryResult _ _ h, emits_storeOperand h]

@[simp] theorem emits_shiftCode (op : ShiftOp) (size : OperandSize) : Emits P (emit (shiftCode op size)) := by
  cases op <;> simp [shiftCode]

@[simp] theorem emits_extendWide (size : OperandSize) (signed : Bool) : Emits P (emit (extendWide size signed)) := by
  cases signed <;> simp [extendWide]

@[simp] theorem emits_wideProduct (size : OperandSize) (signed : Bool) :
    Emits P (emit (wideProduct size signed)) := by
  simp [wideProduct]

private theorem emits_multiplyInto {destination : Operand} (lhs rhs : Operand) (h : Allows P destination) :
    Emits P (multiplyInto destination lhs rhs) := by
  have hfinish : ∀ size, Emits P (finishResult (some destination) size) :=
    fun size => emits_finishResult size (by rintro _ ⟨⟩; exact h)
  simp [multiplyInto, lowHalf, hfinish]

private theorem emits_multiplyAccumulator (signed : Bool) (source : Operand) :
    Emits P (multiplyAccumulator signed source) := by
  have hlow : ∀ size, Emits P (storeRegister 0 size) := emits_storeRegister (by decide)
  have hhigh : ∀ size, Emits P (storeRegister 2 size) := emits_storeRegister (by decide)
  refine emits_bind_iff.2 ⟨by simp, fun size _ => emits_bind_iff.2 ⟨by simp, fun _ _ => emits_bind_iff.2 ⟨?_, ?_⟩⟩⟩
  · simp [lowHalf]
  · intro _ _
    split <;> simp [lowHalf, highPart, hlow, hhigh]

@[simp] theorem emits_dividend (size : OperandSize) (signed : Bool) : Emits P (dividend size signed) := by
  cases size <;> simp [dividend]

theorem emits_divideInto (op : Wasm.Numeric) (size : OperandSize) (signed : Bool) {register : UInt8}
    (h : register.toNat < 8) : Emits P (divideInto op size signed register) := by
  simp [divideInto, emits_storeRegister h]

/-! ### The stack -/

@[simp] theorem emits_moveStackPointer (delta : UInt32) : Emits P (emit (moveStackPointer delta)) := by
  have hwrite : P (.globalSet Slot.esp.index) := Plain.register (by decide)
  simp [moveStackPointer, addToGlobal, hwrite]

@[simp] theorem emits_pushValue (size : OperandSize) : Emits P (pushValue size) := by
  simp [pushValue, Slot.esp]

@[simp] theorem emits_popValue (size : OperandSize) : Emits P (popValue size) := by
  simp [popValue]

@[simp] theorem emits_pushConstant (value : UInt32) : Emits P (pushConstant value) := by
  simp [pushConstant]

@[simp] theorem emits_push (i : Instruction) : Emits P (push i) := by
  unfold push
  split <;> simp

theorem emits_pushRegisters : Emits P pushRegisters := by
  refine emits_bind_iff.2 ⟨by simp, fun _ _ => emits_forM fun index _ => ?_⟩
  split <;> simp

theorem emits_popRegisters : Emits P popRegisters := by
  refine emits_forM fun index hindex => ?_
  have hlt : ∀ register ∈ ([7, 6, 5, 4, 3, 2, 1, 0] : List UInt8), register.toNat < 8 := by simp
  have hstore : Emits P (storeRegister index .bits32) := emits_storeRegister (hlt index hindex) _
  split <;> simp [hstore]

theorem emits_pushFlags : Emits P pushFlags := by
  simp [pushFlags, packedFlags, Flag.all]

theorem emits_leaveFrame : Emits P leaveFrame := by
  simp [leaveFrame, Slot.esp, Slot.ebp]

/-! ### Moves -/

theorem emits_extendAccumulator (i : Instruction) : Emits P (extendAccumulator i) := by
  have hstore : ∀ size, Emits P (storeRegister 2 size) := emits_storeRegister (by decide)
  unfold extendAccumulator
  split <;> simp [hstore]

theorem emits_clearRegisters {registers : List Slot} (h : ∀ slot ∈ registers, slot.index < 8) :
    Emits P (emit (clearRegisters registers)) := by
  refine emits_emit_flatMap _ fun slot hslot => ?_
  have hwrite : P (setSlot slot) := Plain.register (h slot hslot)
  simp [hwrite]

@[simp] theorem emits_stringStep (width : UInt32) : Emits P (emit (stringStep width)) := by
  simp [stringStep]

theorem emits_advance (register : Fin 8) : Emits P (emit (advance (.register register))) := by
  simp [advance]

/-! ### Instructions -/

section Instructions

variable {i : Instruction} (h : OperandsAllow P i)
include h

/-- An instruction may store to its own operands. -/
theorem emits_storeOperand_of_mem {op : Operand} (hop : op ∈ i.operands) : Emits P (storeOperand op) :=
  emits_storeOperand (h op hop)

theorem emits_binary (op : BinaryOp) : Emits P (binary op i) := by
  unfold binary
  split
  · rename_i destination lhs rhs heq
    apply emits_binaryOn
    rintro _ ⟨⟩
    exact h destination (by simp [heq])
  · exact emits_binaryOn op _ _ (by simp)
  · simp

theorem emits_unary (op : UnaryOp) : Emits P (unary op i) := by
  unfold unary
  split
  · rename_i operand heq
    have hon : ∀ size, Emits P (unaryOn op operand size) :=
      fun size => emits_unaryOn op size (h operand (by simp [heq]))
    simp [hon]
  · simp

theorem emits_shift (op : ShiftOp) : Emits P (shift op i) := by
  unfold shift
  split
  · rename_i destination lhs count heq
    have hfinish : ∀ size, Emits P (finishResult (some destination) size) := fun size =>
      emits_finishResult size (by rintro _ ⟨⟩; exact h destination (by simp [heq]))
    simp [hfinish]
  · simp

theorem emits_multiply (signed : Bool) : Emits P (multiply signed i) := by
  unfold multiply
  split
  · rename_i destination lhs rhs heq
    split
    · exact emits_multiplyInto lhs rhs (h destination (by simp [heq]))
    · simp
  · exact emits_multiplyAccumulator signed _
  · simp

theorem emits_pop : Emits P (pop i) := by
  unfold pop
  split
  · rename_i heq
    simp [emits_storeOperand_of_mem h, heq]
  · simp

theorem emits_move : Emits P (move i) := by
  unfold move
  split
  · rename_i heq
    simp [emits_storeOperand_of_mem h, heq]
  · simp

theorem emits_widen (signed : Bool) : Emits P (widen signed i) := by
  unfold widen
  split
  · rename_i heq
    cases signed <;> simp [emits_storeOperand_of_mem h, heq]
  · simp

theorem emits_loadAddress : Emits P (loadAddress i) := by
  unfold loadAddress
  split
  · rename_i heq
    simp [emits_storeOperand_of_mem h, heq]
  · simp

theorem emits_exchange : Emits P (exchange i) := by
  unfold exchange
  split
  · rename_i heq
    simp [emits_storeOperand_of_mem h, heq]
  · simp

theorem emits_storeCondition : Emits P (storeCondition i) := by
  unfold storeCondition
  split
  · rename_i heq
    simp [emits_storeOperand_of_mem h, heq]
  · simp

end Instructions

end Plain

/-! ### Benign code -/

/-- Every instruction of the code works on values alone and leaves `link` as it is unless `links` holds. -/
def BenignCode (links : Prop) (code : Code) : Prop := ∀ instr ∈ code, Benign links instr

@[simp] theorem benignCode_iff {code : Code} : BenignCode links code ↔ Emits (Benign links) (emit code) := Iff.rfl

instance : Plain (Benign links) where
  data {instr} h := by cases instr <;> simp_all [Benign]
  register h heq := by simp [Slot.index] at heq; omega
  result heq := by simp [Slot.index] at heq
  segment h heq := by simp [Slot.index] at heq; omega

private theorem index_eq_link_iff {slot : Slot} : slot.index = Slot.link.index ↔ slot = .link := by
  cases slot with
  | register i => simp [Slot.index]; omega
  | flag f => cases f <;> simp [Slot.index, Flag.index]
  | segment i => simp [Slot.index]; omega
  | _ => simp [Slot.index]

@[simp] theorem benign_setSlot_iff {slot : Slot} : Benign links (setSlot slot) ↔ (slot = .link → links) := by
  simp [setSlot, Benign, index_eq_link_iff]

/-- An operand of the instruction names the global of `link`. -/
def OperandsNameLink (i : Instruction) : Prop := ∃ op ∈ i.operands, op.NamesLink

/-- Only a store to a register with its number can write `link`. -/
theorem operandsAllow_benign (i : Instruction) : OperandsAllow (Benign (OperandsNameLink i)) i := by
  intro op hop
  cases op with
  | register index size direct displacement => exact fun heq => ⟨_, hop, heq⟩
  | _ => trivial

@[simp] theorem emits_setFlag_iff {flag : Flag} {value : Code} :
    Emits (Benign links) (emit (setFlag flag value)) ↔ Emits (Benign links) (emit value) := by
  simp [setFlag]

@[simp] theorem emits_clearFlag (flag : Flag) : Emits (Benign links) (emit (clearFlag flag)) := by simp [clearFlag]

@[simp] theorem emits_resultFlags (size : OperandSize) : Emits (Benign links) (emit (resultFlags size)) := by
  simp [resultFlags, signOf]

@[simp] theorem emits_auxiliaryFlag : Emits (Benign links) (emit auxiliaryFlag) := by simp [auxiliaryFlag]

@[simp] theorem emits_addFlags (size : OperandSize) (carryIn writesCarry : Bool) :
    Emits (Benign links) (emit (addFlags size carryIn writesCarry)) := by
  cases carryIn <;> cases writesCarry <;> simp [addFlags, wideSources, addWideCarry, exceeds, signOf]

@[simp] theorem emits_subFlags (size : OperandSize) (borrowIn writesCarry : Bool) :
    Emits (Benign links) (emit (subFlags size borrowIn writesCarry)) := by
  cases borrowIn <;> cases writesCarry <;> simp [subFlags, wideSources, addWideCarry, signOf]

@[simp] theorem emits_logicFlags (size : OperandSize) : Emits (Benign links) (emit (logicFlags size)) := by
  simp [logicFlags]

@[simp] theorem emits_shiftedOut (op : ShiftOp) (size : OperandSize) :
    Emits (Benign links) (emit (shiftedOut op size)) := by
  cases op <;> simp [shiftedOut, wideSources, signOf]

@[simp] theorem emits_multiplyFlags (size : OperandSize) (signed : Bool) :
    Emits (Benign links) (emit (multiplyFlags size signed)) := by
  cases signed <;> simp [multiplyFlags, exceeds]

theorem emits_popFlags : Emits (Benign links) popFlags := by
  simp [popFlags, unpackFlags, Flag.all]

end Lowering

end Ia32Wasm
