import Ia32Wasm.Proofs.Lowering.Tame
import Ia32Wasm.Proofs.X86.Reading

/-!
# Code that does not read `t2`

The slot `t2` is for the debugger: the code of an instruction never reads it (`overlooks_instruction`), as long as the
operands name registers that there are.  An operand that is a register or is addressed by one reads the global with
the number of that register; the numbers in a scaled address are cut to three bits, and segment registers have
globals of their own.

There is one lemma for each lowering.  Where code does not depend on operands the check itself is run on it
(`overlooks_emit`).
-/

namespace Ia32Wasm

open Machine (Flag Slot)
open X86 (BinaryOp Condition Destination Instruction Mnemonic Operand OperandSize ShiftOp UnaryOp)

/-- The instruction reads the global with the given index. -/
@[simp] def Wasm.Instr.gets {κ : Type} (index : Nat) : Wasm.Instr κ → Bool
  | .globalGet other => other == index
  | _ => false

namespace Lowering

variable {α : Type} {i : Instruction} {op lhs rhs : Operand} {code : Code}

/-- The instruction does not read `t2`. -/
def Overlooks (instr : Wasm.Instr Callee) : Prop := instr.gets Slot.t2.index = false

/-- Given code is checked for reads of `t2` by running the check. -/
theorem overlooks_emit (h : (code.all fun instr => !instr.gets Slot.t2.index) = true) : Emits Overlooks (emit code) :=
  fun instr hinstr => by simpa [Overlooks] using List.all_eq_true.1 h instr hinstr

-- As for plain properties, reads and writes of slots have rules of their own, which come first.
@[simp low] private theorem overlooks_cons_iff {instr : Wasm.Instr Callee} :
    Emits Overlooks (emit (instr :: code)) ↔ instr.gets Slot.t2.index = false ∧ Emits Overlooks (emit code) :=
  emits_emit_cons_iff

@[simp] private theorem overlooks_setSlot_iff {slot : Slot} :
    Emits Overlooks (emit (setSlot slot :: code)) ↔ Emits Overlooks (emit code) :=
  emits_emit_cons_iff.trans (and_iff_right rfl)

@[simp] private theorem overlooks_getSlot_iff {slot : Slot} :
    Emits Overlooks (emit (getSlot slot :: code)) ↔ slot ≠ .t2 ∧ Emits Overlooks (emit code) := by
  refine emits_emit_cons_iff.trans (and_congr_left fun _ => ?_)
  cases slot with
  | register k =>
    have hne : k.val ≠ 17 := by omega
    simpa [Overlooks, getSlot, Slot.index] using hne
  | flag f => cases f <;> simp [Overlooks, getSlot, Slot.index, Flag.index]
  | segment k =>
    have hne : 18 + k.val ≠ 17 := by omega
    simpa [Overlooks, getSlot, Slot.index] using hne
  | _ => simp [Overlooks, getSlot, Slot.index]

@[simp] private theorem overlooks_getFlag_iff {flag : Flag} :
    Emits Overlooks (emit (getFlag flag :: code)) ↔ Emits Overlooks (emit code) :=
  overlooks_getSlot_iff.trans (and_iff_right (by simp))

/-! ### Operands -/

@[simp] private theorem overlooks_maskTo (size : OperandSize) : Emits Overlooks (emit (maskTo size)) := by
  cases size <;> exact overlooks_emit rfl

@[simp] private theorem overlooks_signExtend (size : OperandSize) : Emits Overlooks (emit (signExtend size)) := by
  cases size <;> exact overlooks_emit rfl

@[simp] private theorem overlooks_load (size : OperandSize) : Emits Overlooks (load size) := by
  simp [load]

@[simp] private theorem overlooks_store (size : OperandSize) : Emits Overlooks (store size) := by
  simp [store]

private theorem ne_t2_of_lt {index : Nat} (h : index < 8) : (index == Slot.t2.index) = false := by
  have hne : index ≠ 17 := by omega
  simpa [Slot.index] using hne

private theorem overlooks_insertInto {index : Nat} (h : index < 8) (size : OperandSize) (shift : UInt32) :
    Emits Overlooks (emit (insertInto index size shift)) := by
  have hshift : Emits Overlooks (emit (shiftLeft shift)) := by
    unfold shiftLeft
    split <;> simp
  simp [insertInto, hshift, ne_t2_of_lt h]

private theorem overlooks_addDisplacement (displacement : Option Int32) :
    Emits Overlooks (emit (addDisplacement displacement)) := by
  cases displacement <;> simp [addDisplacement]

private theorem overlooks_sumTerms {terms : List Code} (h : ∀ term ∈ terms, Emits Overlooks (emit term)) :
    Emits Overlooks (emit (sumTerms terms)) := by
  unfold sumTerms
  split
  · simp
  · refine emits_emit_append_iff.2 ⟨fun instr hinstr => ?_, fun instr hinstr => ?_⟩
    · obtain ⟨term, hterm, hinstr⟩ := List.mem_flatten.1 hinstr
      exact h term hterm instr hinstr
    · rw [List.eq_of_mem_replicate hinstr]
      rfl

private theorem overlooks_scaledCode (index scale : UInt8) : Emits Overlooks (emit (scaledCode index scale)) := by
  unfold scaledCode
  split <;> simp [ne_t2_of_lt (registerGlobal_lt index)]

/-- The global of a segment register is not that of `t2`. -/
private theorem overlooks_segment {f : Nat → Lowering α} (index : UInt8)
    (h : ∀ global, (global == Slot.t2.index) = false → Emits Overlooks (f global)) :
    Emits Overlooks (segmentGlobal index >>= f) := by
  refine emits_bind_iff.2 ⟨by simp, fun global hglobal => h global ?_⟩
  have hle := le_of_segmentGlobal hglobal
  have hne : global ≠ 17 := by omega
  simpa [Slot.index] using hne

private theorem overlooks_addressOf (h : op.Numbered) : Emits Overlooks (addressOf op) := by
  cases op with
  | register index size indirect displacement =>
    cases indirect with
    | false => exact emits_unsupported
    | true => simp [addressOf, overlooks_addDisplacement, ne_t2_of_lt h]
  | immediate value size indirect displacement =>
    cases indirect with
    | false => exact emits_unsupported
    | true => simp [addressOf]
  | scaledIndex base index scale displacement size indirect =>
    refine overlooks_sumTerms ?_
    simp only [addressTerms, List.mem_append, Option.mem_toList, Option.map_eq_some_iff]
    rintro term ((⟨b, -, rfl⟩ | ⟨i, -, rfl⟩) | ⟨d, -, rfl⟩)
    · simp [ne_t2_of_lt (registerGlobal_lt b)]
    · exact overlooks_scaledCode i scale
    · simp
  | segment index size indirect displacement =>
    cases indirect with
    | false => exact emits_unsupported
    | true => exact overlooks_segment index fun global hglobal => by simp [hglobal, overlooks_addDisplacement]
  | offset value size => simp [addressOf, composedAddress?]
  | symbol name => exact emits_unsupported

private theorem overlooks_byte (index : UInt8) :
    Emits Overlooks (emit (.globalGet (byteGlobal index) :: shiftRight (byteShift index) ++ maskTo .bits8)) := by
  have hlt : byteGlobal index < 8 := Nat.lt_of_lt_of_le (byteGlobal_lt index) (by omega)
  have hshift : Emits Overlooks (emit (shiftRight (byteShift index))) := by
    unfold shiftRight
    split <;> simp
  simp [ne_t2_of_lt hlt, hshift]

private theorem overlooks_loadFrom (h : op.Numbered) (size : OperandSize) : Emits Overlooks (loadFrom op size) := by
  simp [loadFrom, overlooks_addressOf h]

private theorem overlooks_storeTo (h : op.Numbered) (size : OperandSize) : Emits Overlooks (storeTo op size) := by
  simp [storeTo, overlooks_addressOf h]

private theorem overlooks_loadOperand (h : op.Numbered) : Emits Overlooks (loadOperand op) := by
  unfold loadOperand
  split
  · simp [ne_t2_of_lt h]
  · simp
  · exact overlooks_loadFrom h _
  · exact overlooks_loadFrom h _
  · cases hcomposed : loadComposed? op with
    | none => simp
    | some x =>
      unfold loadComposed? at hcomposed
      split at hcomposed <;> cases hcomposed
      · simp [ne_t2_of_lt (registerGlobal_lt _)]
      · exact overlooks_byte _
      · exact overlooks_segment _ fun global hglobal => by simp [hglobal]
      all_goals exact overlooks_loadFrom h _

private theorem overlooks_storeOperand (h : op.Numbered) : Emits Overlooks (storeOperand op) := by
  unfold storeOperand
  split
  · simp
  · exact overlooks_storeTo h _
  · exact overlooks_storeTo h _
  · cases hcomposed : storeComposed? op with
    | none => simp
    | some x =>
      unfold storeComposed? at hcomposed
      split at hcomposed <;> cases hcomposed
      · exact overlooks_insertInto (registerGlobal_lt _) _ _
      · exact overlooks_insertInto (Nat.lt_of_lt_of_le (byteGlobal_lt _) (by omega)) _ _
      · exact overlooks_segment _ fun global hglobal => by simp
      all_goals exact overlooks_storeTo h _

@[simp] private theorem overlooks_loadRegister {index : UInt8} (h : index.toNat < 8) (size : OperandSize) :
    Emits Overlooks (loadRegister index size) :=
  overlooks_loadOperand h

@[simp] private theorem overlooks_storeRegister {index : UInt8} (h : index.toNat < 8) (size : OperandSize) :
    Emits Overlooks (storeRegister index size) :=
  overlooks_storeOperand h

private theorem overlooks_stage (hlhs : lhs.Numbered) (hrhs : rhs.Numbered) : Emits Overlooks (stage lhs rhs) := by
  simp [stage, overlooks_loadOperand hlhs, overlooks_loadOperand hrhs]

/-! ### Arithmetic -/

private theorem numbered_accumulator (size : OperandSize) : (Operand.reg 0 size).Numbered :=
  show (0 : UInt8).toNat < 8 by decide

private theorem overlooks_finishResult {destination : Option Operand} (size : OperandSize)
    (h : ∀ op ∈ destination, op.Numbered) : Emits Overlooks (finishResult destination size) := by
  cases destination with
  | none => simp [finishResult]
  | some op => simp [finishResult, overlooks_storeOperand (h op rfl)]

private theorem overlooks_binaryOn (op : BinaryOp) {destination : Option Operand}
    (h : ∀ op ∈ destination, op.Numbered)
    (hlhs : lhs.Numbered) (hrhs : rhs.Numbered) : Emits Overlooks (binaryOn op destination lhs rhs) := by
  have hcode : Emits Overlooks (emit (binaryCode op)) := by cases op <;> exact overlooks_emit rfl
  have hfinish : ∀ size, Emits Overlooks (finishResult (if storesResult op then destination else none) size) := by
    intro size
    apply overlooks_finishResult
    split <;> simp_all
  simp [binaryOn, overlooks_stage hlhs hrhs, hcode, hfinish]

private theorem overlooks_unaryOn (op : UnaryOp) {operand : Operand} (size : OperandSize) (h : operand.Numbered) :
    Emits Overlooks (unaryOn op operand size) := by
  have hfinish : Emits Overlooks (finishResult (some operand) size) :=
    overlooks_finishResult size (by rintro _ ⟨⟩; exact h)
  cases op <;> simp [unaryOn, unaryResult, overlooks_loadOperand h, overlooks_storeOperand h, hfinish]

@[simp] private theorem overlooks_extendWide (size : OperandSize) (signed : Bool) :
    Emits Overlooks (emit (extendWide size signed)) := by
  cases signed <;> simp [extendWide]

@[simp] private theorem overlooks_wideProduct (size : OperandSize) (signed : Bool) :
    Emits Overlooks (emit (wideProduct size signed)) := by
  simp [wideProduct]

private theorem overlooks_multiplyInto {destination : Operand} (h : destination.Numbered) (hlhs : lhs.Numbered)
    (hrhs : rhs.Numbered) : Emits Overlooks (multiplyInto destination lhs rhs) := by
  have hfinish : ∀ size, Emits Overlooks (finishResult (some destination) size) :=
    fun size => overlooks_finishResult size (by rintro _ ⟨⟩; exact h)
  simp [multiplyInto, lowHalf, overlooks_stage hlhs hrhs, hfinish]

private theorem overlooks_multiplyAccumulator (signed : Bool) {source : Operand} (h : source.Numbered) :
    Emits Overlooks (multiplyAccumulator signed source) := by
  have hstage : ∀ size, Emits Overlooks (stage (.reg 0 size) source) :=
    fun size => overlooks_stage (numbered_accumulator size) h
  refine emits_bind_iff.2 ⟨by simp, fun size _ => emits_bind_iff.2
    ⟨hstage size, fun _ _ => emits_bind_iff.2 ⟨?_, ?_⟩⟩⟩
  · simp [lowHalf]
  · intro _ _
    split <;> simp [lowHalf, highPart]

private theorem overlooks_divide (signed : Bool) (h : ∀ op ∈ i.operands, op.Numbered) :
    Emits Overlooks (divide signed i) := by
  unfold divide
  split
  · rename_i divisor hops
    have hdivisor : Emits Overlooks (loadOperand divisor) := overlooks_loadOperand (h divisor (by simp [hops]))
    have hdividend : ∀ size, Emits Overlooks (dividend size signed) := by
      intro size
      cases size <;> simp [dividend]
    have hremainder : ∀ size, (remainderRegister size).toNat < 8 := by
      intro size
      cases size <;> decide
    simp [checkDivisor, callHook, divideInto, hdivisor, hdividend, hremainder]
  · simp

/-! ### The stack -/

@[simp] private theorem overlooks_moveStackPointer (delta : UInt32) :
    Emits Overlooks (emit (moveStackPointer delta)) :=
  overlooks_emit rfl

@[simp] private theorem overlooks_pushValue (size : OperandSize) : Emits Overlooks (pushValue size) := by
  simp [pushValue, Slot.esp]

@[simp] private theorem overlooks_popValue (size : OperandSize) : Emits Overlooks (popValue size) := by
  simp [popValue, Slot.esp]

private theorem overlooks_pushRegisters : Emits Overlooks pushRegisters := by
  refine emits_bind_iff.2 ⟨overlooks_emit rfl, fun _ _ => emits_forM fun index hindex => ?_⟩
  have hlt : ∀ register ∈ ([0, 1, 2, 3, 4, 5, 6, 7] : List UInt8), register.toNat < 8 := by simp
  split <;> simp [hlt index hindex]

private theorem overlooks_popRegisters : Emits Overlooks popRegisters := by
  refine emits_forM fun index hindex => ?_
  have hlt : ∀ register ∈ ([7, 6, 5, 4, 3, 2, 1, 0] : List UInt8), register.toNat < 8 := by simp
  split <;> simp [hlt index hindex]

private theorem overlooks_pushFlags : Emits Overlooks pushFlags :=
  emits_bind_iff.2 ⟨overlooks_emit rfl, fun _ _ => overlooks_pushValue .bits32⟩

private theorem overlooks_popFlags : Emits Overlooks popFlags :=
  emits_bind_iff.2 ⟨overlooks_popValue .bits32, fun _ _ => overlooks_emit rfl⟩

private theorem overlooks_leaveFrame : Emits Overlooks leaveFrame := by
  simp [leaveFrame, Slot.ebp]

/-! ### Conditions and flags -/

@[simp] private theorem overlooks_testCondition (i : Instruction) : Emits Overlooks (testCondition i) := by
  have hcondition : ∀ c, Emits Overlooks (emit (condition c)) := by
    intro c
    cases c <;> exact overlooks_emit rfl
  unfold testCondition
  split <;> simp [hcondition, Slot.ecx]

private theorem overlooks_flagsOf {mnemonic : Mnemonic} {flags : OperandSize → Code}
    (h : flagsOf? mnemonic = some flags)
    (size : OperandSize) : Emits Overlooks (emit (flags size)) := by
  unfold flagsOf? at h
  split at h <;> cases h
  case h_14 op => cases op <;> cases size <;> exact overlooks_emit rfl
  case h_15 signed => cases signed <;> cases size <;> exact overlooks_emit rfl
  all_goals cases size <;> exact overlooks_emit rfl

private theorem overlooks_updateFlags (i : Instruction) : Emits Overlooks (updateFlags i) := by
  unfold updateFlags
  split
  · simp
  · rename_i flags hflags
    simp [overlooks_flagsOf hflags]

/-! ### String instructions -/

private theorem overlooks_stringOn (i : Instruction) (destination : Operand) {element : OperandSize → Lowering Unit}
    {moved : Code}
    (helement : ∀ size, Emits Overlooks (element size)) (hmoved : Emits Overlooks (emit moved)) :
    Emits Overlooks (stringOn i destination element moved) := by
  have hhead : Emits Overlooks (emit repeatHead) := overlooks_emit rfl
  have htail : Emits Overlooks (emit repeatTail) := overlooks_emit rfl
  unfold stringOn
  by_cases hrep : i.prefixes.intersects (.union .rep .repne) = true
  · simp [hrep, stringStep, advance, Slot.edi, helement, hmoved, hhead, htail]
  · simp [hrep, stringStep, advance, Slot.edi, helement, hmoved]

/-! ### Instructions -/

section Instructions

variable (h : ∀ op ∈ i.operands, op.Numbered)
include h

private theorem overlooks_compareExchange : Emits Overlooks (compareExchange i) := by
  unfold compareExchange
  split
  · rename_i destination source hops
    obtain ⟨hdestination, hsource⟩ : destination.Numbered ∧ source.Numbered := by simpa [hops] using h
    have hstage : ∀ size, Emits Overlooks (stage (.reg 0 size) destination) :=
      fun size => overlooks_stage (numbered_accumulator size) hdestination
    have hfinish : ∀ size, Emits Overlooks (finishResult none size) :=
      fun size => overlooks_finishResult size (by simp)
    simp [hstage, hfinish, overlooks_loadOperand hsource, overlooks_storeOperand hdestination]
  · simp

private theorem overlooks_binary (op : BinaryOp) : Emits Overlooks (binary op i) := by
  unfold binary
  split
  · rename_i destination lhs rhs hops
    obtain ⟨hdestination, hlhs, hrhs⟩ : destination.Numbered ∧ lhs.Numbered ∧ rhs.Numbered := by simpa [hops] using h
    exact overlooks_binaryOn op (by rintro _ ⟨⟩; exact hdestination) hlhs hrhs
  · rename_i lhs rhs hops
    obtain ⟨hlhs, hrhs⟩ : lhs.Numbered ∧ rhs.Numbered := by simpa [hops] using h
    exact overlooks_binaryOn op (by simp) hlhs hrhs
  · simp

private theorem overlooks_unary (op : UnaryOp) : Emits Overlooks (unary op i) := by
  unfold unary
  split
  · rename_i operand hops
    have hon : ∀ size, Emits Overlooks (unaryOn op operand size) :=
      fun size => overlooks_unaryOn op size (h operand (by simp [hops]))
    simp [hon]
  · simp

private theorem overlooks_shift (op : ShiftOp) : Emits Overlooks (shift op i) := by
  unfold shift
  split
  · rename_i destination lhs count hops
    obtain ⟨hdestination, hlhs, hcount⟩ : destination.Numbered ∧ lhs.Numbered ∧ count.Numbered := by
      simpa [hops] using h
    have hcode : ∀ size, Emits Overlooks (emit (shiftCode op size)) := by
      intro size
      cases op <;> simp [shiftCode]
    have hfinish : ∀ size, Emits Overlooks (finishResult (some destination) size) :=
      fun size => overlooks_finishResult size (by rintro _ ⟨⟩; exact hdestination)
    simp [overlooks_loadOperand hlhs, overlooks_loadOperand hcount, hcode, hfinish]
  · simp

private theorem overlooks_multiply (signed : Bool) : Emits Overlooks (multiply signed i) := by
  unfold multiply
  split
  · rename_i destination lhs rhs hops
    obtain ⟨hdestination, hlhs, hrhs⟩ : destination.Numbered ∧ lhs.Numbered ∧ rhs.Numbered := by simpa [hops] using h
    split
    · exact overlooks_multiplyInto hdestination hlhs hrhs
    · simp
  · rename_i source hops
    exact overlooks_multiplyAccumulator signed (h source (by simp [hops]))
  · simp

private theorem overlooks_move : Emits Overlooks (move i) := by
  unfold move
  split
  · rename_i destination source hops
    obtain ⟨hdestination, hsource⟩ : destination.Numbered ∧ source.Numbered := by simpa [hops] using h
    simp [overlooks_loadOperand hsource, overlooks_storeOperand hdestination]
  · simp

private theorem overlooks_widen (signed : Bool) : Emits Overlooks (widen signed i) := by
  unfold widen
  split
  · rename_i destination source hops
    obtain ⟨hdestination, hsource⟩ : destination.Numbered ∧ source.Numbered := by simpa [hops] using h
    cases signed <;> simp [overlooks_loadOperand hsource, overlooks_storeOperand hdestination]
  · simp

private theorem overlooks_loadAddress : Emits Overlooks (loadAddress i) := by
  unfold loadAddress
  split
  · rename_i destination source hops
    obtain ⟨hdestination, hsource⟩ : destination.Numbered ∧ source.Numbered := by simpa [hops] using h
    simp [overlooks_addressOf hsource, overlooks_storeOperand hdestination]
  · simp

private theorem overlooks_exchange : Emits Overlooks (exchange i) := by
  unfold exchange
  split
  · rename_i first second hops
    obtain ⟨hfirst, hsecond⟩ : first.Numbered ∧ second.Numbered := by simpa [hops] using h
    simp [overlooks_stage hfirst hsecond, overlooks_storeOperand hfirst, overlooks_storeOperand hsecond]
  · simp

private theorem overlooks_push : Emits Overlooks (push i) := by
  unfold push
  split
  · rename_i source hops
    simp [overlooks_loadOperand (h source (by simp [hops]))]
  · simp

private theorem overlooks_pop : Emits Overlooks (pop i) := by
  unfold pop
  split
  · rename_i destination hops
    simp [overlooks_storeOperand (h destination (by simp [hops]))]
  · simp

private theorem overlooks_storeCondition : Emits Overlooks (storeCondition i) := by
  unfold storeCondition
  split
  · rename_i destination hops
    simp [overlooks_storeOperand (h destination (by simp [hops]))]
  · simp

private theorem overlooks_fillString : Emits Overlooks (fillString i) := by
  unfold fillString
  split
  · rename_i destination source hops
    exact overlooks_stringOn i _ (fun _ => overlooks_loadOperand (h source (by simp [hops]))) (by simp)
  · simp

omit h in
private theorem overlooks_moveString : Emits Overlooks (moveString i) := by
  unfold moveString
  split
  · exact overlooks_stringOn i _ (by simp [Slot.esi]) (overlooks_emit rfl)
  · simp

private theorem overlooks_computation {x : Lowering Unit} (hx : computation? i = some x) : Emits Overlooks x := by
  unfold computation? at hx
  split at hx <;> cases hx
  · exact overlooks_binary h _
  · exact overlooks_unary h _
  · exact overlooks_shift h _
  · exact overlooks_multiply h _
  · exact overlooks_divide _ h
  · exact overlooks_widen h _
  · exact overlooks_loadAddress h
  · exact overlooks_exchange h
  · exact overlooks_compareExchange h
  · exact overlooks_push h
  · exact overlooks_pop h
  · exact emits_withoutOperands i overlooks_pushRegisters
  · exact emits_withoutOperands i overlooks_popRegisters
  · exact emits_withoutOperands i overlooks_pushFlags
  · exact emits_withoutOperands i overlooks_popFlags
  · exact emits_withoutOperands i overlooks_leaveFrame
  · unfold extendAccumulator
    split <;> simp
  · exact overlooks_emit rfl
  · exact overlooks_emit rfl
  · exact overlooks_moveString
  · exact overlooks_fillString h
  · exact overlooks_storeCondition h
  · exact overlooks_emit rfl
  · exact overlooks_emit rfl
  · simp
  · simp

/-! ### Transfers of control -/

private theorem overlooks_prologue : Emits Overlooks (prologue i) := by
  have hpush : ∀ value, Emits Overlooks (pushConstant value) := fun value => by simp [pushConstant]
  unfold prologue
  split
  · exact hpush _
  · exact hpush _
  · split
    · rename_i target hops
      simp [overlooks_loadOperand (h target (by simp [hops]))]
    · simp
  · split
    · rename_i target hops
      simp [overlooks_loadOperand (h target (by simp [hops])), hpush]
    · simp
  · split <;> simp
  · simp

omit h in
private theorem overlooks_jumpTo (toLoop : Nat) (destination : Destination) :
    Emits Overlooks (emit (jumpTo toLoop destination)) := by
  cases destination <;> exact overlooks_emit rfl

omit h in
private theorem overlooks_guarded (hcode : Emits Overlooks (emit code)) : Emits Overlooks (guarded i code) := by
  simp [guarded, hcode]

omit h in
private theorem overlooks_resolved : Emits Overlooks (resolved i) := by
  unfold resolved
  split <;> simp [Emits]

omit h in
private theorem overlooks_importedCall : Emits Overlooks (importedCall i) := by
  unfold importedCall
  split <;> simp [callImport]

private theorem overlooks_interrupt : Emits Overlooks (interrupt i) := by
  unfold interrupt
  split
  · rename_i vector hops
    simp [overlooks_loadOperand (h vector (by simp [hops])), callHook]
  · simp

private theorem overlooks_body (chunk : UInt32) (toLoop : Nat) : Emits Overlooks (body chunk toLoop i) := by
  unfold body
  split
  · exact emits_bind_iff.2 ⟨overlooks_resolved, fun destination _ => overlooks_jumpTo toLoop destination⟩
  · refine emits_bind_iff.2 ⟨overlooks_resolved, fun destination _ => ?_⟩
    cases destination <;> exact overlooks_emit rfl
  · exact emits_bind_iff.2 ⟨overlooks_resolved, fun _ _ => overlooks_guarded (overlooks_jumpTo _ _)⟩
  · exact emits_bind_iff.2 ⟨overlooks_resolved, fun _ _ => overlooks_guarded (overlooks_jumpTo _ _)⟩
  · exact overlooks_importedCall
  · exact emits_bind_iff.2 ⟨overlooks_importedCall, fun _ _ => overlooks_emit rfl⟩
  · exact overlooks_emit rfl
  · exact overlooks_emit rfl
  · exact overlooks_emit rfl
  · exact overlooks_interrupt h
  · exact overlooks_guarded (overlooks_emit rfl)
  · simp
  · exact overlooks_move h
  · cases hx : computation? i with
    | none => simp
    | some x => exact overlooks_computation h hx

/-- The code of an instruction whose operands name registers that there are does not read `t2`. -/
theorem overlooks_instruction (chunk : UInt32) (toLoop : Nat) : Emits Overlooks (instruction chunk toLoop i) :=
  emits_bind_iff.2 ⟨overlooks_prologue h, fun _ _ =>
    emits_bind_iff.2 ⟨overlooks_body h chunk toLoop, fun _ _ => overlooks_updateFlags i⟩⟩

end Instructions

end Lowering

end Ia32Wasm
