import Ia32Wasm.Proofs.Lowering.Tame
import Ia32Wasm.Proofs.Wasm.Booleans
import Ia32Wasm.Proofs.X86.Reading

/-!
# Boolean flags

The code of an instruction writes nothing but truth values to the flags.  Most of it does not write flags at all
(`SparesFlags`), since the operands of an instruction name registers and no other globals.  What remains are the
writers of flags: the updates after an arithmetic instruction, the unpacking of a flags word and the two settings of
the direction flag.  Each of these passes the check for boolean globals, and so does the whole
(`Lowering.keepsFlags_instruction`).
-/

namespace Ia32Wasm

open Machine (Flag Slot)
open Wasm (Keeps)
open X86 (Destination Instruction Mnemonic Operand OperandSize ShiftOp)

/-- The global is that of a flag. -/
def isFlag (index : Nat) : Bool := Flag.all.any fun flag => (Slot.flag flag).index == index

/-- The flags are seven consecutive slots. -/
theorem isFlag_eq_true_iff {index : Nat} : isFlag index = true ↔ 8 ≤ index ∧ index < 15 := by
  simp only [isFlag, Flag.all, Slot.index, Flag.index, List.any_cons, List.any_nil, Bool.or_false, Bool.or_eq_true,
    beq_iff_eq]
  omega

private theorem isFlag_eq_false {index : Nat} (h : index < 8 ∨ 15 ≤ index) : isFlag index = false := by
  rw [Bool.eq_false_iff, Ne, isFlag_eq_true_iff]
  omega

namespace Lowering

variable {α β : Type} {i : Instruction}

/-! ### Code that does not write flags -/

/-- The instruction does not write a flag. -/
def SparesFlags : Wasm.Instr Callee → Prop
  | .globalSet index => isFlag index = false
  | _ => True

instance : Plain SparesFlags where
  data {instr} h := by
    cases instr with
    | globalSet index => cases h
    | _ => trivial
  register h := isFlag_eq_false (.inl h)
  result := isFlag_eq_false (.inr (by decide))
  segment h := isFlag_eq_false (.inr (Nat.le_trans (by decide) h))

private theorem operandsAllow_of_numbered {P : Wasm.Instr Callee → Prop} [Plain P]
    (h : ∀ op ∈ i.operands, op.Numbered) :
    OperandsAllow P i := by
  intro op hop
  cases op with
  | register index size direct displacement => exact Plain.register (h _ hop)
  | _ => trivial

/-! ### Composition -/

/-- The code that the lowering emits, with or without an obstacle, writes nothing but truth values to the flags. -/
def KeepsFlags (x : Lowering α) : Prop := Keeps isFlag x.code

private theorem keepsFlags_of_emits {x : Lowering α} (h : Emits SparesFlags x) : KeepsFlags x :=
  Wasm.keeps_of_spares fun index hindex => h (.globalSet index) hindex

private theorem keepsFlags_unsupported : KeepsFlags (unsupported : Lowering α) := rfl

private theorem keepsFlags_bind {x : Lowering α} {f : α → Lowering β} (hx : KeepsFlags x)
    (hf : ∀ a, x.outcome = .ok a → KeepsFlags (f a)) : KeepsFlags (x >>= f) := by
  cases h : x.outcome with
  | error e =>
    rw [KeepsFlags, bind_code_of_error h]
    exact hx
  | ok a =>
    rw [KeepsFlags, bind_code_of_ok h]
    exact Wasm.keeps_append hx (hf a h)

private theorem keepsFlags_emit_append {first second : Code} (hfirst : KeepsFlags (emit first))
    (hsecond : KeepsFlags (emit second)) : KeepsFlags (emit (first ++ second)) :=
  Wasm.keeps_append hfirst hsecond

/-! ### Writers of flags

The code of a writer depends on little else than a width, so the check itself is run on it, once for each width.
-/

private theorem keepsFlags_addFlags (size : OperandSize) (carryIn writesCarry : Bool) :
    KeepsFlags (emit (addFlags size carryIn writesCarry)) := by
  cases size <;> cases carryIn <;> cases writesCarry <;> rfl

private theorem keepsFlags_subFlags (size : OperandSize) (borrowIn writesCarry : Bool) :
    KeepsFlags (emit (subFlags size borrowIn writesCarry)) := by
  cases size <;> cases borrowIn <;> cases writesCarry <;> rfl

private theorem keepsFlags_logicFlags (size : OperandSize) : KeepsFlags (emit (logicFlags size)) := by
  cases size <;> rfl

private theorem keepsFlags_shiftFlags (op : ShiftOp) (size : OperandSize) :
    KeepsFlags (emit (shiftFlags op size)) := by
  cases op <;> cases size <;> rfl

private theorem keepsFlags_multiplyFlags (size : OperandSize) (signed : Bool) :
    KeepsFlags (emit (multiplyFlags size signed)) := by
  cases size <;> cases signed <;> rfl

private theorem keepsFlags_flagsOf {mnemonic : Mnemonic} {flags : OperandSize → Code}
    (h : flagsOf? mnemonic = some flags)
    (size : OperandSize) : KeepsFlags (emit (flags size)) := by
  unfold flagsOf? at h
  split at h <;> cases h
  case h_1 | h_2 | h_3 => exact keepsFlags_addFlags size _ _
  case h_4 | h_5 | h_6 | h_7 | h_8 | h_9 => exact keepsFlags_subFlags size _ _
  case h_10 | h_11 | h_12 | h_13 => exact keepsFlags_logicFlags size
  case h_14 op => exact keepsFlags_shiftFlags op size
  case h_15 signed => exact keepsFlags_multiplyFlags size signed

private theorem keepsFlags_updateFlags (i : Instruction) : KeepsFlags (updateFlags i) := by
  unfold updateFlags
  split
  · exact keepsFlags_of_emits (by simp)
  · rename_i flags hflags
    refine keepsFlags_bind (keepsFlags_of_emits (by simp)) fun first _ => ?_
    refine keepsFlags_bind (keepsFlags_of_emits (by simp)) fun size _ => ?_
    exact keepsFlags_flagsOf hflags size

private theorem keepsFlags_popFlags : KeepsFlags popFlags :=
  keepsFlags_bind (keepsFlags_of_emits (by simp)) fun _ _ => rfl

/-! ### Code with constructs of its own -/

private theorem keepsFlags_divide (signed : Bool) (i : Instruction) : KeepsFlags (divide signed i) := by
  unfold divide
  split
  · refine keepsFlags_bind (keepsFlags_of_emits (by simp)) fun size _ => ?_
    refine keepsFlags_bind (keepsFlags_of_emits (by simp)) fun _ _ => ?_
    refine keepsFlags_bind rfl fun _ _ => ?_
    have hremainder : (remainderRegister size).toNat < 8 := by cases size <;> decide
    have hquotient : ∀ op, Emits SparesFlags (divideInto op size signed 0) :=
      fun op => emits_divideInto op size signed (by decide)
    have hrest : ∀ op, Emits SparesFlags (divideInto op size signed (remainderRegister size)) :=
      fun op => emits_divideInto op size signed hremainder
    exact keepsFlags_of_emits (by simp [hquotient, hrest])
  · exact keepsFlags_unsupported

private theorem keepsFlags_compareExchange (h : OperandsAllow SparesFlags i) : KeepsFlags (compareExchange i) := by
  unfold compareExchange
  split
  · rename_i destination source heq
    have hdestination : Emits SparesFlags (storeOperand destination) := emits_storeOperand_of_mem h (by simp [heq])
    have haccumulator : ∀ size, Emits SparesFlags (storeRegister 0 size) := emits_storeRegister (by decide)
    refine keepsFlags_bind (keepsFlags_of_emits (by simp)) fun size _ => ?_
    refine keepsFlags_bind (keepsFlags_of_emits (by simp)) fun _ _ => ?_
    refine keepsFlags_bind (keepsFlags_of_emits (by simp)) fun _ _ => ?_
    refine keepsFlags_bind (keepsFlags_of_emits (emits_finishResult size (by simp))) fun _ _ => ?_
    refine keepsFlags_bind rfl fun _ _ => ?_
    refine keepsFlags_bind (keepsFlags_of_emits (by simp)) fun _ _ => ?_
    refine keepsFlags_bind (keepsFlags_of_emits hdestination) fun _ _ => ?_
    refine keepsFlags_bind rfl fun _ _ => ?_
    exact keepsFlags_bind (keepsFlags_of_emits (haccumulator size)) fun _ _ => rfl
  · exact keepsFlags_unsupported

private theorem keepsFlags_stringOn (i : Instruction) (destination : Operand) {element : OperandSize → Lowering Unit}
    {moved : Code} (helement : ∀ size, Emits SparesFlags (element size)) (hmoved : Emits SparesFlags (emit moved)) :
    KeepsFlags (stringOn i destination element moved) := by
  have hadvance : Emits SparesFlags (emit (advance .edi)) := emits_advance _
  unfold stringOn
  refine keepsFlags_bind (keepsFlags_of_emits (by simp)) fun size _ => ?_
  refine keepsFlags_bind ?_ fun _ _ => keepsFlags_bind (keepsFlags_of_emits (helement size)) fun _ _ => ?_
  · refine keepsFlags_emit_append (keepsFlags_emit_append (keepsFlags_of_emits (by simp)) ?_) rfl
    split <;> rfl
  · refine keepsFlags_bind (keepsFlags_of_emits (by simp)) fun _ _ => ?_
    refine keepsFlags_emit_append (keepsFlags_of_emits (by simp [hmoved, hadvance])) ?_
    split <;> rfl

private theorem keepsFlags_moveString (i : Instruction) : KeepsFlags (moveString i) := by
  unfold moveString
  split
  · exact keepsFlags_stringOn i _ (by simp) (emits_advance _)
  · exact keepsFlags_unsupported

private theorem keepsFlags_fillString (i : Instruction) : KeepsFlags (fillString i) := by
  unfold fillString
  split
  · exact keepsFlags_stringOn i _ (by simp) (by simp)
  · exact keepsFlags_unsupported

/-! ### Instructions -/

private theorem keepsFlags_computation {x : Lowering Unit} (hallow : OperandsAllow SparesFlags i)
    (h : computation? i = some x) : KeepsFlags x := by
  unfold computation? at h
  split at h <;> cases h
  · exact keepsFlags_of_emits (emits_binary hallow _)
  · exact keepsFlags_of_emits (emits_unary hallow _)
  · exact keepsFlags_of_emits (emits_shift hallow _)
  · exact keepsFlags_of_emits (emits_multiply hallow _)
  · exact keepsFlags_divide _ i
  · exact keepsFlags_of_emits (emits_widen hallow _)
  · exact keepsFlags_of_emits (emits_loadAddress hallow)
  · exact keepsFlags_of_emits (emits_exchange hallow)
  · exact keepsFlags_compareExchange hallow
  · exact keepsFlags_of_emits (emits_push i)
  · exact keepsFlags_of_emits (emits_pop hallow)
  · exact keepsFlags_of_emits (emits_withoutOperands i emits_pushRegisters)
  · exact keepsFlags_of_emits (emits_withoutOperands i emits_popRegisters)
  · exact keepsFlags_of_emits (emits_withoutOperands i emits_pushFlags)
  · unfold withoutOperands
    split
    · exact keepsFlags_popFlags
    · exact keepsFlags_unsupported
  · exact keepsFlags_of_emits (emits_withoutOperands i emits_leaveFrame)
  · exact keepsFlags_of_emits (emits_extendAccumulator i)
  · rfl
  · rfl
  · exact keepsFlags_moveString i
  · exact keepsFlags_fillString i
  · exact keepsFlags_of_emits (emits_storeCondition hallow)
  · exact keepsFlags_of_emits (emits_clearRegisters (by decide))
  · exact keepsFlags_of_emits (emits_clearRegisters (by decide))
  · rfl
  · rfl

private theorem keepsFlags_jumpTo (toLoop : Nat) (destination : Destination) :
    KeepsFlags (emit (jumpTo toLoop destination)) := by
  cases destination <;> rfl

private theorem keepsFlags_guarded {code : Code} (i : Instruction) (h : KeepsFlags (emit code)) :
    KeepsFlags (guarded i code) := by
  refine keepsFlags_bind rfl fun _ _ => keepsFlags_bind (keepsFlags_of_emits (by simp)) fun _ _ => ?_
  exact keepsFlags_emit_append (keepsFlags_emit_append rfl h) rfl

private theorem keepsFlags_resolved (i : Instruction) : KeepsFlags (resolved i) := by
  unfold resolved
  split <;> rfl

private theorem keepsFlags_importedCall (i : Instruction) : KeepsFlags (importedCall i) := by
  unfold importedCall
  split
  · exact keepsFlags_bind (keepsFlags_of_emits (by simp)) fun _ _ => rfl
  · exact keepsFlags_unsupported

private theorem keepsFlags_interrupt (i : Instruction) : KeepsFlags (interrupt i) := by
  unfold interrupt
  split
  · exact keepsFlags_bind (keepsFlags_of_emits (by simp)) fun _ _ => rfl
  · exact keepsFlags_unsupported

private theorem keepsFlags_body (hallow : OperandsAllow SparesFlags i) (chunk : UInt32) (toLoop : Nat) :
    KeepsFlags (body chunk toLoop i) := by
  unfold body
  split
  · exact keepsFlags_bind (keepsFlags_resolved i) fun destination _ => keepsFlags_jumpTo toLoop destination
  · refine keepsFlags_bind (keepsFlags_resolved i) fun destination _ => ?_
    cases destination <;> rfl
  · exact keepsFlags_bind (keepsFlags_resolved i) fun _ _ => keepsFlags_guarded i (keepsFlags_jumpTo _ _)
  · exact keepsFlags_bind (keepsFlags_resolved i) fun _ _ => keepsFlags_guarded i (keepsFlags_jumpTo _ _)
  · exact keepsFlags_importedCall i
  · exact keepsFlags_bind (keepsFlags_importedCall i) fun _ _ => rfl
  · rfl
  · rfl
  · rfl
  · exact keepsFlags_interrupt i
  · exact keepsFlags_guarded i rfl
  · rfl
  · exact keepsFlags_of_emits (emits_move hallow)
  · cases h : computation? i with
    | none => exact keepsFlags_unsupported
    | some x => exact keepsFlags_computation hallow h

/-- The code of an instruction whose operands name registers that there are writes nothing but truth values to the
flags. -/
theorem keepsFlags_instruction (h : ∀ op ∈ i.operands, op.Numbered) (chunk : UInt32) (toLoop : Nat) :
    KeepsFlags (instruction chunk toLoop i) := by
  refine keepsFlags_bind (keepsFlags_of_emits (emits_prologue i)) fun _ _ => ?_
  exact keepsFlags_bind (keepsFlags_body (operandsAllow_of_numbered h) chunk toLoop) fun _ _ =>
    keepsFlags_updateFlags i

end Lowering

end Ia32Wasm
