import Ia32Wasm.Proofs.Lowering.Emission

/-!
# Tame lowerings

A lowering is tame when its code can stand anywhere: the constructs that it opens it also closes, its branches stay
inside them, and it does not write `link`.  All that an instruction does besides transfers of control is tame, also
where it tests, repeats or calls.
-/

namespace Ia32Wasm.Lowering

open Machine (Slot)
open Wasm (nest nestStep)
open X86 (Instruction Operand OperandSize ShiftOp)

variable {α β : Type} {links : Prop} {depth depth' depth'' : Nat}

/-- The instruction writes `link` only where `links` allows that. -/
def SparesLink (links : Prop) (instr : Wasm.Instr Callee) : Prop := instr = setSlot .link → links

/-- With `depth` constructs open before it, the lowering leaves `depth'` open unless it meets an obstacle, and it
writes `link` only where `links` allows that. -/
structure Tame (links : Prop) (depth : Nat) (x : Lowering α) (depth' : Nat) : Prop where
  spares : Emits (SparesLink links) x
  nests : ∀ a, x.outcome = .ok a → nest 0 depth x.code = some depth'

/-! ### Composition -/

private theorem sparesLink_of_benign {instr : Wasm.Instr Callee} (h : Benign links instr) :
    SparesLink links instr := by
  rintro rfl
  exact h rfl

theorem isData_of_benign {instr : Wasm.Instr Callee} (h : Benign links instr) : instr.isData = true := by
  cases instr <;> simp_all

private theorem nestStep_of_benign {instr : Wasm.Instr Callee} (outer : Nat) (h : Benign links instr) :
    nestStep outer depth instr = some depth := by
  cases instr <;> simp_all [nestStep]

/-- Code that works on values alone opens and closes nothing. -/
theorem nest_of_benignCode {code : Code} (h : BenignCode links code) (outer : Nat) :
    nest outer depth code = some depth := by
  induction code with
  | nil => rfl
  | cons instr code ih =>
    rw [benignCode_iff, emits_emit_cons_iff] at h
    rw [Wasm.nest_cons, nestStep_of_benign outer h.1]
    exact ih h.2

/-- A lowering that emits code on values alone is tame. -/
theorem tame_of_emits {x : Lowering α} (h : Emits (Benign links) x) : Tame links depth x depth where
  spares := emits_mono (fun _ => sparesLink_of_benign) h
  nests _ _ := nest_of_benignCode h 0

/-- Tame lowerings in sequence are tame, with the depth passed on. -/
theorem tame_bind {x : Lowering α} {f : α → Lowering β} (hx : Tame links depth x depth')
    (hf : ∀ a, x.outcome = .ok a → Tame links depth' (f a) depth'') : Tame links depth (x >>= f) depth'' where
  spares := emits_bind_iff.2 ⟨hx.spares, fun a ha => (hf a ha).spares⟩
  nests b hb := by
    cases ha : x.outcome with
    | error e =>
      rw [bind_outcome_of_error ha] at hb
      cases hb
    | ok a =>
      rw [bind_outcome_of_ok ha] at hb
      rw [bind_code_of_ok ha, Wasm.nest_append, hx.nests a ha]
      exact (hf a ha).nests b hb

/-- Given code is tame if it nests and spares `link`. -/
theorem tame_emit {code : Code} (hspares : ∀ instr ∈ code, SparesLink links instr)
    (hnest : nest 0 depth code = some depth') : Tame links depth (emit code) depth' where
  spares := hspares
  nests _ _ := hnest

/-- A tame lowering stays so where `link` may be written more often. -/
theorem tame_mono {links' : Prop} {x : Lowering α} (hlinks : links → links') (h : Tame links depth x depth') :
    Tame links' depth x depth' where
  spares := emits_mono (fun _ hspares heq => hlinks (hspares heq)) h.spares
  nests := h.nests

/-- An obstacle is tame at any depth, since no code follows. -/
theorem tame_unsupported : Tame links depth (unsupported : Lowering α) depth' where
  spares := emits_unsupported
  nests a ha := by cases ha

private theorem tame_emit_append {first second : Code} (hfirst : Tame links depth (emit first) depth')
    (hsecond : Tame links depth' (emit second) depth'') : Tame links depth (emit (first ++ second)) depth'' :=
  tame_bind hfirst fun _ _ => hsecond

/-! ### Code with constructs of its own -/

private theorem tame_data {code : Code} (h : BenignCode links code) : Tame links depth (emit code) depth :=
  tame_of_emits h

private theorem tame_shiftFlags (op : ShiftOp) (size : OperandSize) :
    Tame links depth (emit (shiftFlags op size)) depth := by
  have hhead : Tame links depth (emit [.block, .localGet Local.rhs, .op .i32Eqz, .brIf 0]) (depth + 1) :=
    tame_emit (by simp [SparesLink, setSlot]) (by simp [nestStep])
  have htail : Tame links (depth + 1) (emit [.close]) depth :=
    tame_emit (by simp [SparesLink, setSlot]) (by simp [nestStep])
  have hshifted : Tame links (depth + 1) (emit (shiftedOut op size)) (depth + 1) := tame_data (by simp)
  have hresult : Tame links (depth + 1) (emit (resultFlags size)) (depth + 1) := tame_data (by simp)
  exact tame_emit_append (tame_emit_append (tame_emit_append hhead hshifted) hresult) htail

private theorem tame_checkDivisor : Tame links depth (emit (.localSet Local.rhs :: checkDivisor)) depth :=
  tame_emit (by simp [checkDivisor, SparesLink, setSlot, callHook, Slot.index])
    (by simp [checkDivisor, nestStep, setSlot, callHook])

private theorem tame_divide (signed : Bool) (i : Instruction) : Tame links depth (divide signed i) depth := by
  unfold divide
  split
  · rename_i divisor heq
    refine tame_bind (tame_of_emits (by simp)) fun size _ => ?_
    refine tame_bind (tame_of_emits (by simp)) fun _ _ => ?_
    refine tame_bind tame_checkDivisor fun _ _ => ?_
    have hremainder : (remainderRegister size).toNat < 8 := by cases size <;> decide
    have hquotient : ∀ op, Emits (Benign links) (divideInto op size signed 0) :=
      fun op => emits_divideInto op size signed (by decide)
    have hrest : ∀ op, Emits (Benign links) (divideInto op size signed (remainderRegister size)) :=
      fun op => emits_divideInto op size signed hremainder
    exact tame_of_emits (by simp [hquotient, hrest])
  · exact tame_unsupported

private theorem tame_compareExchange (i : Instruction) :
    Tame (OperandsNameLink i) depth (compareExchange i) depth := by
  unfold compareExchange
  split
  · rename_i destination source heq
    have hdestination : Allows (Benign (OperandsNameLink i)) destination := operandsAllow_benign i _ (by simp [heq])
    have haccumulator : ∀ size, Emits (Benign (OperandsNameLink i)) (storeRegister 0 size) :=
      emits_storeRegister (by decide)
    refine tame_bind (tame_of_emits (by simp)) fun size _ => ?_
    refine tame_bind (tame_of_emits (by simp)) fun _ _ => ?_
    refine tame_bind (tame_of_emits (by simp)) fun _ _ => ?_
    refine tame_bind (tame_of_emits (emits_finishResult size (by simp))) fun _ _ => ?_
    have hthen : Tame (OperandsNameLink i) depth
        (emit [.localGet Local.lhs, .localGet Local.rhs, .op .i32Eq, .ifThen]) (depth + 1) :=
      tame_emit (by simp [SparesLink, setSlot]) (by simp [nestStep])
    have helse : Tame (OperandsNameLink i) (depth + 1) (emit [.orElse, .localGet Local.rhs]) (depth + 1) :=
      tame_emit (by simp [SparesLink, setSlot]) (by simp [nestStep])
    have hclose : Tame (OperandsNameLink i) (depth + 1) (emit [.close]) depth :=
      tame_emit (by simp [SparesLink, setSlot]) (by simp [nestStep])
    refine tame_bind hthen fun _ _ => ?_
    refine tame_bind (tame_of_emits (by simp)) fun _ _ => ?_
    refine tame_bind (tame_of_emits (emits_storeOperand hdestination)) fun _ _ => ?_
    refine tame_bind helse fun _ _ => ?_
    exact tame_bind (tame_of_emits (haccumulator size)) fun _ _ => hclose
  · exact tame_unsupported

/-- The loop of a string instruction stands inside a block, and so it never leads back to the first instruction. -/
private theorem tame_stringOn (i : Instruction) (destination : Operand) {element : OperandSize → Lowering Unit}
    {moved : Code} (helement : ∀ size, Emits (Benign links) (element size))
    (hmoved : Emits (Benign links) (emit moved)) :
    Tame links depth (stringOn i destination element moved) depth := by
  have hhead : Tame links depth (emit repeatHead) (depth + 2) :=
    tame_emit (by simp [repeatHead, SparesLink, setSlot, getSlot]) (by simp [repeatHead, nestStep, getSlot])
  have htail : Tame links (depth + 2) (emit repeatTail) depth :=
    tame_emit (by simp [repeatTail, addToGlobal, SparesLink, setSlot, Slot.ecx, Slot.index])
      (by simp [repeatTail, addToGlobal, nestStep])
  have hadvance : Emits (Benign links) (emit (advance .edi)) := emits_advance _
  unfold stringOn
  refine tame_bind (tame_of_emits (by simp)) fun size _ => ?_
  by_cases hrep : i.prefixes.intersects (.union .rep .repne) = true
  · simp only [hrep, if_true]
    refine tame_bind (tame_emit_append (tame_emit_append (tame_data (by simp)) hhead) (tame_data (by simp)))
      fun _ _ => ?_
    refine tame_bind (tame_of_emits (helement size)) fun _ _ => ?_
    refine tame_bind (tame_of_emits (by simp)) fun _ _ => ?_
    exact tame_emit_append (tame_data (by simp [hmoved, hadvance])) htail
  · exact tame_of_emits (by simp [hrep, helement, hmoved, hadvance])

private theorem tame_moveString (i : Instruction) : Tame links depth (moveString i) depth := by
  unfold moveString
  split
  · exact tame_stringOn i _ (by simp) (emits_advance _)
  · exact tame_unsupported

private theorem tame_fillString (i : Instruction) : Tame links depth (fillString i) depth := by
  unfold fillString
  split
  · exact tame_stringOn i _ (by simp) (by simp)
  · exact tame_unsupported

/-! ### Instructions -/

/-- The body of an instruction that neither transfers control nor is a plain move is tame. -/
theorem tame_computation {i : Instruction} {x : Lowering Unit} (h : computation? i = some x) :
    Tame (OperandsNameLink i) depth x depth := by
  have hallow := operandsAllow_benign i
  unfold computation? at h
  split at h <;> cases h
  · exact tame_of_emits (emits_binary hallow _)
  · exact tame_of_emits (emits_unary hallow _)
  · exact tame_of_emits (emits_shift hallow _)
  · exact tame_of_emits (emits_multiply hallow _)
  · exact tame_divide _ i
  · exact tame_of_emits (emits_widen hallow _)
  · exact tame_of_emits (emits_loadAddress hallow)
  · exact tame_of_emits (emits_exchange hallow)
  · exact tame_compareExchange i
  · exact tame_of_emits (emits_push i)
  · exact tame_of_emits (emits_pop hallow)
  · exact tame_of_emits (emits_withoutOperands i emits_pushRegisters)
  · exact tame_of_emits (emits_withoutOperands i emits_popRegisters)
  · exact tame_of_emits (emits_withoutOperands i emits_pushFlags)
  · exact tame_of_emits (emits_withoutOperands i emits_popFlags)
  · exact tame_of_emits (emits_withoutOperands i emits_leaveFrame)
  · exact tame_of_emits (emits_extendAccumulator i)
  · exact tame_of_emits (by simp)
  · exact tame_of_emits (by simp)
  · exact tame_moveString i
  · exact tame_fillString i
  · exact tame_of_emits (emits_storeCondition hallow)
  · exact tame_of_emits (emits_clearRegisters (by decide))
  · exact tame_of_emits (emits_clearRegisters (by decide))
  · exact tame_of_emits (by simp)
  · exact tame_of_emits (by simp)

/-- The prologue of an instruction is plain. -/
theorem emits_prologue {P : Wasm.Instr Callee → Prop} [Plain P] (i : Instruction) : Emits P (prologue i) := by
  unfold prologue
  split
  · simp
  · simp
  · split <;> simp
  · split <;> simp
  · split <;> simp
  · simp

private theorem tame_flagsOf {mnemonic : X86.Mnemonic} {flags : OperandSize → Code}
    (h : flagsOf? mnemonic = some flags) (size : OperandSize) : Tame links depth (emit (flags size)) depth := by
  by_cases hshift : ∃ op, mnemonic = .shift op
  · obtain ⟨op, rfl⟩ := hshift
    cases h
    exact tame_shiftFlags op size
  · have hcode : BenignCode links (flags size) := by
      unfold flagsOf? at h
      split at h <;> cases h <;> simp_all
    exact tame_data hcode

theorem tame_updateFlags (i : Instruction) : Tame links depth (updateFlags i) depth := by
  unfold updateFlags
  split
  · exact tame_of_emits (by simp)
  · rename_i flags hflags
    refine tame_bind (tame_of_emits (by simp)) fun first _ => tame_bind (tame_of_emits (by simp)) fun size _ => ?_
    exact tame_flagsOf hflags size

private theorem tame_guarded {code : Code} (i : Instruction) (h : Tame links (depth + 1) (emit code) (depth + 1)) :
    Tame links depth (guarded i code) depth := by
  have hopen : Tame links depth (emit [.block]) (depth + 1) :=
    tame_emit (by simp [SparesLink, setSlot]) (by simp [nestStep])
  have htest : Tame links (depth + 1) (emit [.op .i32Eqz, .brIf 0]) (depth + 1) :=
    tame_emit (by simp [SparesLink, setSlot]) (by simp [nestStep])
  have hclose : Tame links (depth + 1) (emit [.close]) depth :=
    tame_emit (by simp [SparesLink, setSlot]) (by simp [nestStep])
  refine tame_bind hopen fun _ _ => tame_bind (tame_of_emits (by simp)) fun _ _ => ?_
  exact tame_emit_append (tame_emit_append htest h) hclose

private theorem tame_raise : Tame links depth (emit [setSlot .t1, callHook .interrupt]) depth :=
  tame_emit (by simp [SparesLink, setSlot, callHook, Slot.index]) (by simp [nestStep, setSlot, callHook])

theorem tame_interrupt (i : Instruction) : Tame links depth (interrupt i) depth := by
  unfold interrupt
  split
  · exact tame_bind (tame_of_emits (by simp)) fun _ _ => tame_raise
  · exact tame_unsupported

theorem tame_overflow (i : Instruction) :
    Tame links depth (guarded i [.i32Const 4, setSlot .t1, callHook .interrupt]) depth :=
  tame_guarded i (tame_emit_append (tame_data (by simp : BenignCode links [.i32Const 4])) tame_raise)

theorem tame_importedCall (i : Instruction) : Tame links depth (importedCall i) depth := by
  unfold importedCall
  split
  · exact tame_bind (tame_of_emits (by simp)) fun _ _ =>
      tame_emit (by simp [callImport, SparesLink, setSlot]) (by simp [nestStep, callImport])
  · exact tame_unsupported

theorem tame_resolved (i : Instruction) : Tame links depth (resolved i) depth := by
  unfold resolved
  split
  · exact tame_of_emits (by simp)
  · exact ⟨by simp [Emits], fun a ha => by cases ha⟩

/-- A call of a chunk writes `link`, so that has to be allowed. -/
theorem tame_callChunk (chunk index : UInt32) (h : links) : Tame links depth (emit (callChunk chunk index)) depth :=
  tame_emit (fun _ _ _ => h) (by simp [callChunk, nestStep, setSlot, callImport])

end Ia32Wasm.Lowering
