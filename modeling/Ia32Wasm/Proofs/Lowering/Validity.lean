import Ia32Wasm.Proofs.Lowering.Emission
import Ia32Wasm.Proofs.Wasm.Validation
import Ia32Wasm.Proofs.X86.Reading
import Mathlib.Logic.Function.Iterate

/-!
# Lowered code is valid

Whatever a lowering emits before it meets an obstacle, if it meets none its code is valid: a load of an operand leaves
one 32-bit value, a store takes one, and the code of an instruction leaves the operand stack as it was.  The registers
that operands name have to be among the globals that there are, which can be more than those of the slots; segment
registers are checked by the lowering itself.

* `Turns` is validity of code that stays inside a construct, `Accepts` that of a lowering.
* Both go through sequences (`Turns.append`, `accepts_bind`); there is one lemma for each lowering.
-/

namespace Ia32Wasm.Lowering

open Machine (Flag Slot)
open Wasm (Context Frame ValueType validate)
open X86 (BinaryOp Condition Instruction Mnemonic Operand OperandSize ShiftOp UnaryOp)

variable {α β : Type} {more : Nat} {f f' f'' : Frame} {before middle after outer : List Frame}

/-- What lowered code can name: its locals, the globals of the slots and `more` others, memory, and functions by what
they are. -/
def context (more : Nat) : Context Callee where
  locals := [.i32, .i32, .i32, .i32, .i64]
  globals := 24 + more
  memories := 1
  callable _ := true

/-- The code leads from the innermost frame `f` to `f'`. -/
def Turns (more : Nat) (code : Code) (f f' : Frame) : Prop :=
  ∀ outer, validate (context more) code (f :: outer) = some (f' :: outer)

/-- The lowering leads from the frames `before` to the frames `after`, unless it meets an obstacle. -/
def Accepts (more : Nat) (x : Lowering α) (before after : List Frame) : Prop :=
  ∀ a, x.outcome = .ok a → validate (context more) x.code before = some after

/-- The register that the operand is, if it is one, has a number among those of the globals. -/
def Named (more : Nat) : Operand → Prop
  | .register index _ _ _ => index.toNat < (context more).globals
  | _ => True

/-! ### Composition -/

theorem turns_nil : Turns more [] f f := fun _ => rfl

/-- What code does to the operand stack in sequence. -/
theorem Turns.append {first second : Code} (h : Turns more first f f') (h' : Turns more second f' f'') :
    Turns more (first ++ second) f f'' := by
  intro outer
  rw [Wasm.validate_append, h outer]
  exact h' outer

theorem Turns.cons {instr : Wasm.Instr Callee} {rest : Code} (h : Turns more [instr] f f')
    (h' : Turns more rest f' f'') : Turns more (instr :: rest) f f'' :=
  Turns.append h h'

theorem accepts_pure (a : α) (frames : List Frame) : Accepts more (pure a) frames frames := fun _ _ => rfl

/-- Given code is accepted if it turns the innermost frame. -/
theorem accepts_emit {code : Code} (h : Turns more code f f') : Accepts more (emit code) (f :: outer) (f' :: outer) :=
  fun _ _ => h outer

/-- Given code is accepted if validation passes it. -/
theorem accepts_emit_of_validate {code : Code} (h : validate (context more) code before = some after) :
    Accepts more (emit code) before after :=
  fun _ _ => h

/-- Lowerings in sequence are accepted one behind the other. -/
theorem accepts_bind {x : Lowering α} {g : α → Lowering β} (hx : Accepts more x before middle)
    (hg : ∀ a, x.outcome = .ok a → Accepts more (g a) middle after) : Accepts more (x >>= g) before after := by
  intro b hb
  cases ha : x.outcome with
  | error e =>
    rw [bind_outcome_of_error ha] at hb
    cases hb
  | ok a =>
    rw [bind_outcome_of_ok ha] at hb
    rw [bind_code_of_ok ha, Wasm.validate_append, hx a ha]
    exact hg a ha b hb

/-- An obstacle is accepted in any frame, since it emits nothing. -/
theorem accepts_unsupported : Accepts more (unsupported : Lowering α) before after := fun _ h => by cases h

theorem accepts_require (o : Option α) (frames : List Frame) : Accepts more (require o) frames frames := by
  cases o with
  | none => exact accepts_unsupported
  | some a => exact accepts_pure a frames

theorem accepts_scalarSize (op : Operand) (frames : List Frame) : Accepts more (scalarSize op) frames frames := by
  unfold scalarSize
  split
  · exact accepts_unsupported
  · exact accepts_unsupported
  · exact accepts_pure _ frames

/-! ### Instructions -/

private theorem le_globals : 24 ≤ (context more).globals := Nat.le_add_right 24 more

/-- Every slot has a global. -/
theorem index_lt (slot : Slot) : slot.index < (context more).globals := by
  refine Nat.lt_of_lt_of_le (?_ : slot.index < 24) le_globals
  cases slot with
  | register i =>
    have := i.isLt
    simp only [Slot.index]
    omega
  | flag flag => cases flag <;> decide
  | segment i =>
    have := i.isLt
    simp only [Slot.index]
    omega
  | _ => decide

private theorem check_globalGet {index : Nat} (h : index < (context more).globals) :
    (Wasm.Instr.globalGet index).check (context more) (f :: outer) = some (f.push .i32 :: outer) := by
  simp [Wasm.Instr.check, Wasm.Instr.effect, h]

private theorem check_globalSet {index : Nat} (h : index < (context more).globals) :
    (Wasm.Instr.globalSet index).check (context more) (f.push .i32 :: outer) = some (f :: outer) := by
  simp [Wasm.Instr.check, Wasm.Instr.effect, h]

@[simp] theorem check_getSlot (slot : Slot) :
    (getSlot slot).check (context more) (f :: outer) = some (f.push .i32 :: outer) :=
  check_globalGet (index_lt slot)

@[simp] theorem check_setSlot (slot : Slot) :
    (setSlot slot).check (context more) (f.push .i32 :: outer) = some (f :: outer) :=
  check_globalSet (index_lt slot)

@[simp] theorem check_getFlag (flag : Flag) :
    (getFlag flag).check (context more) (f :: outer) = some (f.push .i32 :: outer) :=
  check_getSlot _

@[simp] theorem check_call (callee : Callee) :
    (Wasm.Instr.call callee).check (context more) (f :: outer) = some (f :: outer) := rfl

@[simp] theorem check_load (access : Wasm.Access) :
    (Wasm.Instr.load access).check (context more) (f.push .i32 :: outer) = some (f.push .i32 :: outer) := by
  simp [Wasm.Instr.check, Wasm.Instr.effect, context]

@[simp] theorem check_store (access : Wasm.Access) :
    (Wasm.Instr.store access).check (context more) ((f.push .i32).push .i32 :: outer) = some (f :: outer) := by
  simp [Wasm.Instr.check, Wasm.Instr.effect, context]

@[simp] theorem locals_lhs : (context more).locals[Local.lhs]? = some .i32 := rfl

@[simp] theorem locals_rhs : (context more).locals[Local.rhs]? = some .i32 := rfl

@[simp] theorem locals_value : (context more).locals[Local.value]? = some .i32 := rfl

@[simp] theorem locals_tmp : (context more).locals[Local.tmp]? = some .i32 := rfl

@[simp] theorem locals_wide : (context more).locals[Local.wide]? = some .i64 := rfl

theorem turns_localGet {index : Nat} {type : ValueType} (h : (context more).locals[index]? = some type) :
    Turns more [.localGet index] f (f.push type) := by
  intro outer
  simp [h]

theorem turns_localSet {index : Nat} {type : ValueType} (h : (context more).locals[index]? = some type) :
    Turns more [.localSet index] (f.push type) f := by
  intro outer
  simp [h]

/-- An operation takes two operands and leaves a result. -/
theorem turns_op {op : Wasm.Numeric} {first second result : ValueType} (h : op.type = ([second, first], result)) :
    Turns more [.op op] ((f.push first).push second) (f.push result) := by
  intro outer
  rw [Wasm.validate_cons, Wasm.check_op, h]
  simp

/-! ### Fragments -/

theorem turns_maskTo (size : OperandSize) : Turns more (maskTo size) (f.push .i32) (f.push .i32) := by
  unfold maskTo
  split
  · exact turns_nil
  · intro outer
    simp

theorem turns_signExtend (size : OperandSize) : Turns more (signExtend size) (f.push .i32) (f.push .i32) := by
  intro outer
  cases size <;> simp [signExtend]

theorem turns_addToGlobal {index : Nat} (h : index < (context more).globals) (delta : UInt32) :
    Turns more (addToGlobal index delta) f f := by
  intro outer
  simp [addToGlobal, check_globalGet h, check_globalSet h]

private theorem turns_shiftLeft (amount : UInt32) : Turns more (shiftLeft amount) (f.push .i32) (f.push .i32) := by
  unfold shiftLeft
  split
  · exact turns_nil
  · intro outer
    simp

private theorem turns_shiftRight (amount : UInt32) : Turns more (shiftRight amount) (f.push .i32) (f.push .i32) := by
  unfold shiftRight
  split
  · exact turns_nil
  · intro outer
    simp

private theorem turns_insertInto {index : Nat} (h : index < (context more).globals) (size : OperandSize)
    (shift : UInt32) :
    Turns more (insertInto index size shift) (f.push .i32) f := by
  refine ((turns_maskTo size).append (turns_shiftLeft shift)).append fun outer => ?_
  simp [check_globalGet h, check_globalSet h]

private theorem turns_addDisplacement (displacement : Option Int32) :
    Turns more (addDisplacement displacement) (f.push .i32) (f.push .i32) := by
  intro outer
  cases displacement <;> simp [addDisplacement]

/-! ### Addresses -/

private theorem registerGlobal_lt_globals (index : UInt8) : registerGlobal index < (context more).globals :=
  Nat.lt_of_lt_of_le (registerGlobal_lt index) (Nat.le_trans (by decide) le_globals)

private theorem byteGlobal_lt_globals (index : UInt8) : byteGlobal index < (context more).globals :=
  Nat.lt_of_lt_of_le (byteGlobal_lt index) (Nat.le_trans (by decide) le_globals)

private theorem turns_globalGet {index : Nat} (h : index < (context more).globals) :
    Turns more [.globalGet index] f (f.push .i32) := by
  intro outer
  simp [check_globalGet h]

private theorem turns_scaledCode (index scale : UInt8) : Turns more (scaledCode index scale) f (f.push .i32) := by
  refine (turns_globalGet (registerGlobal_lt_globals index)).cons ?_
  split
  · intro outer
    simp
  · exact turns_nil

/-- Terms that leave one value each leave as many as there are terms. -/
private theorem turns_flatten {terms : List Code} (h : ∀ term ∈ terms, ∀ f, Turns more term f (f.push .i32)) :
    Turns more terms.flatten f ((Frame.push · .i32)^[terms.length] f) := by
  induction terms generalizing f with
  | nil => exact turns_nil
  | cons term rest ih =>
    obtain ⟨hterm, hrest⟩ := List.forall_mem_cons.1 h
    exact (hterm f).append (ih hrest)

private theorem turns_additions (count : Nat) :
    Turns more (List.replicate count (.op .i32Add)) ((Frame.push · .i32)^[count + 1] f) (f.push .i32) := by
  induction count with
  | zero => exact turns_nil
  | succ count ih =>
    refine Turns.cons (fun outer => ?_) ih
    rw [Function.iterate_succ_apply', Function.iterate_succ_apply']
    simp

private theorem turns_sumTerms {terms : List Code} (h : ∀ term ∈ terms, ∀ f, Turns more term f (f.push .i32)) :
    Turns more (sumTerms terms) f (f.push .i32) := by
  unfold sumTerms
  cases terms with
  | nil =>
    intro outer
    simp
  | cons term rest => exact (turns_flatten h).append (turns_additions rest.length)

private theorem turns_addressTerms (base index : Option UInt8) (scale : UInt8) (displacement : Option Int32) :
    Turns more (sumTerms (addressTerms base index scale displacement)) f (f.push .i32) := by
  apply turns_sumTerms
  simp only [addressTerms, List.mem_append, Option.mem_toList, Option.map_eq_some_iff]
  rintro term ((⟨b, -, rfl⟩ | ⟨i, -, rfl⟩) | ⟨d, -, rfl⟩) f
  · exact turns_globalGet (registerGlobal_lt_globals b)
  · exact turns_scaledCode i scale
  · intro outer
    simp

private theorem accepts_segmentGlobal (index : UInt8) (frames : List Frame) :
    Accepts more (segmentGlobal index) frames frames := by
  unfold segmentGlobal
  split
  · exact accepts_pure _ frames
  · exact accepts_unsupported

private theorem lt_of_segmentGlobal {index : UInt8} {global : Nat} (h : (segmentGlobal index).outcome = .ok global) :
    global < (context more).globals := by
  unfold segmentGlobal at h
  split at h
  · cases h
    exact index_lt _
  · cases h

private theorem accepts_composedAddress {op : Operand} {x : Lowering Unit} (h : composedAddress? op = some x) :
    Accepts more x (f :: outer) (f.push .i32 :: outer) := by
  unfold composedAddress? at h
  split at h
  · cases h
    exact accepts_emit (turns_addressTerms _ _ _ _)
  · cases h
    refine accepts_bind (accepts_segmentGlobal _ _) fun global hglobal => accepts_emit ?_
    exact (turns_globalGet (lt_of_segmentGlobal hglobal)).cons (turns_addDisplacement _)
  · cases h
    exact accepts_emit fun outer => by simp
  · cases h

/-- An address is a word. -/
theorem accepts_addressOf {op : Operand} (hop : Named more op) :
    Accepts more (addressOf op) (f :: outer) (f.push .i32 :: outer) := by
  unfold addressOf
  split
  · exact accepts_emit ((turns_globalGet hop).cons (turns_addDisplacement _))
  · exact accepts_emit fun outer => by simp
  · cases h : composedAddress? op with
    | none => exact accepts_unsupported
    | some x => exact accepts_composedAddress h

/-! ### Loads and stores -/

theorem accepts_load (size : OperandSize) : Accepts more (load size) (f.push .i32 :: outer) (f.push .i32 :: outer) :=
  accepts_bind (accepts_require _ _) fun _ _ => accepts_emit fun outer => by simp

theorem accepts_store (size : OperandSize) :
    Accepts more (store size) ((f.push .i32).push .i32 :: outer) (f :: outer) :=
  accepts_bind (accepts_require _ _) fun _ _ => accepts_emit fun outer => by simp

private theorem accepts_loadFrom {op : Operand} (hop : Named more op) (size : OperandSize) :
    Accepts more (loadFrom op size) (f :: outer) (f.push .i32 :: outer) :=
  accepts_bind (accepts_addressOf hop) fun _ _ => accepts_load size

private theorem accepts_storeTo {op : Operand} (hop : Named more op) (size : OperandSize) :
    Accepts more (storeTo op size) (f.push .i32 :: outer) (f :: outer) := by
  refine accepts_bind (accepts_emit (turns_localSet locals_value)) fun _ _ => ?_
  refine accepts_bind (accepts_addressOf hop) fun _ _ => ?_
  exact accepts_bind (accepts_emit (turns_localGet locals_value)) fun _ _ => accepts_store size

private theorem accepts_loadComposed {op : Operand} {x : Lowering Unit} (h : loadComposed? op = some x) :
    Accepts more x (f :: outer) (f.push .i32 :: outer) := by
  unfold loadComposed? at h
  split at h
  · cases h
    exact accepts_emit ((turns_globalGet (registerGlobal_lt_globals _)).cons (turns_maskTo _))
  · cases h
    exact accepts_emit
      (((turns_globalGet (byteGlobal_lt_globals _)).cons (turns_shiftRight _)).append (turns_maskTo _))
  · cases h
    refine accepts_bind (accepts_segmentGlobal _ _) fun global hglobal => accepts_emit ?_
    exact turns_globalGet (lt_of_segmentGlobal hglobal)
  · cases h
    exact accepts_loadFrom (by exact trivial) _
  · cases h
    exact accepts_loadFrom (by exact trivial) _
  · cases h
    exact accepts_loadFrom (by exact trivial) _
  · cases h

private theorem accepts_storeComposed {op : Operand} {x : Lowering Unit} (h : storeComposed? op = some x) :
    Accepts more x (f.push .i32 :: outer) (f :: outer) := by
  unfold storeComposed? at h
  split at h
  · cases h
    exact accepts_emit (turns_insertInto (registerGlobal_lt_globals _) _ _)
  · cases h
    exact accepts_emit (turns_insertInto (byteGlobal_lt_globals _) _ _)
  · cases h
    refine accepts_bind (accepts_segmentGlobal _ _) fun global hglobal => accepts_emit ?_
    refine (turns_maskTo _).append fun outer => ?_
    simp [check_globalSet (lt_of_segmentGlobal hglobal)]
  · cases h
    exact accepts_storeTo (by exact trivial) _
  · cases h
    exact accepts_storeTo (by exact trivial) _
  · cases h
    exact accepts_storeTo (by exact trivial) _
  · cases h

/-- To load an operand pushes a word. -/
theorem accepts_loadOperand {op : Operand} (hop : Named more op) :
    Accepts more (loadOperand op) (f :: outer) (f.push .i32 :: outer) := by
  unfold loadOperand
  split
  · exact accepts_emit (turns_globalGet hop)
  · exact accepts_emit fun outer => by simp
  · exact accepts_loadFrom hop _
  · exact accepts_loadFrom hop _
  · cases h : loadComposed? op with
    | none => exact accepts_unsupported
    | some x => exact accepts_loadComposed h

/-- To store to an operand takes a word. -/
theorem accepts_storeOperand {op : Operand} (hop : Named more op) :
    Accepts more (storeOperand op) (f.push .i32 :: outer) (f :: outer) := by
  unfold storeOperand
  split
  · exact accepts_emit fun outer => by simp [check_globalSet hop]
  · exact accepts_storeTo hop _
  · exact accepts_storeTo hop _
  · cases h : storeComposed? op with
    | none => exact accepts_unsupported
    | some x => exact accepts_storeComposed h

/-- Operands with register numbers in range name registers. -/
theorem named_of_numbered {op : Operand} (h : op.Numbered) : Named more op := by
  cases op with
  | register index _ _ _ => exact Nat.lt_of_lt_of_le h (Nat.le_trans (by decide) le_globals)
  | _ => trivial

theorem named_reg {index : UInt8} (h : index.toNat < 8) (size : OperandSize) : Named more (.reg index size) :=
  named_of_numbered (X86.Fetch.numbered_reg size h)

theorem accepts_loadRegister {index : UInt8} (h : index.toNat < 8) (size : OperandSize) :
    Accepts more (loadRegister index size) (f :: outer) (f.push .i32 :: outer) :=
  accepts_loadOperand (named_reg h size)

theorem accepts_storeRegister {index : UInt8} (h : index.toNat < 8) (size : OperandSize) :
    Accepts more (storeRegister index size) (f.push .i32 :: outer) (f :: outer) :=
  accepts_storeOperand (named_reg h size)

theorem accepts_stage {lhs rhs : Operand} (hlhs : Named more lhs) (hrhs : Named more rhs) :
    Accepts more (stage lhs rhs) (f :: outer) (f :: outer) := by
  refine accepts_bind (accepts_loadOperand hlhs) fun _ _ => ?_
  refine accepts_bind (accepts_emit (turns_localSet locals_lhs)) fun _ _ => ?_
  exact accepts_bind (accepts_loadOperand hrhs) fun _ _ => accepts_emit (turns_localSet locals_rhs)

/-! ### Flags -/

theorem turns_setFlag {flag : Flag} {value : Code} (h : Turns more value f (f.push .i32)) :
    Turns more (setFlag flag value) f f :=
  h.append fun outer => by simp

private theorem turns_clearFlag (flag : Flag) : Turns more (clearFlag flag) f f := turns_setFlag fun outer => by simp

theorem turns_bitAt (bit : Nat) : Turns more (bitAt bit) (f.push .i32) (f.push .i32) := by
  have hlast : Turns more [.i32Const 1, .op .i32And] (f.push .i32) (f.push .i32) := fun outer => by simp
  refine Turns.append ?_ hlast
  split
  · exact turns_nil
  · intro outer
    simp

private theorem turns_signOf (size : OperandSize) : Turns more (signOf size) (f.push .i32) (f.push .i32) :=
  turns_bitAt _

private theorem turns_wideSources : Turns more wideSources f ((f.push .i64).push .i64) := by
  intro outer
  simp [wideSources]

private theorem turns_addWideCarry : Turns more addWideCarry (f.push .i64) (f.push .i64) := by
  intro outer
  simp [addWideCarry]

private theorem turns_exceeds (size : OperandSize) : Turns more (exceeds size) (f.push .i64) (f.push .i32) := by
  intro outer
  simp [exceeds]

private theorem turns_resultFlags (size : OperandSize) : Turns more (resultFlags size) f f := by
  have hzero : Turns more [getSlot .t1, .op .i32Eqz] f (f.push .i32) := fun outer => by simp
  have hsign : Turns more (getSlot .t1 :: signOf size) f (f.push .i32) :=
    Turns.cons (fun outer => by simp) (turns_signOf size)
  have hparity : Turns more
      [getSlot .t1, .i32Const 0xff, .op .i32And, .op .i32Popcnt, .i32Const 1, .op .i32And, .op .i32Eqz]
      f (f.push .i32) := fun outer => by simp
  exact ((turns_setFlag hzero).append (turns_setFlag hsign)).append (turns_setFlag hparity)

private theorem turns_auxiliaryFlag : Turns more auxiliaryFlag f f :=
  turns_setFlag (Turns.append (fun outer => by simp) (turns_bitAt 4))

private theorem turns_addFlags (size : OperandSize) (carryIn writesCarry : Bool) :
    Turns more (addFlags size carryIn writesCarry) f f := by
  have hcarry : Turns more (wideSources ++ ([.op .i64Add] : Code) ++ (if carryIn then addWideCarry else []) ++
      exceeds size) f (f.push .i32) := by
    have hsum : Turns more [.op .i64Add] ((f.push .i64).push .i64) (f.push .i64) := fun outer => by simp
    refine ((turns_wideSources.append hsum).append ?_).append (turns_exceeds size)
    split
    · exact turns_addWideCarry
    · exact turns_nil
  refine ((Turns.append ?_ (turns_setFlag ?_)).append turns_auxiliaryFlag).append (turns_resultFlags size)
  · split
    · exact turns_setFlag hcarry
    · exact turns_nil
  · exact Turns.append (fun outer => by simp) (turns_signOf size)

private theorem turns_subFlags (size : OperandSize) (borrowIn writesCarry : Bool) :
    Turns more (subFlags size borrowIn writesCarry) f f := by
  have hborrow : Turns more (if borrowIn then wideSources ++ addWideCarry ++ ([.op .i64LtU] : Code)
      else [.localGet Local.lhs, .localGet Local.rhs, .op .i32LtU]) f (f.push .i32) := by
    split
    · exact (turns_wideSources.append turns_addWideCarry).append fun outer => by simp
    · intro outer
      simp
  refine ((Turns.append ?_ (turns_setFlag ?_)).append turns_auxiliaryFlag).append (turns_resultFlags size)
  · split
    · exact turns_setFlag hborrow
    · exact turns_nil
  · exact Turns.append (fun outer => by simp) (turns_signOf size)

private theorem turns_logicFlags (size : OperandSize) : Turns more (logicFlags size) f f :=
  (((turns_clearFlag .cf).append (turns_clearFlag .of)).append (turns_clearFlag .af)).append (turns_resultFlags size)

private theorem turns_shiftedOut (op : ShiftOp) (size : OperandSize) : Turns more (shiftedOut op size) f f := by
  cases op with
  | shl =>
    have hcarry : Turns more (getSlot .t1 :: signOf size) f (f.push .i32) :=
      Turns.cons (fun outer => by simp) (turns_signOf size)
    exact (turns_setFlag (turns_wideSources.append fun outer => by simp)).append
      (turns_setFlag (hcarry.append fun outer => by simp))
  | shr =>
    exact (turns_setFlag fun outer => by simp).append
      (turns_setFlag (Turns.cons (fun outer => by simp) (turns_signOf size)))
  | sar =>
    have hsource : Turns more (.localGet Local.lhs :: signExtend size) f (f.push .i32) :=
      Turns.cons (fun outer => by simp) (turns_signExtend size)
    exact (turns_setFlag (hsource.append fun outer => by simp)).append (turns_clearFlag .of)

/-- Code in a block that is left at once if the test holds. -/
private theorem validate_skippable {test code : Code}
    (htest : Turns more test (.opened .block) ((Frame.opened .block).push .i32))
    (hcode : validate (context more) code (.opened .block :: f :: outer) = some (f' :: f :: outer))
    (hstack : f'.stack = []) :
    validate (context more) (([.block] : Code) ++ (test ++ (([.brIf 0] : Code) ++ (code ++ ([.close] : Code)))))
      (f :: outer) = some (f :: outer) := by
  have hopen : validate (context more) [.block] (f :: outer) = some (.opened .block :: f :: outer) := by simp
  have hleave : validate (context more) [.brIf 0] ((Frame.opened .block).push .i32 :: f :: outer) =
      some (.opened .block :: f :: outer) := by simp
  have hclose : validate (context more) [.close] (f' :: f :: outer) = some (f :: outer) := by simp [hstack]
  rw [Wasm.validate_append, hopen, Option.bind_some, Wasm.validate_append, htest, Option.bind_some,
    Wasm.validate_append, hleave, Option.bind_some, Wasm.validate_append, hcode, Option.bind_some, hclose]

private theorem turns_shiftFlags (op : ShiftOp) (size : OperandSize) : Turns more (shiftFlags op size) f f := by
  intro outer
  have htest : Turns more [.localGet Local.rhs, .op .i32Eqz] (.opened .block) ((Frame.opened .block).push .i32) :=
    fun outer => by simp
  have hcode : Turns more (shiftedOut op size ++ resultFlags size) (.opened .block) (.opened .block) :=
    (turns_shiftedOut op size).append (turns_resultFlags size)
  have hskip := validate_skippable htest (hcode (f :: outer)) rfl
  rw [shiftFlags]
  simpa only [List.append_assoc, List.cons_append, List.nil_append] using hskip

private theorem turns_multiplyFlags (size : OperandSize) (signed : Bool) :
    Turns more (multiplyFlags size signed) f f := by
  refine (turns_setFlag ((turns_localGet locals_wide).cons ?_)).append (turns_setFlag fun outer => by simp)
  split
  · have hlow : Turns more [.localGet Local.wide, .op .i32WrapI64] (f.push .i64) ((f.push .i64).push .i32) :=
      fun outer => by simp
    exact (hlow.append (turns_signExtend size)).append fun outer => by simp
  · exact turns_exceeds size

private theorem turns_flagsOf {mnemonic : Mnemonic} {flags : OperandSize → Code} (h : flagsOf? mnemonic = some flags)
    (size : OperandSize) : Turns more (flags size) f f := by
  unfold flagsOf? at h
  split at h <;> cases h
  case h_1 | h_2 | h_3 => exact turns_addFlags size _ _
  all_goals first
    | exact turns_subFlags size _ _
    | exact turns_logicFlags size
    | exact turns_shiftFlags _ size
    | exact turns_multiplyFlags size _

/-- The code of the flags leaves the operand stack as it was. -/
theorem accepts_updateFlags (i : Instruction) : Accepts more (updateFlags i) (f :: outer) (f :: outer) := by
  unfold updateFlags
  split
  · exact accepts_pure _ _
  · rename_i flags hflags
    refine accepts_bind (accepts_require _ _) fun first _ => accepts_bind (accepts_scalarSize first _)
      fun size _ => ?_
    exact accepts_emit (turns_flagsOf hflags size)

private theorem turns_condition (c : Condition) : Turns more (condition c) f (f.push .i32) := by
  intro outer
  cases c <;> simp [condition, predicate, Condition.code]

/-- A condition is a word. -/
theorem accepts_testCondition (i : Instruction) :
    Accepts more (testCondition i) (f :: outer) (f.push .i32 :: outer) := by
  unfold testCondition
  split
  · exact accepts_emit (turns_condition _)
  · exact accepts_emit (turns_condition _)
  · exact accepts_emit (turns_condition _)
  · exact accepts_emit fun outer => by simp
  · exact accepts_unsupported

end Ia32Wasm.Lowering
