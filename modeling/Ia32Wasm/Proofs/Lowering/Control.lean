import Ia32Wasm.Proofs.Lowering.Tame
import Ia32Wasm.Proofs.Wasm.Trace

/-!
# Control flow of instructions

What an instruction means for the order of execution: where control goes when its transfer is taken, on which
condition it is taken, and what is done before.  The code of every instruction has one of two forms, the work of the
instruction followed by its exit, or both of them guarded by the test of the condition (`code_instruction`).
-/

namespace Ia32Wasm

open Machine (Flag Slot)
open Wasm (Completes nest nestStep)
open X86 (Condition Destination Instruction)

/-- Where control goes: to the next instruction, to an instruction of the same chunk, or out of the chunk. -/
inductive Control where
  | next
  | goto (index : UInt32)
  | leave
deriving DecidableEq, Repr

/-- The condition holds for the words of the flags. -/
def X86.Condition.Holds (flags : Flag → UInt32) : Condition → Prop
  | .o => flags .of ≠ 0
  | .no => flags .of = 0
  | .b => flags .cf ≠ 0
  | .ae => flags .cf = 0
  | .e => flags .zf ≠ 0
  | .ne => flags .zf = 0
  | .be => flags .cf ≠ 0 ∨ flags .zf ≠ 0
  | .a => flags .cf = 0 ∧ flags .zf = 0
  | .s => flags .sf ≠ 0
  | .ns => flags .sf = 0
  | .p => flags .pf ≠ 0
  | .np => flags .pf = 0
  | .l => flags .sf ≠ flags .of
  | .ge => flags .sf = flags .of
  | .le => flags .zf ≠ 0 ∨ flags .sf ≠ flags .of
  | .g => flags .zf = 0 ∧ flags .sf = flags .of

namespace X86.Instruction

/-- Where control goes after the instruction when its transfer is taken. -/
def control (i : Instruction) : Control :=
  match i.mnemonic with
  | .jump | .jumpIf _ | .jecxz =>
    match i.destination? with
    | some (.inside index) => .goto index
    | _ => .leave
  | .ret | .dynamicJump | .importJump => .leave
  | _ => .next

/-- The transfer of the instruction is taken with the given words in the globals. -/
def Takes (i : Instruction) (globals : Nat → UInt32) : Prop :=
  match i.mnemonic with
  | .jumpIf c => c.Holds fun flag => globals (Slot.flag flag).index
  | .jecxz => globals Slot.ecx.index = 0
  | _ => True

/-- Control that goes to the next instruction belongs to no jump, return or branch out of the chunk. -/
private theorem mnemonic_of_next {i : Instruction} (h : i.control = .next) :
    i.mnemonic ≠ .jump ∧ (∀ c, i.mnemonic ≠ .jumpIf c) ∧ i.mnemonic ≠ .jecxz ∧ i.mnemonic ≠ .ret ∧
      i.mnemonic ≠ .dynamicJump ∧ i.mnemonic ≠ .importJump := by
  refine ⟨fun hm => ?_, fun c hm => ?_, fun hm => ?_, fun hm => ?_, fun hm => ?_, fun hm => ?_⟩ <;>
    rw [control, hm] at h
  · dsimp only at h
    split at h <;> cases h
  · dsimp only at h
    split at h <;> cases h
  · dsimp only at h
    split at h <;> cases h
  · cases h
  · cases h
  · cases h

end X86.Instruction

namespace Lowering

/-- What an instruction of a chunk does before control goes on. -/
def work (chunk : UInt32) (i : Instruction) : Code :=
  match i.mnemonic with
  | .jump | .jumpIf _ | .jecxz =>
    match i.destination? with
    | some (.across other index) => callChunk other index
    | _ => []
  | .ret => (prologue i).code
  | .dynamicJump => (prologue i).code ++ [callHook .indirectDispatch]
  | .importJump => (importedCall i).code
  | _ => (instruction chunk 0 i).code

/-- The exit of an instruction with `toLoop` constructs open inside the dispatch loop. -/
def exit (toLoop : Nat) : Control → Code
  | .next => []
  | .goto index => [.i32Const index, setSlot .link, .br toLoop]
  | .leave => [.ret]

/-- The test of a conditional transfer. -/
def test? (i : Instruction) : Option Code :=
  match i.mnemonic with
  | .jumpIf c => some (condition c)
  | .jecxz => some [getSlot .ecx, .op .i32Eqz]
  | _ => none

/-- Code that is left out when the value of `test` is zero. -/
def whenSet (test code : Code) : Code := [.block] ++ test ++ [.op .i32Eqz, .brIf 0] ++ code ++ [.close]

/-! ### Forms of code -/

variable {chunk : UInt32} {toLoop : Nat} {i : Instruction}

private theorem code_bind_ok {α β : Type} {x : Lowering α} {f : α → Lowering β} {b : β}
    (h : (x >>= f).outcome = .ok b) :
    ∃ a, x.outcome = .ok a ∧ (f a).outcome = .ok b ∧ (x >>= f).code = x.code ++ (f a).code := by
  cases hx : x.outcome with
  | error e =>
    rw [bind_outcome_of_error hx] at h
    cases h
  | ok a =>
    rw [bind_outcome_of_ok hx] at h
    exact ⟨a, rfl, h, bind_code_of_ok hx⟩

/-- The code of an instruction is its prologue, its body and the change of the flags. -/
theorem code_parts (h : (instruction chunk toLoop i).outcome = .ok ()) :
    (prologue i).outcome = .ok () ∧ (body chunk toLoop i).outcome = .ok () ∧ (updateFlags i).outcome = .ok () ∧
      (instruction chunk toLoop i).code =
      (prologue i).code ++ ((body chunk toLoop i).code ++ (updateFlags i).code) := by
  obtain ⟨_, hprologue, h, hcode⟩ := code_bind_ok h
  obtain ⟨_, hbody, hflags, hcode'⟩ := code_bind_ok h
  exact ⟨hprologue, hbody, hflags, by rw [instruction, hcode, hcode']⟩

/-- The body of an instruction after which the next one comes is tame but for the write of `link` in front of the
call of a chunk. -/
private theorem tame_body {depth : Nat} (h : i.control = .next) :
    Tame (i.mnemonic = .call ∨ OperandsNameLink i) depth (body chunk toLoop i) depth := by
  obtain ⟨hjump, hjumpIf, hjecxz, hret, hdynamic, himport⟩ := X86.Instruction.mnemonic_of_next h
  unfold body
  split
  case h_1 hm => exact absurd hm hjump
  case h_2 hm =>
    refine tame_bind (tame_resolved i) fun destination _ => ?_
    cases destination <;> exact tame_callChunk _ _ (.inl hm)
  case h_3 c hm => exact absurd hm (hjumpIf c)
  case h_4 hm => exact absurd hm hjecxz
  case h_5 => exact tame_importedCall i
  case h_6 hm => exact absurd hm himport
  case h_7 => exact tame_emit (by simp [callHook, SparesLink, setSlot]) (by simp [nestStep, callHook])
  case h_8 hm => exact absurd hm hdynamic
  case h_9 hm => exact absurd hm hret
  case h_10 => exact tame_interrupt i
  case h_11 => exact tame_overflow i
  case h_12 => exact tame_of_emits (by simp)
  case h_13 => exact tame_mono .inr (tame_of_emits (emits_move (operandsAllow_benign i)))
  case h_14 =>
    cases hcomputation : computation? i with
    | none => exact tame_unsupported
    | some x => exact tame_mono .inr (tame_computation hcomputation)

/-- An instruction after which the next one comes is tame as a whole. -/
theorem tame_instruction {depth : Nat} (h : i.control = .next) :
    Tame (i.mnemonic = .call ∨ OperandsNameLink i) depth (instruction chunk toLoop i) depth :=
  tame_bind (tame_of_emits (emits_prologue i)) fun _ _ =>
    tame_bind (tame_body h) fun _ _ => tame_updateFlags i

private theorem instruction_eq_of_next (h : i.control = .next) :
    instruction chunk toLoop i = instruction chunk 0 i := by
  obtain ⟨hjump, hjumpIf, hjecxz, _⟩ := X86.Instruction.mnemonic_of_next h
  have hbody : body chunk toLoop i = body chunk 0 i := by
    unfold body
    split <;> simp_all
  rw [instruction, hbody, instruction]

private theorem work_of_next (h : i.control = .next) : work chunk i = (instruction chunk 0 i).code := by
  obtain ⟨hjump, hjumpIf, hjecxz, hret, hdynamic, himport⟩ := X86.Instruction.mnemonic_of_next h
  unfold work
  split <;> simp_all

/-- An instruction that only goes on tests nothing. -/
theorem test_of_next (h : i.control = .next) : test? i = none := by
  obtain ⟨_, hjumpIf, hjecxz, _⟩ := X86.Instruction.mnemonic_of_next h
  unfold test?
  split <;> simp_all

/-- A jump to its destination is the work of the jump and its exit. -/
private theorem jumpTo_eq (hm : i.mnemonic = .jump ∨ (∃ c, i.mnemonic = .jumpIf c) ∨ i.mnemonic = .jecxz)
    {destination : Destination} (hd : i.destination? = some destination) :
    jumpTo toLoop destination = work chunk i ++ exit toLoop i.control := by
  rcases hm with hm | ⟨c, hm⟩ | hm <;> cases destination <;>
    simp [work, exit, X86.Instruction.control, hm, hd, jumpTo]

private theorem resolved_ok {destination : Destination} (h : (resolved i).outcome = .ok destination) :
    i.destination? = some destination ∧ (resolved i).code = [] := by
  unfold resolved at h ⊢
  split at h
  · rename_i d hd
    cases h
    exact ⟨hd, rfl⟩
  · cases h

private theorem code_guarded (code : Code) {test : Code} (h : testCondition i = emit test) :
    (guarded i code).code = whenSet test code := by
  rw [guarded, h, whenSet]
  simp [bind_code_of_ok (outcome_emit _)]

/-- The code of a jump, with or without a condition. -/
private theorem code_body_jump (hm : i.mnemonic = .jump) (h : (body chunk toLoop i).outcome = .ok ()) :
    (body chunk toLoop i).code = work chunk i ++ exit toLoop i.control := by
  have hbody : body chunk toLoop i = resolved i >>= fun destination => emit (jumpTo toLoop destination) := by
    rw [body, hm]
  rw [hbody] at h ⊢
  obtain ⟨destination, hd, _, hcode⟩ := code_bind_ok h
  obtain ⟨hd, hempty⟩ := resolved_ok hd
  rw [hcode, hempty, code_emit, List.nil_append, jumpTo_eq (.inl hm) hd]

private theorem code_body_conditional (hm : (∃ c, i.mnemonic = .jumpIf c) ∨ i.mnemonic = .jecxz) {test : Code}
    (htest : testCondition i = emit test) (h : (body chunk toLoop i).outcome = .ok ()) :
    (body chunk toLoop i).code = whenSet test (work chunk i ++ exit (toLoop + 1) i.control) := by
  have hbody : body chunk toLoop i =
      resolved i >>= fun destination => guarded i (jumpTo (toLoop + 1) destination) := by
    rcases hm with ⟨c, hm⟩ | hm <;> rw [body, hm]
  rw [hbody] at h ⊢
  obtain ⟨destination, hd, _, hcode⟩ := code_bind_ok h
  obtain ⟨hd, hempty⟩ := resolved_ok hd
  rw [hcode, hempty, code_guarded _ htest, List.nil_append, jumpTo_eq (.inr hm) hd]

private theorem code_updateFlags (h : i.control ≠ .next) : (updateFlags i).code = [] := by
  have hflags : flagsOf? i.mnemonic = none := by
    unfold X86.Instruction.control at h
    split at h <;> simp_all [flagsOf?]
  rw [updateFlags, hflags]
  rfl

/-- The code of an instruction is its work and its exit, under the test of its condition if it has one. -/
theorem code_instruction (h : (instruction chunk toLoop i).outcome = .ok ()) :
    (instruction chunk toLoop i).code =
      match test? i with
      | none => work chunk i ++ exit toLoop i.control
      | some test => whenSet test (work chunk i ++ exit (toLoop + 1) i.control) := by
  by_cases hnext : i.control = .next
  · rw [test_of_next hnext, hnext, work_of_next hnext, instruction_eq_of_next hnext]
    simp [exit]
  · obtain ⟨hprologue, hbody, hflags, hcode⟩ := code_parts h
    rw [hcode, code_updateFlags hnext, List.append_nil]
    cases hm : i.mnemonic with
    | jump =>
      rw [code_body_jump hm hbody]
      simp [prologue, test?, hm]
    | jumpIf c =>
      rw [code_body_conditional (.inl ⟨c, hm⟩) (by rw [testCondition, hm]) hbody]
      simp [prologue, test?, hm]
    | jecxz =>
      rw [code_body_conditional (.inr hm) (by rw [testCondition, hm]) hbody]
      simp [prologue, test?, hm]
    | ret => simp [body, test?, work, exit, X86.Instruction.control, hm]
    | dynamicJump => simp [body, test?, work, exit, X86.Instruction.control, hm]
    | importJump =>
      have hbody' : body chunk toLoop i = importedCall i >>= fun _ => emit [.ret] := by rw [body, hm]
      rw [hbody'] at hbody ⊢
      obtain ⟨_, _, _, hcode⟩ := code_bind_ok hbody
      rw [hcode]
      simp [prologue, test?, work, exit, X86.Instruction.control, hm]
    | _ => exact absurd (by simp [X86.Instruction.control, hm]) hnext

/-- The work of an instruction closes the constructs that it opens. -/
theorem nest_work (h : (instruction chunk toLoop i).outcome = .ok ()) : nest 0 0 (work chunk i) = some 0 := by
  by_cases hnext : i.control = .next
  · rw [work_of_next hnext, ← instruction_eq_of_next hnext]
    exact (tame_instruction hnext).nests () h
  · have hprologue : nest 0 0 (prologue i).code = some 0 :=
      nest_of_benignCode (emits_prologue i : Emits (Benign True) (prologue i)) 0
    have hcall : ∀ chunk index, nest 0 0 (callChunk chunk index) = some 0 := by
      intro chunk index
      simp [callChunk, nestStep, setSlot, callImport]
    cases hm : i.mnemonic with
    | jump | jumpIf | jecxz =>
      rw [work, hm]
      dsimp only
      split
      · exact hcall _ _
      · rfl
    | ret =>
      rw [work, hm]
      exact hprologue
    | dynamicJump =>
      rw [work, hm]
      simp [hprologue, nestStep, callHook]
    | importJump =>
      have hbody : body chunk toLoop i = importedCall i >>= fun _ => emit [.ret] := by rw [body, hm]
      have hok := (code_parts h).2.1
      rw [hbody] at hok
      obtain ⟨_, hcalled, _⟩ := code_bind_ok hok
      rw [work, hm]
      exact (tame_importedCall i : Tame True 0 (importedCall i) 0).nests _ hcalled
    | _ => exact absurd (by simp [X86.Instruction.control, hm]) hnext

/-- The exit of an instruction opens nothing that it does not close. -/
theorem nest_exit {outer depth : Nat} (control : Control) (hlt : toLoop < outer + depth) (houter : outer ≠ 0) :
    nest outer depth (exit toLoop control) = some depth := by
  cases control <;> simp [exit, nestStep, setSlot, hlt, houter]

/-- A test works on values alone and spares `link`. -/
theorem benignCode_test {test : Code} {links : Prop} (h : test? i = some test) : BenignCode links test := by
  unfold test? at h
  split at h <;> cases h <;> simp

/-- All the code of an instruction closes the constructs that it opens. -/
theorem nest_instruction (h : (instruction chunk toLoop i).outcome = .ok ()) (depth : Nat) :
    nest (toLoop + 1) depth (instruction chunk toLoop i).code = some depth := by
  have hwork : ∀ depth, nest (toLoop + 1) depth (work chunk i) = some depth := Wasm.nest_of_zero (nest_work h) _
  rw [code_instruction h]
  cases htest : test? i with
  | none =>
    dsimp only
    rw [Wasm.nest_append, hwork]
    exact nest_exit _ (by omega) (by omega)
  | some test =>
    have hbenign : BenignCode True test := benignCode_test htest
    have hexit : nest (toLoop + 1) (depth + 1) (exit (toLoop + 1) i.control) = some (depth + 1) :=
      nest_exit _ (by omega) (by omega)
    simp +arith [whenSet, nestStep, nest_of_benignCode hbenign, hwork, hexit]

/-! ### Tests -/

private theorem toUInt32_or (p q : Bool) : p.toUInt32 ||| q.toUInt32 = (p || q).toUInt32 := by
  cases p <;> cases q <;> rfl

/-- The code of a condition leaves a value that is zero unless the condition holds, and a truth value if the flags
are. -/
theorem completes_condition {ω : Type} (host : Wasm.Host Callee ω) (c : Condition) (m : Wasm.Machine ω) :
    ∃ v, Completes host (condition c) m (m.push (.i32 v)) ∧
      (v ≠ 0 ↔ c.Holds fun flag => m.store.globals (Slot.flag flag).index) ∧
      ((∀ flag, flag ≠ .df → ∃ b : Bool, m.store.globals (Slot.flag flag).index = b.toUInt32) →
        ∃ b : Bool, v = b.toUInt32) := by
  have hdata : ∀ instr ∈ condition c, instr.isData = true :=
    fun instr hi => isData_of_benign (emits_condition c instr hi : Benign True instr)
  have hcompletes : ∀ {v}, (condition c).foldlM (fun m instr => instr.apply m) m = .ok (m.push (.i32 v)) →
      Completes host (condition c) m (m.push (.i32 v)) := Wasm.completes_of_foldlM hdata
  cases c with
  | o | b | e | s | p => exact ⟨_, hcompletes rfl, Iff.rfl, fun h => h _ (by decide)⟩
  | no | ae | ne | ns | np | a | l | ge | g => exact ⟨_, hcompletes rfl, by simp [Condition.Holds], fun _ => ⟨_, rfl⟩⟩
  | be =>
    refine ⟨_, hcompletes rfl, by simp [Condition.Holds, Decidable.imp_iff_not_or], fun h => ?_⟩
    obtain ⟨cf, hcf⟩ := h .cf nofun
    obtain ⟨zf, hzf⟩ := h .zf nofun
    exact ⟨cf || zf, (congrArg₂ (· ||| ·) hcf hzf).trans (toUInt32_or cf zf)⟩
  | le =>
    refine ⟨_, hcompletes rfl, by simp [Condition.Holds, Decidable.imp_iff_not_or], fun h => ?_⟩
    obtain ⟨zf, hzf⟩ := h .zf nofun
    exact ⟨_, (congrArg (· ||| _) hzf).trans (toUInt32_or zf _)⟩

/-- The test of a conditional transfer leaves a value that is zero unless the transfer is taken. -/
theorem completes_test {ω : Type} (host : Wasm.Host Callee ω) {test : Code} (h : test? i = some test)
    (m : Wasm.Machine ω) :
    ∃ v, Completes host test m (m.push (.i32 v)) ∧ (v ≠ 0 ↔ i.Takes m.store.globals) := by
  cases hm : i.mnemonic with
  | jumpIf c =>
    rw [test?, hm] at h
    cases h
    rw [X86.Instruction.Takes, hm]
    obtain ⟨v, hcompletes, hv, -⟩ := completes_condition host c m
    exact ⟨v, hcompletes, hv⟩
  | jecxz =>
    rw [test?, hm] at h
    cases h
    rw [X86.Instruction.Takes, hm]
    refine ⟨_, Wasm.completes_of_foldlM (by simp [getSlot]) rfl, by simp⟩
  | _ =>
    rw [test?, hm] at h
    cases h

/-- Without a test the exit is always taken. -/
theorem takes_of_test_eq_none (h : test? i = none) (globals : Nat → UInt32) : i.Takes globals := by
  unfold test? at h
  unfold X86.Instruction.Takes
  split at h <;> simp_all

end Lowering

end Ia32Wasm
