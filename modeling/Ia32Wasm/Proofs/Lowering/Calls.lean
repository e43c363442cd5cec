import Ia32Wasm.Proofs.Lowering.Control

/-!
# Calls

The code of an instruction calls one function at most.  A transfer of control out of the code of its chunk calls the
function that it goes to, `importedCallee?`; an interrupt, a division and a branch to an address that is only known
when the code runs call a hook, `hook?`; and there is no call for anything else (`calls_instruction`).
-/

namespace Ia32Wasm

open Wasm (Instr)
open X86 (Destination Instruction Operand OperandSize)

/-- The functions that some code calls, in the order of the calls. -/
def Wasm.callees {κ : Type} (code : List (Instr κ)) : List κ :=
  code.filterMap fun
    | .call callee => some callee
    | _ => none

@[simp] theorem Wasm.callees_append {κ : Type} (first second : List (Instr κ)) :
    callees (first ++ second) = callees first ++ callees second :=
  List.filterMap_append

/-- The function that a chunk's module exports, as others import it. -/
def entryImport (chunk : UInt32) : FunctionImport := ⟨Lowering.chunkLibrary chunk, Lowering.entryName⟩

namespace X86.Instruction

/-- The imported function that an instruction of the chunk `chunk` transfers control to: for a call the entry of the
chunk with its destination, for a jump only if that is another chunk, and for a call or jump to an imported function
the one that its symbol names. -/
def importedCallee? (i : Instruction) (chunk : UInt32) : Option FunctionImport :=
  match i.mnemonic with
  | .call =>
    i.destination?.map fun
      | .inside _ => entryImport chunk
      | .across other _ => entryImport other
  | .jump | .jumpIf _ | .jecxz =>
    match i.destination? with
    | some (.across other _) => some (entryImport other)
    | _ => none
  | .importCall | .importJump =>
    match i.operands with
    | .symbol symbol :: _ => (Lowering.splitSymbol? symbol).map fun (library, name) => ⟨library, name⟩
    | _ => none
  | _ => none

/-- The hook that an instruction uses. -/
def hook? (i : Instruction) : Option Hook :=
  match i.mnemonic with
  | .divide _ | .int | .into => some .interrupt
  | .dynamicCall | .dynamicJump => some .indirectDispatch
  | _ => none

/-- What the code of an instruction of the chunk `chunk` calls. -/
def callee? (i : Instruction) (chunk : UInt32) : Option Callee :=
  match i.importedCallee? chunk with
  | some f => some (.imported f)
  | none => i.hook?.map .hook

end X86.Instruction

namespace Lowering

variable {α β : Type} {chunk : UInt32} {toLoop : Nat} {i : Instruction} {called called' : List Callee}

/-- The instruction is no call. -/
def Silent : Instr Callee → Prop
  | .call _ => False
  | _ => True

instance : Plain Silent where
  data {instr} h := by cases instr <;> simp_all [Silent]
  register _ := trivial
  result := trivial
  segment _ := trivial

/-- Unless it meets an obstacle, the lowering emits calls of the given functions. -/
def Calls (x : Lowering α) (called : List Callee) : Prop := ∀ a, x.outcome = .ok a → Wasm.callees x.code = called

/-! ### Composition -/

/-- Silent code calls nothing. -/
theorem callees_of_silent {code : Code} (h : ∀ instr ∈ code, Silent instr) : Wasm.callees code = [] := by
  refine List.filterMap_eq_nil_iff.2 fun instr hinstr => ?_
  have hsilent := h instr hinstr
  cases instr <;> first | rfl | cases hsilent

private theorem calls_of_emits {x : Lowering α} (h : Emits Silent x) : Calls x [] := fun _ _ => callees_of_silent h

private theorem calls_emit {code : Code} (h : Wasm.callees code = called) : Calls (emit code) called := fun _ _ => h

private theorem calls_unsupported : Calls (unsupported : Lowering α) called := fun _ h => nomatch h

private theorem calls_bind {x : Lowering α} {f : α → Lowering β} (hx : Calls x called)
    (hf : ∀ a, x.outcome = .ok a → Calls (f a) called') : Calls (x >>= f) (called ++ called') := by
  intro b hb
  cases ha : x.outcome with
  | error e =>
    rw [bind_outcome_of_error ha] at hb
    cases hb
  | ok a =>
    rw [bind_outcome_of_ok ha] at hb
    rw [bind_code_of_ok ha, Wasm.callees_append, hx a ha, hf a ha b hb]

/-- A lowering without calls in front of another one. -/
private theorem calls_bind_silent {x : Lowering α} {f : α → Lowering β} (hx : Emits Silent x)
    (hf : ∀ a, x.outcome = .ok a → Calls (f a) called) : Calls (x >>= f) called :=
  calls_bind (calls_of_emits hx) hf

/-! ### Computations -/

private theorem operandsAllow_silent (i : Instruction) : OperandsAllow Silent i := by
  intro op _
  cases op <;> trivial

private theorem silent_of_benign {instr : Instr Callee} (h : Benign True instr) : Silent instr := by
  cases instr <;> simp_all [Silent]

private theorem silent_flagsOf {mnemonic : X86.Mnemonic} {flags : OperandSize → Code}
    (h : flagsOf? mnemonic = some flags) (size : OperandSize) : Emits Silent (emit (flags size)) := by
  by_cases hshift : ∃ op, mnemonic = .shift op
  · obtain ⟨op, rfl⟩ := hshift
    cases h
    have hout : Emits Silent (emit (shiftedOut op size)) := emits_mono (fun _ => silent_of_benign) (by simp)
    have hresult : Emits Silent (emit (resultFlags size)) := emits_mono (fun _ => silent_of_benign) (by simp)
    simp [shiftFlags, hout, hresult, Silent]
  · have hcode : Emits (Benign True) (emit (flags size)) := by
      unfold flagsOf? at h
      split at h <;> cases h <;> simp_all
    exact emits_mono (fun _ => silent_of_benign) hcode

private theorem silent_updateFlags (i : Instruction) : Emits Silent (updateFlags i) := by
  unfold updateFlags
  split
  · simp
  · rename_i flags hflags
    simp [silent_flagsOf hflags]

private theorem silent_compareExchange (i : Instruction) : Emits Silent (compareExchange i) := by
  unfold compareExchange
  split
  · rename_i destination source heq
    have hdestination : Emits Silent (storeOperand destination) :=
      emits_storeOperand_of_mem (operandsAllow_silent i) (by simp [heq])
    have haccumulator : ∀ size, Emits Silent (storeRegister 0 size) := emits_storeRegister (by decide)
    have hfinish : ∀ size, Emits Silent (finishResult none size) := fun size => emits_finishResult size (by simp)
    simp [hdestination, haccumulator, hfinish, Silent]
  · simp

private theorem silent_stringOn (i : Instruction) (destination : Operand) {element : OperandSize → Lowering Unit}
    {moved : Code} (helement : ∀ size, Emits Silent (element size)) (hmoved : Emits Silent (emit moved)) :
    Emits Silent (stringOn i destination element moved) := by
  have hadvance : Emits Silent (emit (advance .edi)) := emits_advance _
  have hhead : Emits Silent (emit repeatHead) := by simp [repeatHead, Silent]
  have htail : Emits Silent (emit repeatTail) := by simp [repeatTail, addToGlobal, Silent]
  unfold stringOn
  by_cases hrep : i.prefixes.intersects (.union .rep .repne) = true
  · simp [hrep, helement, hmoved, hadvance, hhead, htail]
  · simp [hrep, helement, hmoved, hadvance]

private theorem silent_moveString (i : Instruction) : Emits Silent (moveString i) := by
  unfold moveString
  split
  · exact silent_stringOn i _ (by simp) (emits_advance _)
  · simp

private theorem silent_fillString (i : Instruction) : Emits Silent (fillString i) := by
  unfold fillString
  split
  · exact silent_stringOn i _ (by simp) (by simp)
  · simp

/-- A division calls the interrupt, once for both of its results. -/
private theorem calls_divide (signed : Bool) (i : Instruction) : Calls (divide signed i) [.hook .interrupt] := by
  unfold divide
  split
  · refine calls_bind_silent (by simp) fun size _ => calls_bind_silent (by simp) fun _ _ => ?_
    have hremainder : (remainderRegister size).toNat < 8 := by cases size <;> decide
    have hquotient : ∀ op, Emits Silent (divideInto op size signed 0) :=
      fun op => emits_divideInto op size signed (by decide)
    have hrest : ∀ op, Emits Silent (divideInto op size signed (remainderRegister size)) :=
      fun op => emits_divideInto op size signed hremainder
    exact calls_bind (calls_emit rfl) fun _ _ => calls_of_emits (by simp [hquotient, hrest])
  · exact calls_unsupported

/-- Of the instructions that neither transfer control nor are plain moves, only divisions call a function. -/
private theorem calls_computation {x : Lowering Unit} (h : computation? i = some x) :
    Calls x (i.hook?.map Callee.hook).toList := by
  have hallow := operandsAllow_silent i
  unfold computation? at h
  unfold X86.Instruction.hook?
  cases hm : i.mnemonic <;> rw [hm] at h <;> cases h
  case divide => exact calls_divide _ i
  case binary op => exact calls_of_emits (emits_binary hallow op)
  case unary op => exact calls_of_emits (emits_unary hallow op)
  case shift op => exact calls_of_emits (emits_shift hallow op)
  case multiply signed => exact calls_of_emits (emits_multiply hallow signed)
  case widen signed => exact calls_of_emits (emits_widen hallow signed)
  case lea => exact calls_of_emits (emits_loadAddress hallow)
  case xchg => exact calls_of_emits (emits_exchange hallow)
  case cmpxchg => exact calls_of_emits (silent_compareExchange i)
  case push => exact calls_of_emits (emits_push i)
  case pop => exact calls_of_emits (emits_pop hallow)
  case pushad => exact calls_of_emits (emits_withoutOperands i emits_pushRegisters)
  case popad => exact calls_of_emits (emits_withoutOperands i emits_popRegisters)
  case pushfd => exact calls_of_emits (emits_withoutOperands i emits_pushFlags)
  case popfd =>
    refine calls_of_emits (emits_withoutOperands i (emits_mono (fun _ => silent_of_benign) emits_popFlags))
  case leave => exact calls_of_emits (emits_withoutOperands i emits_leaveFrame)
  case cdq => exact calls_of_emits (emits_extendAccumulator i)
  case cld => exact calls_emit rfl
  case std => exact calls_emit rfl
  case movs => exact calls_of_emits (silent_moveString i)
  case stos => exact calls_of_emits (silent_fillString i)
  case set => exact calls_of_emits (emits_storeCondition hallow)
  case cpuid => exact calls_of_emits (emits_clearRegisters (by decide))
  case xgetbv => exact calls_of_emits (emits_clearRegisters (by decide))
  case movlpd => exact calls_of_emits (by simp)
  case xorps => exact calls_of_emits (by simp)

/-! ### Transfers of control -/

private theorem calls_guarded {code : Code} (i : Instruction) (h : Wasm.callees code = called) :
    Calls (guarded i code) called := by
  refine calls_bind_silent (by simp [Silent]) fun _ _ => calls_bind_silent (by simp) fun _ _ => calls_emit ?_
  rw [Wasm.callees_append, Wasm.callees_append, h]
  exact List.append_nil called

private theorem calls_interrupt (i : Instruction) : Calls (interrupt i) [.hook .interrupt] := by
  unfold interrupt
  split
  · exact calls_bind_silent (by simp) fun _ _ => calls_emit rfl
  · exact calls_unsupported

private theorem calls_importedCall (hm : i.mnemonic = .importCall ∨ i.mnemonic = .importJump) :
    Calls (importedCall i) (i.callee? chunk).toList := by
  unfold importedCall
  split
  · rename_i symbol rest hoperands
    cases hsplit : splitSymbol? symbol with
    | none => exact fun _ h => nomatch h
    | some parts =>
      have hcallee : i.callee? chunk = some (.imported ⟨parts.1, parts.2⟩) := by
        unfold X86.Instruction.callee? X86.Instruction.importedCallee?
        rcases hm with hm | hm <;> simp [hm, hoperands, hsplit]
      rw [hcallee]
      exact fun _ _ => rfl
  · exact calls_unsupported

private theorem calls_resolved {f : Destination → Lowering Unit}
    (h : ∀ destination, i.destination? = some destination → Calls (f destination) called) :
    Calls (resolved i >>= f) called := by
  unfold resolved
  split
  · rename_i destination hd
    exact h destination hd
  · exact fun _ h => nomatch h

/-- A jump calls a function only to leave its chunk. -/
private theorem callees_jumpTo (hm : i.mnemonic = .jump ∨ (∃ c, i.mnemonic = .jumpIf c) ∨ i.mnemonic = .jecxz)
    {destination : Destination} (hd : i.destination? = some destination) (depth : Nat) :
    Wasm.callees (jumpTo depth destination) = (i.callee? chunk).toList := by
  unfold X86.Instruction.callee? X86.Instruction.importedCallee? X86.Instruction.hook?
  rcases hm with hm | ⟨c, hm⟩ | hm <;> rw [hm] <;> cases destination <;> simp only [hd] <;> rfl

private theorem calls_call (hm : i.mnemonic = .call) {destination : Destination}
    (hd : i.destination? = some destination) :
    Calls (match destination with
      | .inside index => emit (callChunk chunk index)
      | .across other index => emit (callChunk other index)) (i.callee? chunk).toList := by
  unfold X86.Instruction.callee? X86.Instruction.importedCallee?
  rw [hm]
  cases destination <;> simp only [hd] <;> exact calls_emit rfl

/-- The body of an instruction calls the function that it transfers control to, or else the hook that it uses. -/
private theorem calls_body : Calls (body chunk toLoop i) (i.callee? chunk).toList := by
  have hhook : ∀ {x : Lowering Unit}, i.importedCallee? chunk = none → Calls x (i.hook?.map Callee.hook).toList →
      Calls x (i.callee? chunk).toList := by
    intro x hnone hx
    rwa [X86.Instruction.callee?, hnone]
  unfold body
  split
  case h_1 hm => exact calls_resolved fun _ hd => calls_emit (callees_jumpTo (.inl hm) hd _)
  case h_2 hm => exact calls_resolved fun _ hd => calls_call hm hd
  case h_3 c hm => exact calls_resolved fun _ hd => calls_guarded i (callees_jumpTo (.inr (.inl ⟨c, hm⟩)) hd _)
  case h_4 hm => exact calls_resolved fun _ hd => calls_guarded i (callees_jumpTo (.inr (.inr hm)) hd _)
  case h_5 hm => exact calls_importedCall (.inl hm)
  case h_6 hm =>
    rw [← List.append_nil (Option.toList _)]
    exact calls_bind (calls_importedCall (.inr hm)) fun _ _ => calls_emit rfl
  all_goals refine hhook (by simp_all [X86.Instruction.importedCallee?]) ?_
  case h_14 =>
    cases hcomputation : computation? i with
    | none => exact calls_unsupported
    | some x => exact calls_computation hcomputation
  all_goals rename_i hm; rw [X86.Instruction.hook?, hm]
  · exact calls_emit rfl
  · exact calls_emit rfl
  · exact calls_emit rfl
  · exact calls_interrupt i
  · exact calls_guarded i rfl
  · exact calls_of_emits (by simp)
  · exact calls_of_emits (emits_move (operandsAllow_silent i))

/-- The code of an instruction calls the function that it transfers control to, or else the hook that it uses. -/
theorem calls_instruction : Calls (instruction chunk toLoop i) (i.callee? chunk).toList := by
  refine calls_bind_silent (emits_prologue i) fun _ _ => ?_
  rw [← List.append_nil (Option.toList _)]
  exact calls_bind calls_body fun _ _ => calls_of_emits (silent_updateFlags i)

end Lowering

end Ia32Wasm
