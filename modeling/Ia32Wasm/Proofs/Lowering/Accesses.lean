import Ia32Wasm.Proofs.Lowering.Results
import Ia32Wasm.Proofs.Wasm.Accesses

/-!
# Accesses of instructions

The code of an instruction accesses memory where an operand is memory and, when the instruction pushes or pops, at the
stack pointer.

* `Guards A x` says that `A` holds for every access of the code of a lowering.  Operands that are memory are accessed
  at their addresses (`guards_loadOperand`, `guards_storeOperand`), and there is one lemma for each lowering.
* `Follows` is the rule for the accesses of an instruction, and its code follows it (`guards_instruction`).
-/

namespace Ia32Wasm

open Machine (Slot)
open Wasm (Guarded MemoryAccess Probe Straight)
open X86 (BinaryOp Instruction Mnemonic Operand OperandSize ShiftOp UnaryOp)

/-- The operation accesses memory at its operands when they are memory.  A branch does so after its target has been
resolved. -/
def X86.Mnemonic.takesMemory : Mnemonic → Bool
  | .binary _ | .unary _ | .shift _ | .multiply _ | .divide _ | .mov | .widen _ | .lea | .xchg | .cmpxchg | .push
  | .pop | .set _ | .dynamicJump | .dynamicCall => true
  | _ => false

/-- The operation stores to the stack, or loads from it. -/
def X86.Mnemonic.usesStack : Mnemonic → (isStore : Bool) → Bool
  | .push, true | .dynamicCall, true | .pop, false => true
  | _, _ => false

namespace Lowering

variable {ω α β : Type} {A : Wasm.Store ω → MemoryAccess → Prop} {i : Instruction} {op lhs rhs : Operand}
  {size : OperandSize} {code : Code}

/-! ### Composition -/

/-- The code of the lowering is guarded, with or without an obstacle. -/
def Guards (A : Wasm.Store ω → MemoryAccess → Prop) (x : Lowering α) : Prop := Guarded A x.code

private theorem guards_bind {x : Lowering α} {f : α → Lowering β} (hx : Guards A x)
    (hf : ∀ a, x.outcome = .ok a → Guards A (f a)) : Guards A (x >>= f) := by
  unfold Guards
  cases houtcome : x.outcome with
  | error e =>
    rw [bind_code_of_error houtcome]
    exact hx
  | ok a =>
    rw [bind_code_of_ok houtcome]
    exact Wasm.guarded_append hx (hf a houtcome)

private theorem guards_pure (a : α) : Guards A (pure a : Lowering α) := .nil

private theorem guards_unsupported : Guards A (unsupported : Lowering α) := .nil

private theorem guards_emit (h : (code.all fun instr => !instr.isAccess) = true) : Guards A (emit code) :=
  Wasm.guarded_of_all h

private theorem guards_scalarSize (op : Operand) : Guards A (scalarSize op) := by
  unfold scalarSize
  split <;> exact .nil

/-! ### Operands -/

private theorem straight_addDisplacement (displacement : Option Int32) : Straight (addDisplacement displacement) := by
  cases displacement <;> simp [Straight, addDisplacement, Wasm.Instr.isAccess]

private theorem straight_scaledCode (index scale : UInt8) : Straight (scaledCode index scale) := by
  unfold scaledCode
  split <;> simp [Straight, Wasm.Instr.isAccess]

private theorem straight_sumTerms {terms : List Code} (h : ∀ term ∈ terms, Straight term) :
    Straight (sumTerms terms) := by
  unfold sumTerms
  split
  · simp [Straight, Wasm.Instr.isAccess]
  · intro instr hinstr
    rcases List.mem_append.1 hinstr with hinstr | hinstr
    · obtain ⟨term, hterm, hinstr⟩ := List.mem_flatten.1 hinstr
      exact h term hterm instr hinstr
    · rw [List.eq_of_mem_replicate hinstr]
      exact ⟨rfl, rfl⟩

private theorem straight_addressOf (op : Operand) : Straight (addressOf op).code := by
  have hnil : Straight ([] : Code) := fun instr hinstr => absurd hinstr List.not_mem_nil
  have hcons : ∀ {instr : Wasm.Instr Callee} {code : Code}, instr.isData = true → instr.isAccess = false →
    Straight code →
      Straight (instr :: code) := fun hdata haccess hcode => List.forall_mem_cons.2 ⟨⟨hdata, haccess⟩, hcode⟩
  cases op with
  | register index size indirect displacement =>
    cases indirect with
    | false => exact hnil
    | true => exact hcons rfl rfl (straight_addDisplacement displacement)
  | immediate value size indirect displacement =>
    cases indirect with
    | false => exact hnil
    | true => exact hcons rfl rfl hnil
  | scaledIndex base index scale displacement size indirect =>
    refine straight_sumTerms ?_
    simp only [addressTerms, List.mem_append, Option.mem_toList, Option.map_eq_some_iff]
    rintro term ((⟨b, -, rfl⟩ | ⟨i, -, rfl⟩) | ⟨d, -, rfl⟩)
    · exact hcons rfl rfl hnil
    · exact straight_scaledCode i scale
    · exact hcons rfl rfl hnil
  | segment index size indirect displacement =>
    cases indirect with
    | false => exact hnil
    | true =>
      show Straight (segmentGlobal index >>= _).code
      unfold segmentGlobal
      split
      · exact hcons rfl rfl (straight_addDisplacement displacement)
      · exact hnil
  | offset value size => exact hcons rfl rfl hnil
  | symbol name => exact hnil

/-- Memory is loaded from the address of the operand. -/
private theorem probe_load (h : op.Readable size) (hmemory : op.isMemory = true) (hA : ∀ s, A s ⟨false, op.address s⟩)
    (access : Wasm.Access) : Probe A (addressOf op).code (.load access) := by
  refine ⟨straight_addressOf op, fun m => ⟨_, (exec_addressOf h hmemory m).2, fun x hx => ?_⟩⟩
  cases hx
  exact hA m.store

/-- Memory is stored to at the address of the operand. -/
private theorem probe_store (h : op.Readable size) (hmemory : op.isMemory = true) (hA : ∀ s, A s ⟨true, op.address s⟩)
    (access : Wasm.Access) : Probe A ((addressOf op).code ++ [.localGet Local.value]) (.store access) := by
  refine ⟨?_, fun m => ⟨_, (Wasm.exec_append (exec_addressOf h hmemory m).2).trans rfl, fun x hx => ?_⟩⟩
  · intro instr hinstr
    rcases List.mem_append.1 hinstr with hinstr | hinstr
    · exact straight_addressOf op instr hinstr
    · rw [List.mem_singleton.1 hinstr]
      exact ⟨rfl, rfl⟩
  · cases hx
    exact hA m.store

/-- What is memory and can be read is loaded and stored through its address. -/
theorem cases_of_isMemory (h : op.Readable size) (hmemory : op.isMemory = true) :
    (addressOf op).outcome = .ok () ∧ ∃ access, loadOperand op = (do addressOf op; emit [.load access]) ∧
      storeOperand op = (do
        emit [.localSet Local.value]; addressOf op; emit [.localGet Local.value, .store access]) := by
  rcases h.isValue with hplace | ⟨value, size', rfl, -⟩
  · obtain ⟨size', hscalar, -, ⟨index, displacement, rfl⟩ | ⟨-, haddress, hload, hstore⟩⟩ := isPlace_cases hplace
    · cases hmemory
    · rw [hload, hstore]
      refine ⟨haddress, ?_⟩
      cases size' with
      | bits8 => exact ⟨.byte, rfl, rfl⟩
      | bits16 => exact ⟨.half, rfl, rfl⟩
      | bits32 => exact ⟨.word, rfl, rfl⟩
      | bits128 => exact absurd rfl hscalar
  · cases hmemory

/-- What is no memory is read and written without an access. -/
private theorem all_of_not_isMemory (h : op.isMemory = false) :
    ((loadOperand op).code.all fun instr => !instr.isAccess) = true ∧
      ((storeOperand op).code.all fun instr => !instr.isAccess) = true := by
  cases op with
  | register index size indirect displacement =>
    cases h
    cases size with
    | bits8 =>
      show List.all (.globalGet (byteGlobal index) :: shiftRight (byteShift index) ++ maskTo .bits8) _ = true ∧
        List.all (insertInto (byteGlobal index) .bits8 (byteShift index)) _ = true
      unfold byteShift
      split <;> exact ⟨rfl, rfl⟩
    | _ => exact ⟨rfl, rfl⟩
  | segment index size indirect displacement =>
    cases h
    show (segmentGlobal index >>= _).code.all _ = true ∧ (segmentGlobal index >>= _).code.all _ = true
    unfold segmentGlobal
    split <;> exact ⟨rfl, rfl⟩
  | immediate value size indirect displacement => cases h; exact ⟨rfl, rfl⟩
  | scaledIndex base index scale displacement size indirect => cases h; exact ⟨rfl, rfl⟩
  | offset value size => cases h
  | symbol name => exact ⟨rfl, rfl⟩

/-- To load an operand is to access memory at its address, if at all. -/
theorem guards_loadOperand (h : op.isMemory = true → (∃ size, op.Readable size) ∧ ∀ s, A s ⟨false, op.address s⟩) :
    Guards A (loadOperand op) := by
  cases hmemory : op.isMemory with
  | false => exact Wasm.guarded_of_all (all_of_not_isMemory hmemory).1
  | true =>
    obtain ⟨⟨size, hreadable⟩, hA⟩ := h hmemory
    obtain ⟨haddress, access, hload, -⟩ := cases_of_isMemory hreadable hmemory
    rw [hload, Guards, bind_code_of_ok haddress]
    exact .probe (probe_load hreadable hmemory hA access) .nil

/-- To store to an operand is to access memory at its address, if at all. -/
theorem guards_storeOperand (h : op.isMemory = true → (∃ size, op.Readable size) ∧ ∀ s, A s ⟨true, op.address s⟩) :
    Guards A (storeOperand op) := by
  cases hmemory : op.isMemory with
  | false => exact Wasm.guarded_of_all (all_of_not_isMemory hmemory).2
  | true =>
    obtain ⟨⟨size, hreadable⟩, hA⟩ := h hmemory
    obtain ⟨haddress, access, -, hstore⟩ := cases_of_isMemory hreadable hmemory
    have hprobe : Guarded A (((addressOf op).code ++ [.localGet Local.value]) ++ .store access :: []) :=
      .probe (probe_store hreadable hmemory hA access) .nil
    rw [hstore]
    refine guards_bind (guards_emit rfl) fun _ _ => ?_
    rw [Guards, bind_code_of_ok haddress]
    rwa [List.append_assoc] at hprobe

private theorem guards_loadRegister (index : UInt8) (size : OperandSize) : Guards A (loadRegister index size) :=
  guards_loadOperand nofun

private theorem guards_storeRegister (index : UInt8) (size : OperandSize) : Guards A (storeRegister index size) :=
  guards_storeOperand nofun

private theorem guards_stage (hlhs : Guards A (loadOperand lhs)) (hrhs : Guards A (loadOperand rhs)) :
    Guards A (stage lhs rhs) :=
  guards_bind hlhs fun _ _ => guards_bind (guards_emit rfl) fun _ _ => guards_bind hrhs fun _ _ => guards_emit rfl

/-! ### Arithmetic -/

private theorem guards_finishResult {destination : Option Operand} (size : OperandSize)
    (h : ∀ op, destination = some op → Guards A (storeOperand op)) : Guards A (finishResult destination size) := by
  refine guards_bind (guards_emit (by cases size <;> rfl)) fun _ _ => ?_
  cases destination with
  | none => exact guards_pure ()
  | some op => exact guards_bind (guards_emit rfl) fun _ _ => h op rfl

section Operands

variable (hload : ∀ op ∈ i.operands, Guards A (loadOperand op))
  (hstore : ∀ op ∈ i.operands, Guards A (storeOperand op))

include hload

private theorem guards_binaryOn (op : BinaryOp) {destination : Option Operand} (hlhs : lhs ∈ i.operands)
    (hrhs : rhs ∈ i.operands)
    (h : ∀ op, destination = some op → Guards A (storeOperand op)) : Guards A (binaryOn op destination lhs rhs) := by
  refine guards_bind (guards_scalarSize lhs) fun size _ => ?_
  refine guards_bind (guards_stage (hload _ hlhs) (hload _ hrhs)) fun _ _ => ?_
  refine guards_bind (guards_emit (by cases op <;> rfl)) fun _ _ => guards_finishResult size fun op' hop' => ?_
  split at hop'
  · exact h op' hop'
  · cases hop'

private theorem guards_divide (signed : Bool) : Guards A (divide signed i) := by
  have hinto : ∀ op size register, Guards A (divideInto op size signed register) := fun op size register =>
    guards_bind (guards_emit (by cases size <;> cases signed <;> rfl)) fun _ _ => guards_storeRegister register size
  have hdividend : ∀ size, Guards A (dividend size signed) := by
    intro size
    cases size with
    | bits8 => exact guards_bind (guards_loadRegister 0 _) fun _ _ => guards_emit (by cases signed <;> rfl)
    | bits16 =>
      refine guards_bind (guards_loadRegister 2 _) fun _ _ => guards_bind (guards_emit rfl) fun _ _ => ?_
      exact guards_bind (guards_loadRegister 0 _) fun _ _ => guards_emit (by cases signed <;> rfl)
    | bits32 =>
      refine guards_bind (guards_loadRegister 2 _) fun _ _ => guards_bind (guards_emit rfl) fun _ _ => ?_
      exact guards_bind (guards_loadRegister 0 _) fun _ _ => guards_emit rfl
    | bits128 => exact guards_unsupported
  unfold divide
  split
  · rename_i divisor hoperands
    refine guards_bind (guards_scalarSize divisor) fun size _ => guards_bind (hload _ (by simp [hoperands]))
      fun _ _ => ?_
    refine guards_bind (guards_emit rfl) fun _ _ => guards_bind (hdividend size) fun _ _ => ?_
    exact guards_bind (guards_emit rfl) fun _ _ => guards_bind (hinto _ size _) fun _ _ => hinto _ size _
  · exact guards_unsupported

include hstore

private theorem guards_binary (op : BinaryOp) : Guards A (binary op i) := by
  unfold binary
  split
  · rename_i destination lhs rhs hoperands
    refine guards_binaryOn hload op (by simp [hoperands]) (by simp [hoperands]) fun op' hop' => ?_
    cases hop'
    exact hstore _ (by simp [hoperands])
  · rename_i lhs rhs hoperands
    exact guards_binaryOn hload op (by simp [hoperands]) (by simp [hoperands]) fun op' hop' => by cases hop'
  · exact guards_unsupported

private theorem guards_unary (op : UnaryOp) : Guards A (unary op i) := by
  unfold unary
  split
  · rename_i operand hoperands
    have hloadOperand := hload operand (by simp [hoperands])
    have hstoreOperand := hstore operand (by simp [hoperands])
    have hresult : ∀ o size, Guards A (unaryResult o operand size) := fun o size =>
      guards_bind (guards_emit rfl) fun _ _ => guards_finishResult size fun op' hop' =>
        by cases hop'; exact hstoreOperand
    refine guards_bind (guards_scalarSize operand) fun size _ => ?_
    cases op with
    | inc | dec => exact guards_bind hloadOperand fun _ _ => guards_bind (guards_emit rfl) fun _ _ => hresult _ size
    | neg =>
      refine guards_bind (guards_emit rfl) fun _ _ => guards_bind hloadOperand fun _ _ => ?_
      exact guards_bind (guards_emit rfl) fun _ _ => hresult _ size
    | not =>
      refine guards_bind hloadOperand fun _ _ => guards_bind (guards_emit (by cases size <;> rfl)) fun _ _ => ?_
      exact hstoreOperand
  · exact guards_unsupported

private theorem guards_shift (op : ShiftOp) : Guards A (shift op i) := by
  unfold shift
  split
  · rename_i destination lhs count hoperands
    refine guards_bind (guards_scalarSize lhs) fun size _ => guards_bind (hload lhs (by simp [hoperands]))
      fun _ _ => ?_
    refine guards_bind (guards_emit rfl) fun _ _ => guards_bind (hload count (by simp [hoperands])) fun _ _ => ?_
    refine guards_bind (guards_emit (by cases op <;> cases size <;> rfl)) fun _ _ => ?_
    exact guards_finishResult size fun op' hop' => by cases hop'; exact hstore _ (by simp [hoperands])
  · exact guards_unsupported

private theorem guards_multiply (signed : Bool) : Guards A (multiply signed i) := by
  unfold multiply
  split
  · rename_i destination lhs rhs hoperands
    split
    · refine guards_bind (guards_scalarSize destination) fun size _ => ?_
      refine guards_bind (guards_stage (hload lhs (by simp [hoperands])) (hload rhs (by simp [hoperands])))
        fun _ _ => ?_
      refine guards_bind (guards_emit (by cases size <;> rfl)) fun _ _ => ?_
      exact guards_finishResult size fun op' hop' => by cases hop'; exact hstore _ (by simp [hoperands])
    · exact guards_unsupported
  · rename_i source hoperands
    refine guards_bind (guards_scalarSize source) fun size _ => ?_
    refine guards_bind (guards_stage (guards_loadRegister 0 size) (hload source (by simp [hoperands]))) fun _ _ => ?_
    refine guards_bind (guards_emit (by cases size <;> cases signed <;> rfl)) fun _ _ => ?_
    split
    · exact guards_bind (guards_emit rfl) fun _ _ => guards_storeRegister 0 _
    · refine guards_bind (guards_emit rfl) fun _ _ => guards_bind (guards_storeRegister 0 size) fun _ _ => ?_
      exact guards_bind (guards_emit (by cases size <;> rfl)) fun _ _ => guards_storeRegister 2 size
  · exact guards_unsupported

/-! ### Moves -/

private theorem guards_move : Guards A (move i) := by
  unfold move
  split
  · rename_i destination source hoperands
    exact guards_bind (hload source (by simp [hoperands])) fun _ _ => hstore destination (by simp [hoperands])
  · exact guards_unsupported

private theorem guards_widen (signed : Bool) : Guards A (widen signed i) := by
  unfold widen
  split
  · rename_i destination source hoperands
    have hstoreOperand := hstore destination (by simp [hoperands])
    refine guards_bind (guards_scalarSize source) fun size _ => ?_
    refine guards_bind (hload source (by simp [hoperands])) fun _ _ => ?_
    cases signed with
    | false => exact guards_bind (guards_pure ()) fun _ _ => hstoreOperand
    | true =>
      refine guards_bind (guards_emit (by cases size <;> rfl)) fun _ _ => ?_
      refine guards_bind (guards_scalarSize destination) fun size' _ => ?_
      exact guards_bind (guards_emit (by cases size' <;> rfl)) fun _ _ => hstoreOperand
  · exact guards_unsupported

private theorem guards_exchange : Guards A (exchange i) := by
  unfold exchange
  split
  · rename_i first second hoperands
    have hfirst : first ∈ i.operands := by simp [hoperands]
    have hsecond : second ∈ i.operands := by simp [hoperands]
    refine guards_bind (guards_stage (hload first hfirst) (hload second hsecond)) fun _ _ => ?_
    refine guards_bind (guards_emit rfl) fun _ _ => guards_bind (hstore first hfirst) fun _ _ => ?_
    exact guards_bind (guards_emit rfl) fun _ _ => hstore second hsecond
  · exact guards_unsupported

private theorem guards_compareExchange : Guards A (compareExchange i) := by
  unfold compareExchange
  split
  · rename_i destination source hoperands
    have hdestination : destination ∈ i.operands := by simp [hoperands]
    refine guards_bind (guards_scalarSize destination) fun size _ => ?_
    refine guards_bind (guards_stage (guards_loadRegister 0 size) (hload destination hdestination)) fun _ _ => ?_
    refine guards_bind (guards_emit rfl) fun _ _ => ?_
    refine guards_bind (guards_finishResult size fun op' hop' => by cases hop') fun _ _ => ?_
    refine guards_bind (guards_emit rfl) fun _ _ => guards_bind (hload source (by simp [hoperands])) fun _ _ => ?_
    refine guards_bind (hstore destination hdestination) fun _ _ => guards_bind (guards_emit rfl) fun _ _ => ?_
    exact guards_bind (guards_storeRegister 0 size) fun _ _ => guards_emit rfl
  · exact guards_unsupported

omit hload

private theorem guards_loadAddress : Guards A (loadAddress i) := by
  unfold loadAddress
  split
  · rename_i destination source hoperands
    refine guards_bind (Wasm.guarded_of_straight (straight_addressOf source)) fun _ _ => ?_
    refine guards_bind (guards_scalarSize destination) fun size _ => ?_
    exact guards_bind (guards_emit (by cases size <;> rfl)) fun _ _ => hstore destination (by simp [hoperands])
  · exact guards_unsupported

private theorem guards_storeCondition : Guards A (storeCondition i) := by
  have htest : Guards A (testCondition i) := by
    have hcondition : ∀ c, Guards A (emit (condition c)) := fun c => guards_emit (by cases c <;> rfl)
    unfold testCondition
    split
    · exact hcondition _
    · exact hcondition _
    · exact hcondition _
    · exact guards_emit rfl
    · exact guards_unsupported
  unfold storeCondition
  split
  · rename_i destination hoperands
    exact guards_bind htest fun _ _ => hstore destination (by simp [hoperands])
  · exact guards_unsupported

end Operands

/-! ### The stack -/

private theorem guards_pushValue (hstack : ∀ s : Wasm.Store ω, A s ⟨true, s.get .esp⟩) (size : OperandSize) :
    Guards A (pushValue size) := by
  have hlower : Guarded A (.localSet Local.tmp :: moveStackPointer (0 - UInt32.ofNat size.bytes)) :=
    Wasm.guarded_of_all rfl
  have hprobe : ∀ access, Guarded A ([getSlot .esp, .localGet Local.tmp] ++ .store access :: []) := by
    intro access
    refine .probe ⟨by simp [Straight, Wasm.Instr.isAccess, getSlot], fun m => ⟨_, rfl, fun x hx => ?_⟩⟩ .nil
    cases hx
    exact hstack m.store
  -- a value is kept in a local while the stack pointer is lowered, and then stored there
  cases size with
  | bits8 => exact (Wasm.guarded_append hlower (hprobe .byte) :)
  | bits16 => exact (Wasm.guarded_append hlower (hprobe .half) :)
  | bits32 => exact (Wasm.guarded_append hlower (hprobe .word) :)
  | bits128 => exact Wasm.guarded_of_all rfl

private theorem guards_popValue (hstack : ∀ s : Wasm.Store ω, A s ⟨false, s.get .esp⟩) (size : OperandSize) :
    Guards A (popValue size) := by
  have hprobe : ∀ access rest, Guarded A rest → Guarded A ([getSlot .esp] ++ .load access :: rest) := by
    intro access rest hrest
    refine .probe ⟨by simp [Straight, Wasm.Instr.isAccess, getSlot], fun m => ⟨_, rfl, fun x hx => ?_⟩⟩ hrest
    cases hx
    exact hstack m.store
  cases size with
  | bits8 | bits16 | bits32 => exact hprobe _ _ (Wasm.guarded_of_all rfl)
  | bits128 => exact Wasm.guarded_of_all rfl

private theorem guards_push (hload : ∀ op ∈ i.operands, Guards A (loadOperand op))
    (hstack : ∀ s : Wasm.Store ω, A s ⟨true, s.get .esp⟩) : Guards A (push i) := by
  unfold push
  split
  · rename_i source hoperands
    refine guards_bind (guards_scalarSize source) fun size _ => ?_
    exact guards_bind (hload source (by simp [hoperands])) fun _ _ => guards_pushValue hstack size
  · exact guards_unsupported

private theorem guards_pop (hstore : ∀ op ∈ i.operands, Guards A (storeOperand op))
    (hstack : ∀ s : Wasm.Store ω, A s ⟨false, s.get .esp⟩) : Guards A (pop i) := by
  unfold pop
  split
  · rename_i destination hoperands
    refine guards_bind (guards_scalarSize destination) fun size _ => ?_
    exact guards_bind (guards_popValue hstack size) fun _ _ => hstore destination (by simp [hoperands])
  · exact guards_unsupported

/-! ### Instructions -/

private theorem all_flagsOf {mnemonic : Mnemonic} {flags : OperandSize → Code} (h : flagsOf? mnemonic = some flags)
    (size : OperandSize) : ((flags size).all fun instr => !instr.isAccess) = true := by
  cases mnemonic with
  | binary op => cases op <;> cases h <;> cases size <;> rfl
  | unary op => cases op <;> cases h <;> cases size <;> rfl
  | shift op =>
    cases h
    cases op <;> cases size <;> rfl
  | multiply signed =>
    cases h
    cases signed <;> cases size <;> rfl
  | cmpxchg =>
    cases h
    cases size <;> rfl
  | _ => cases h

private theorem guards_updateFlags (i : Instruction) : Guards A (updateFlags i) := by
  unfold updateFlags
  split
  · exact guards_pure ()
  · rename_i flags hflags
    have hrequire : Guards A (require i.operands.head?) := by cases i.operands.head? <;> exact .nil
    refine guards_bind hrequire fun first _ => guards_bind (guards_scalarSize first) fun size _ => ?_
    exact guards_emit (all_flagsOf hflags size)

/-- `A` holds for the accesses of an instruction: at the stack pointer where it uses the stack, and else at its
operands. -/
structure Admits (A : Wasm.Store ω → MemoryAccess → Prop) (i : Instruction) : Prop where
  load : i.mnemonic.usesStack false = false → ∀ op ∈ i.operands, Guards A (loadOperand op)
  store : i.mnemonic.usesStack true = false → ∀ op ∈ i.operands, Guards A (storeOperand op)
  stack : ∀ isStore, i.mnemonic.usesStack isStore = true → ∀ s : Wasm.Store ω, A s ⟨isStore, s.get .esp⟩

private theorem guards_prologue (h : Admits A i) (hm : i.mnemonic.takesMemory = true) : Guards A (prologue i) := by
  obtain ⟨hload, -, hstack⟩ := h
  have htarget : ∀ target, i.operands = [target] → i.mnemonic.usesStack false = false →
      Guards A (loadOperand target) := fun target hoperands hfree => hload hfree target (by simp [hoperands])
  unfold prologue
  generalize i.mnemonic = mnemonic at hm hstack htarget ⊢
  cases mnemonic with
  | dynamicJump =>
    dsimp only
    split
    · rename_i target hoperands
      exact guards_bind (htarget target hoperands rfl) fun _ _ => guards_emit rfl
    · exact guards_unsupported
  | dynamicCall =>
    dsimp only
    split
    · rename_i target hoperands
      refine guards_bind (htarget target hoperands rfl) fun _ _ => guards_bind (guards_emit rfl) fun _ _ => ?_
      exact guards_bind (guards_emit rfl) fun _ _ => guards_pushValue (hstack true rfl) .bits32
    · exact guards_unsupported
  | call | importCall | ret => cases hm
  | _ => exact guards_pure ()

private theorem guards_body (h : Admits A i) (hm : i.mnemonic.takesMemory = true) (chunk : UInt32) (toLoop : Nat) :
    Guards A (body chunk toLoop i) := by
  obtain ⟨hload, hstore, hstack⟩ := h
  unfold body computation?
  generalize i.mnemonic = mnemonic at hm hload hstore hstack ⊢
  cases mnemonic with
  | binary op => exact guards_binary (hload rfl) (hstore rfl) op
  | unary op => exact guards_unary (hload rfl) (hstore rfl) op
  | shift op => exact guards_shift (hload rfl) (hstore rfl) op
  | multiply signed => exact guards_multiply (hload rfl) (hstore rfl) signed
  | divide signed => exact guards_divide (hload rfl) signed
  | mov => exact guards_move (hload rfl) (hstore rfl)
  | widen signed => exact guards_widen (hload rfl) (hstore rfl) signed
  | lea => exact guards_loadAddress (hstore rfl)
  | xchg => exact guards_exchange (hload rfl) (hstore rfl)
  | cmpxchg => exact guards_compareExchange (hload rfl) (hstore rfl)
  | push => exact guards_push (hload rfl) (hstack true rfl)
  | pop => exact guards_pop (hstore rfl) (hstack false rfl)
  | set c => exact guards_storeCondition (hstore rfl)
  | dynamicCall | dynamicJump => exact guards_emit rfl
  | _ => cases hm

/-- The code of an instruction accesses memory only where its operands allow it. -/
theorem guards_instruction (h : Admits A i) (hm : i.mnemonic.takesMemory = true) (chunk : UInt32) (toLoop : Nat) :
    Guards A (instruction chunk toLoop i) :=
  guards_bind (guards_prologue h hm) fun _ _ => guards_bind (guards_body h hm chunk toLoop) fun _ _ =>
    guards_updateFlags i

/-- An access of an operation is at the stack pointer where it uses the stack, and else at a target. -/
def Follows (mnemonic : Mnemonic) (target : Wasm.Store ω → UInt32) (s : Wasm.Store ω) (x : MemoryAccess) : Prop :=
  x.address = if mnemonic.usesStack x.isStore then s.get .esp else target s

/-- Operands that are in memory at the target alone admit accesses there. -/
theorem admits_follows {target : Wasm.Store ω → UInt32}
    (h : ∀ op ∈ i.operands, op.isMemory = true → (∃ size, op.Readable size) ∧ ∀ s, op.address s = target s) :
    Admits (Follows i.mnemonic target) i := by
  have hfree : ∀ op ∈ i.operands, op.isMemory = true → ∀ isStore, i.mnemonic.usesStack isStore = false →
      ∀ s, Follows i.mnemonic target s ⟨isStore, op.address s⟩ := fun op hop hmemory isStore hstack s => by
    rw [Follows, hstack]
    exact (h op hop hmemory).2 s
  refine ⟨fun hstack op hop => ?_, fun hstack op hop => ?_, fun isStore hstack s => ?_⟩
  · exact guards_loadOperand fun hmemory => ⟨(h op hop hmemory).1, hfree op hop hmemory false hstack⟩
  · exact guards_storeOperand fun hmemory => ⟨(h op hop hmemory).1, hfree op hop hmemory true hstack⟩
  · rw [Follows, hstack]
    rfl

end Lowering

end Ia32Wasm
