import Ia32Wasm.Proofs.Assembly.Transfers
import Ia32Wasm.Proofs.Lowering.InstructionValidity

/-!
# Assembled modules are valid

The head of a dispatch loop opens the loop and a block for each target.  The code of an instruction leaves the operand
stack empty, in front of it the block of its target is closed, and the tail closes what is still open.  So the code
of a chunk is valid with any targets, those beyond the last instruction included, and it stays valid with function
indices for callees, since every function that it calls is imported.

* `Inside` is the invariant between instructions, `validate_ownCode` its step and `validate_emitFrom` its run.
* The module of every chunk that is assembled is valid (`Chunk.valid_of_assemble`).
-/

namespace Ia32Wasm

open Lowering (Named context)
open Wasm (Frame validate)
open X86 (Instruction)

/-! ### The dispatch loop -/

namespace DispatchLoop

/-- The frames inside the dispatch loop of a function while some of its blocks are open: none holds an operand, and
the function's own is as it was opened. -/
def Inside (blocks : Nat) (frames : List Frame) : Prop :=
  ∃ inner, inner.length = blocks + 1 ∧ (∀ f ∈ inner, f.stack = []) ∧ frames = inner ++ [.opened .function]

variable {more blocks : Nat} {f : Frame} {inner outer frames : List Frame}

private theorem validate_closes (h : ∀ f ∈ inner, f.stack = []) :
    validate (context more) (List.replicate inner.length .close) (inner ++ outer) = some outer := by
  induction inner with
  | nil => rfl
  | cons f inner ih =>
    obtain ⟨hf, hinner⟩ := List.forall_mem_cons.1 h
    rw [List.length_cons, List.replicate_succ, List.cons_append, Wasm.validate_cons, Wasm.check_close _ f _ hf]
    exact ih hinner

private theorem validate_blocks (n : Nat) (f : Frame) (outer : List Frame) :
    validate (context more) (List.replicate n .block) (f :: outer) =
      some (List.replicate n (.opened .block) ++ f :: outer) := by
  induction n generalizing f outer with
  | zero => rfl
  | succ n ih =>
    have hlast : List.replicate (n + 1) (Frame.opened .block) ++ f :: outer =
        List.replicate n (Frame.opened .block) ++ Frame.opened .block :: f :: outer := by
      rw [List.replicate_succ', List.append_assoc]
      rfl
    rw [hlast]
    exact ih (.opened .block) (f :: outer)

private theorem validate_tests {targets : List UInt32} (h : targets.length ≤ outer.length) :
    validate (context more) (tests targets) (f :: outer) = some (f :: outer) := by
  refine Wasm.validate_flatten fun test htest => ?_
  obtain ⟨depth, hdepth, rfl⟩ := List.mem_mapIdx.1 htest
  have hlabel : depth ≤ outer.length := by omega
  simp [Wasm.check_brIf _ f outer hlabel]

private theorem validate_head (targets : List UInt32) :
    ∃ frames, validate (context more) (head targets) [.opened .function] = some frames ∧
      Inside targets.length frames := by
  obtain ⟨f, outer, hframes⟩ : ∃ f outer,
      List.replicate targets.length (Frame.opened .block) ++ [.opened .loop, .opened .function] = f :: outer :=
    List.exists_cons_of_ne_nil (by simp)
  have hlength : targets.length + 2 = outer.length + 1 := by simpa using congrArg List.length hframes
  refine ⟨f :: outer, ?_, List.replicate targets.length (.opened .block) ++ [.opened .loop], by simp, ?_, ?_⟩
  · rw [head, List.cons_append, Wasm.validate_cons, Wasm.check_loop, Option.bind_some, Wasm.validate_append,
      validate_blocks, hframes]
    exact validate_tests (by omega)
  · intro f hf
    rcases List.mem_append.1 hf with hf | hf
    · rw [List.eq_of_mem_replicate hf]
      rfl
    · rw [List.mem_singleton.1 hf]
      rfl
  · rw [← hframes, List.append_assoc]
    rfl

private theorem validate_tail {targets : List UInt32} {count : Nat}
    (h : Inside (targets.countP fun target => count ≤ target.toNat) frames) :
    validate (context more) (tail targets count) frames = some [.opened .function] := by
  obtain ⟨inner, hlength, hstacks, rfl⟩ := h
  have htail : tail targets count = List.replicate inner.length .close := by
    rw [tail, hlength, List.replicate_succ']
  rw [htail]
  exact validate_closes hstacks

/-- A block inside the loop can be closed. -/
theorem Inside.close (h : Inside (blocks + 1) frames) :
    ∃ frames', validate (context more) [.close] frames = some frames' ∧ Inside blocks frames' := by
  obtain ⟨inner, hlength, hstacks, rfl⟩ := h
  cases inner with
  | nil => cases hlength
  | cons f inner =>
    obtain ⟨hf, hinner⟩ := List.forall_mem_cons.1 hstacks
    refine ⟨inner ++ [.opened .function], ?_, inner, Nat.succ.inj hlength, hinner, rfl⟩
    rw [List.cons_append, Wasm.validate_cons, Wasm.check_close _ f _ hf]
    rfl

end DispatchLoop

/-! ### Chunks -/

namespace Chunk

open DispatchLoop (Inside validate_head validate_tail)

variable {c : Chunk} {o : AssemblyOptions} {more index : Nat} {i : Instruction} {frames : List Frame}

private theorem turns_report (o : AssemblyOptions) (index : Nat) (f : Frame) :
    Lowering.Turns more (report o index) f f := by
  intro outer
  unfold report
  split
  · simp [debugHook, callHook]
  · rfl

private theorem validate_landing (h : Inside (c.targetsFrom index).length frames) :
    ∃ frames', validate (context more) (DispatchLoop.landing c.targets.toList index) frames = some frames' ∧
      Inside (c.targetsFrom (index + 1)).length frames' := by
  by_cases hmem : ∃ target ∈ c.targets.toList, target.toNat = index
  · obtain ⟨target, htarget, rfl⟩ := hmem
    rw [targetsFrom_of_mem c htarget] at h
    rw [landing_of_mem c htarget]
    exact h.close
  · have hnot : ∀ target ∈ c.targets.toList, target.toNat ≠ index := fun target ht heq => hmem ⟨target, ht, heq⟩
    rw [landing_of_not_mem c hnot]
    exact ⟨frames, rfl, targetsFrom_of_not_mem c hnot ▸ h⟩

/-- The code of an instruction stays inside the dispatch loop, where it can jump to the head. -/
theorem validate_ownCode (hlowered : (c.lowering index i).outcome = .ok ())
    (hnamed : ∀ op ∈ i.operands, Named more op)
    (h : Inside (c.targetsFrom (index + 1)).length frames) :
    ∃ frames', validate (context more) (c.ownCode o index i) frames = some frames' ∧
      Inside (c.targetsFrom (index + 1)).length frames' := by
  obtain ⟨inner, hlength, hstacks, rfl⟩ := h
  cases inner with
  | nil => cases hlength
  | cons f inner =>
    obtain ⟨hf, hinner⟩ := List.forall_mem_cons.1 hstacks
    have hloop : DispatchLoop.openBlocks c.targets.toList index ≤ (inner ++ [Frame.opened .function]).length := by
      rw [← length_targetsFrom, List.length_append, ← Nat.succ.inj hlength]
      exact Nat.le_add_right _ _
    obtain ⟨f', hf', haccepts⟩ := Lowering.accepts_instruction c.id hnamed hloop hf
    refine ⟨f' :: inner ++ [.opened .function], ?_, f' :: inner, hlength, List.forall_mem_cons.2 ⟨hf', hinner⟩, rfl⟩
    rw [ownCode, Wasm.validate_append, List.cons_append, turns_report, Option.bind_some]
    exact haccepts () hlowered

/-- From the landing of an instruction on the code closes the dispatch loop. -/
theorem validate_emitFrom {rest : List Instruction}
    (hlowered : ∀ index i, c.instructions[index]? = some i → (c.lowering index i).outcome = .ok ())
    (hnamed : ∀ i ∈ c.instructions, ∀ op ∈ i.operands, Named more op)
    (hindex : index ≤ c.instructions.length) (hrest : c.instructions.drop index = rest)
    (h : Inside (c.targetsFrom index).length frames) :
    validate (context more) (c.emitFrom o index rest) frames = some [.opened .function] := by
  induction rest generalizing index frames with
  | nil =>
    have hend : index = c.instructions.length := Nat.le_antisymm hindex (List.drop_eq_nil_iff.1 hrest)
    rw [hend, targetsFrom, ← List.countP_eq_length_filter] at h
    exact validate_tail h
  | cons i rest ih =>
    have hget : c.instructions[index]? = some i := by
      rw [← List.head?_drop, hrest]
      rfl
    have hdrop : c.instructions.drop (index + 1) = rest := by
      rw [← List.tail_drop, hrest]
      rfl
    have hlt : index < c.instructions.length := (List.getElem?_eq_some_iff.1 hget).1
    obtain ⟨landed, hland, hinside⟩ := validate_landing h
    obtain ⟨passed, hpass, hinside⟩ :=
      validate_ownCode (o := o) (hlowered index i hget) (hnamed i (List.mem_of_getElem? hget)) hinside
    rw [emitFrom, Wasm.validate_append, hland, Option.bind_some, Wasm.validate_append, hpass]
    exact ih hlt hdrop hinside

/-- The code of a chunk is valid if all its instructions have lowerings and name registers that there are. -/
theorem validate_body_of_named
    (hlowered : ∀ index i, c.instructions[index]? = some i → (c.lowering index i).outcome = .ok ())
    (hnamed : ∀ i ∈ c.instructions, ∀ op ∈ i.operands, Named more op) :
    validate (context more) (c.body o) [.opened .function] = some [.opened .function] := by
  obtain ⟨frames, hhead, hinside⟩ := validate_head c.targets.toList
  rw [← targetsFrom_zero c] at hinside
  rw [body, Wasm.validate_append, hhead]
  exact validate_emitFrom hlowered hnamed (Nat.zero_le _) rfl hinside

private theorem validate_body (hlowered : ∀ index i, c.instructions[index]? = some i →
    (c.lowering index i).outcome = .ok ())
    (hnumbered : ∀ i ∈ c.instructions, ∀ op ∈ i.operands, op.Numbered) :
    validate (context 0) (c.body o) [.opened .function] = some [.opened .function] :=
  validate_body_of_named hlowered fun i hi op hop => Lowering.named_of_numbered (hnumbered i hi op hop)

end Chunk

/-! ### Modules -/

variable {o : AssemblyOptions} {code : Code}

private theorem countP_functionImports (p : Wasm.ImportKind → Bool) (imports : List FunctionImport) :
    (imports.map FunctionImport.toImport).countP (fun i => p i.kind) = if p .function then imports.length else 0 := by
  rw [List.countP_map]
  change imports.countP (fun _ => p .function) = _
  cases p .function <;> simp

/-- The function of a module has its index behind the hooks and the imported functions. -/
theorem functionIndex_assembleCode (o : AssemblyOptions) (code : Code) :
    (assembleCode o code).wasm.functionIndex = Hook.all.length + (addImports [] code).length := by
  simp only [Wasm.Module.functionIndex, assembleCode, Assembled.ofBody, List.countP_append]
  rw [countP_functionImports (· == .function)]
  rfl

/-- The function of a module can name what lowered code can, and functions up to its own index. -/
private theorem context_assembleCode (o : AssemblyOptions) (code : Code) :
    (assembleCode o code).wasm.context =
      (context 0).withCallable fun index => decide (index ≤ Hook.all.length + (addImports [] code).length) := by
  have hglobals : (assembleCode o code).wasm.context.globals = 24 := by
    simp only [Wasm.Module.context, assembleCode, Assembled.ofBody, List.countP_append]
    rw [countP_functionImports (· == .global)]
    rfl
  have hmemories : (assembleCode o code).wasm.context.memories = 1 := by
    simp only [Wasm.Module.context, assembleCode, Assembled.ofBody, List.countP_append]
    rw [countP_functionImports Wasm.ImportKind.isMemory]
    rfl
  rw [← functionIndex_assembleCode o code]
  exact congr (congrArg (Wasm.Context.mk _ · · _) hglobals) hmemories

private theorem index_lt_of_mem {callee : Callee} (h : .call callee ∈ code) :
    callee.index (addImports [] code) < Hook.all.length + (addImports [] code).length := by
  cases callee with
  | hook hook =>
    have hlt : hook.index < Hook.all.length := by cases hook <;> decide
    exact Nat.lt_of_lt_of_le hlt (Nat.le_add_right _ _)
  | imported f =>
    have hlt : (addImports [] code).idxOf f < (addImports [] code).length :=
      List.idxOf_lt_length_of_mem (mem_addImports h)
    exact Nat.add_lt_add_left hlt _

/-- Valid code stays valid with function indices for callees, all of them below the one of the module's function. -/
theorem validate_link {more : Nat} {frames frames' : List Frame}
    (h : validate (context more) code frames = some frames') :
    validate ((context more).withCallable fun index => decide (index ≤ Hook.all.length + (addImports [] code).length))
      (link (addImports [] code) code) frames = some frames' :=
  Wasm.validate_mapCallee (fun _ hcallee => decide_eq_true (Nat.le_of_lt (index_lt_of_mem hcallee))) h

private theorem valid_memoryImport (h : o.validMemory = true) :
    (memoryImport o).kind.valid = true := by
  obtain ⟨hmin, hmax⟩ : o.minPages ≤ o.maxPages.getD pageLimit ∧ o.maxPages.getD pageLimit ≤ pageLimit := by
    simpa [AssemblyOptions.validMemory] using h
  have hlimit : o.minPages ≤ Wasm.largestMemory := UInt32.le_trans hmin hmax
  cases hpages : o.maxPages with
  | none => simp [memoryImport, hpages, Wasm.ImportKind.valid, hlimit]
  | some bound =>
    rw [hpages] at hmin hmax
    have hbound : bound ≤ Wasm.largestMemory := hmax
    have hmin : o.minPages ≤ bound := hmin
    simp [memoryImport, hpages, Wasm.ImportKind.valid, hlimit, hbound, hmin]

private theorem valid_imports (h : o.validMemory = true) (code : Code) :
    (assembleCode o code).wasm.imports.all (·.kind.valid) = true := by
  have hslots : slotImports.all (·.kind.valid) = true := rfl
  have hhooks : hookImports.all (·.kind.valid) = true := rfl
  have himports : ((addImports [] code).map FunctionImport.toImport).all (·.kind.valid) = true := by
    rw [List.all_map]
    exact List.all_eq_true.2 fun _ _ => rfl
  simp only [assembleCode, Assembled.ofBody, List.cons_append, List.all_cons, List.all_append, valid_memoryImport h,
    hslots, hhooks,
    himports, Bool.and_self]

private theorem valid_assembleCode (hmemory : o.validMemory = true)
    (hcode : validate (context 0) code [.opened .function] = some [.opened .function]) :
    (assembleCode o code).wasm.valid = true := by
  have hbody : validate (assembleCode o code).wasm.context (assembleCode o code).wasm.body [.opened .function] =
      some [.opened .function] := by
    rw [context_assembleCode]
    exact validate_link hcode
  have hend : validate (assembleCode o code).wasm.context ((assembleCode o code).wasm.body ++ [.close])
      [.opened .function] = some [] := by
    rw [Wasm.validate_append, hbody]
    rfl
  have hmemories : (assembleCode o code).wasm.context.memories ≤ 1 := by
    rw [context_assembleCode]
    exact Nat.le_refl 1
  simp only [Wasm.Module.valid, valid_imports hmemory code, hmemories, hend, decide_true, Bool.and_self,
    beq_self_eq_true]

namespace Chunk

/-- The module of every chunk whose operands name registers that there are is valid, whatever the mnemonics, operands
and targets are otherwise.  The operands of decoded instructions name such registers. -/
theorem valid_of_assemble :
    (∀ (c : Chunk) (o : AssemblyOptions) (a : Assembled), (∀ i ∈ c.instructions, ∀ op ∈ i.operands, op.Numbered) →
      c.assemble o = .ok a → a.wasm.valid = true) ∧
    ∀ (bytes : List UInt8) (address : UInt32) (i : Instruction) (n : Nat),
      X86.decode bytes address = .ok (i, n) → ∀ op ∈ i.operands, op.Numbered := by
  refine ⟨fun c o a hnumbered hassemble => ?_, fun bytes address i n hdecode => ?_⟩
  · obtain ⟨hmemory, hlowered, rfl⟩ := of_assemble hassemble
    exact valid_assembleCode hmemory (validate_body hlowered hnumbered)
  · obtain ⟨-, -, -, -, -, hnumbered, -⟩ := X86.decode_eq_ok hdecode
    exact hnumbered

/-- A chunk with a repeated string instruction, an exchange in memory, a jump to another chunk and a target beyond its
last instruction. -/
def overshooting : Chunk where
  id := 0
  name := nameOf 0x1000
  entry := 0x1000
  instructions := [
    ⟨.rep, 0xab, .stos, [.pointer 7 .bits32, .reg 0 .bits32], 0x1000, 0x1002⟩,
    ⟨{}, 0x0fb0, .cmpxchg, [.scaledIndex (some 0) (some 3) 4 (some 8) .bits8 true, .reg 5 .bits8], 0x1002, 0x1007⟩,
    ⟨{}, 0x75, .jumpIf .ne, Instruction.destinationOperands (.inside 1), 0x1007, 0x1009⟩,
    ⟨{}, 0xe9, .jump, Instruction.destinationOperands (.across 3 5), 0x1009, 0x100e⟩]
  ranges := [⟨0x1000, 0x100e⟩]
  targets := .ofList [1, 9]

/-- A target beyond the last instruction does no harm. -/
theorem valid_overshooting :
    (∀ i ∈ overshooting.instructions, ∀ op ∈ i.operands, op.Numbered) ∧
    ∃ a, overshooting.assemble ⟨true, 1, some 2⟩ = .ok a ∧ a.wasm.valid = true := by
  have hnumbered : ∀ i ∈ overshooting.instructions, ∀ op ∈ i.operands, op.Numbered := by
    simp [overshooting, X86.Operand.Numbered, X86.Operand.pointer, X86.Operand.reg, X86.Operand.imm,
      Instruction.destinationOperands, Instruction.indexOperand]
  have hassemble : overshooting.assemble ⟨true, 1, some 2⟩ =
      .ok (assembleCode ⟨true, 1, some 2⟩ (overshooting.body ⟨true, 1, some 2⟩)) :=
    assemble_of_isOk (by decide +kernel)
  exact ⟨hnumbered, _, hassemble, valid_of_assemble.1 overshooting _ _ hnumbered hassemble⟩

end Chunk

end Ia32Wasm
