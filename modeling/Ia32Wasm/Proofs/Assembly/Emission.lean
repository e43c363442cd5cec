import Ia32Wasm.Proofs.Assembly.Layout
import Mathlib.Data.List.Basic

/-!
# Emission in one pass

The body of a chunk is written from the front to the back, and a call gets the index of its callee when it is written,
although functions are imported behind it.  The result is the layout of the chunk linked with the final list of
imports.

* A function keeps the place that it gets at its first call, since the list of imports only grows at its end
  (`idxOf_of_isPrefix`), so code that was written early needs no change later (`indexCalls_eq`, `link_of_isPrefix`).
* `Body.Holds code` says that a body has been written from `code`; more code keeps it (`Body.Holds.append`).
* `Body.Inside code pending` says where a body stands inside its dispatch loop: what is written and which blocks are
  open.  One instruction takes it to the next (`writeInstruction_of_lowered`), so all instructions take it to the end
  (`write_take_of_lowered`), unless one of them has no lowering; then the first such instruction is reported
  (`assemble_of_obstacle`).
* A jump inside the chunk is a jump to a target of the loop (`Body.Inside.append_jump`).
-/

namespace Ia32Wasm

open X86 (Instruction)

/-! ### Linking -/

/-- The imported functions of `known` and then those that a sequence calls, each once, in the order of first use. -/
def addImports (known : List FunctionImport) (code : Code) : List FunctionImport := code.foldl addImport known

/-- The code with the function indices of callees among all the imported functions. -/
def link (imports : List FunctionImport) (code : Code) : List (Wasm.Instr Nat) :=
  code.map fun instr => instr.mapCallee (Callee.index imports)

/-- The module with the given code, linked with the functions that it calls. -/
def assembleCode (o : AssemblyOptions) (code : Code) : Assembled :=
  .ofBody o (addImports [] code) (link (addImports [] code) code)

section Linking

variable {known imports : List FunctionImport} {code : Code} {f : FunctionImport}

private theorem addImports_append (known : List FunctionImport) (first second : Code) :
    addImports known (first ++ second) = addImports (addImports known first) second :=
  List.foldl_append

private theorem prefix_addImport (known : List FunctionImport) (instr : Wasm.Instr Callee) :
    known <+: addImport known instr := by
  unfold addImport
  split
  · split
    · exact List.prefix_rfl
    · exact List.prefix_append _ _
  · exact List.prefix_rfl

/-- Imports are added at the end only. -/
private theorem prefix_addImports (known : List FunctionImport) (code : Code) : known <+: addImports known code := by
  induction code generalizing known with
  | nil => exact List.prefix_rfl
  | cons instr code ih => exact (prefix_addImport known instr).trans (ih _)

private theorem mem_addImport (known : List FunctionImport) (f : FunctionImport) :
    f ∈ addImport known (.call (.imported f)) := by
  unfold addImport
  dsimp only
  split
  · rename_i hknown
    exact List.contains_iff_mem.1 hknown
  · exact List.mem_append_right _ (List.mem_singleton_self f)

/-- A called function is imported. -/
theorem mem_addImports (h : .call (.imported f) ∈ code) : f ∈ addImports known code := by
  induction code generalizing known with
  | nil => cases h
  | cons instr code ih =>
    rcases List.mem_cons.1 h with rfl | h
    · exact (prefix_addImports _ code).subset (mem_addImport known f)
    · exact ih h

/-- A function keeps its place when more functions are imported. -/
theorem idxOf_of_isPrefix (h : known <+: imports) (hf : f ∈ known) : imports.idxOf f = known.idxOf f := by
  obtain ⟨later, rfl⟩ := h
  exact List.idxOf_append_of_mem hf

private theorem mapCallee_of_isPrefix {instr : Wasm.Instr Callee} (h : known <+: imports)
    (hcall : ∀ f, instr = .call (.imported f) → f ∈ known) :
    instr.mapCallee (Callee.index imports) = instr.mapCallee (Callee.index known) := by
  cases instr with
  | call callee =>
    cases callee with
    | hook => rfl
    | imported f =>
      show Wasm.Instr.call (Hook.all.length + imports.idxOf f) = .call (Hook.all.length + known.idxOf f)
      rw [idxOf_of_isPrefix h (hcall f rfl)]
  | _ => rfl

/-- The indices in the calls of imported functions stay right when more functions are imported. -/
theorem link_of_isPrefix (h : known <+: imports) (hcalls : ∀ f, .call (.imported f) ∈ code → f ∈ known) :
    link imports code = link known code :=
  List.map_congr_left fun _ hinstr => mapCallee_of_isPrefix h fun f hf => hcalls f (hf ▸ hinstr)

/-- Indices that are taken while the imports grow are those among the final imports. -/
theorem indexCalls_eq (known : List FunctionImport) (code : Code) :
    indexCalls known code = (link (addImports known code) code, addImports known code) := by
  induction code generalizing known with
  | nil => rfl
  | cons instr code ih =>
    have hfirst : instr.mapCallee (Callee.index (addImports (addImport known instr) code)) =
        instr.mapCallee (Callee.index (addImport known instr)) := by
      refine mapCallee_of_isPrefix (prefix_addImports _ code) fun f hf => ?_
      rw [hf]
      exact mem_addImport known f
    rw [indexCalls, ih, ← hfirst]
    rfl

end Linking

/-! ### Bodies -/

namespace Body

variable {b : Body} {code : Code}

/-- The body has been written from the given code: its calls have the indices of their callees among the functions
that have been imported. -/
structure Holds (b : Body) (code : Code) : Prop where
  imports : b.imports = addImports [] code
  code : b.code = link b.imports code

private theorem holds_empty : Body.Holds {} [] := ⟨rfl, rfl⟩

private theorem append_eq (b : Body) (code : Code) : b.append code =
    { b with
      code := b.code ++ link (addImports b.imports code) code
      imports := addImports b.imports code
      depth := code.foldl Wasm.Instr.depthAfter b.depth } := by
  rw [append, indexCalls_eq]

/-- Behind code that has been written, more code is written, and the indices in front of it stay right. -/
theorem Holds.append (h : b.Holds code) (more : Code) : (b.append more).Holds (code ++ more) := by
  have himports : addImports b.imports more = addImports [] (code ++ more) := by
    rw [addImports_append, ← h.imports]
  rw [append_eq]
  refine ⟨himports, ?_⟩
  have hcalls : ∀ f, .call (.imported f) ∈ code → f ∈ b.imports := by
    intro f hf
    rw [h.imports]
    exact mem_addImports hf
  have hearlier : link (addImports b.imports more) code = b.code := by
    rw [h.code]
    exact link_of_isPrefix (prefix_addImports _ more) hcalls
  show b.code ++ link (addImports b.imports more) more = link (addImports b.imports more) (code ++ more)
  rw [← hearlier, link, link, link, List.map_append]

end Body

/-! ### Depth -/

/-- Nested code leaves as many constructs open as it is counted to. -/
private theorem foldl_depthAfter_of_nest {outer depth depth' : Nat} {code : Code}
    (h : Wasm.nest outer depth code = some depth') : code.foldl Wasm.Instr.depthAfter depth = depth' := by
  induction code generalizing depth with
  | nil => exact Option.some.inj h
  | cons instr code ih =>
    obtain ⟨inner, hinner, hrest⟩ := Option.bind_eq_some_iff.1 h
    have hstep : Wasm.Instr.depthAfter depth instr = inner := by
      cases instr <;> simp only [Wasm.nestStep] at hinner <;> grind [Wasm.Instr.depthAfter]
    rw [List.foldl_cons, hstep]
    exact ih hrest

private theorem foldl_depthAfter_tests (targets : List UInt32) (depth : Nat) :
    (DispatchLoop.tests targets).foldl Wasm.Instr.depthAfter depth = depth := by
  refine List.foldlRecOn (motive := (· = depth)) _ _ rfl fun inner hinner instr hinstr => ?_
  obtain ⟨test, htest, hmem⟩ := List.mem_flatten.1 hinstr
  obtain ⟨k, hk, rfl⟩ := List.mem_mapIdx.1 htest
  simp only [List.mem_cons, List.not_mem_nil, or_false] at hmem
  rcases hmem with rfl | rfl | rfl | rfl <;> exact hinner

private theorem foldl_depthAfter_head (targets : List UInt32) :
    (DispatchLoop.head targets).foldl Wasm.Instr.depthAfter 0 = targets.length + 1 := by
  have hblocks : (List.replicate targets.length (.block : Wasm.Instr Callee)).foldl Wasm.Instr.depthAfter 1 =
      targets.length + 1 := by
    rw [foldl_depthAfter_of_nest (Wasm.nest_replicate_block 0 1 _), Nat.add_comm]
  rw [DispatchLoop.head, List.cons_append, List.foldl_cons, List.foldl_append]
  show (DispatchLoop.tests targets).foldl Wasm.Instr.depthAfter
    ((List.replicate targets.length .block).foldl Wasm.Instr.depthAfter 1) = _
  rw [hblocks, foldl_depthAfter_tests]

/-! ### The dispatch loop -/

namespace Body

/-- The body has been written from the given code up to a place inside the dispatch loop where the blocks of the
pending targets are open and nothing else is. -/
structure Inside (b : Body) (code : Code) (pending : List UInt32) : Prop where
  holds : b.Holds code
  dispatch : b.dispatch = some ⟨0, pending⟩
  depth : b.depth = pending.length + 1

variable {b : Body} {code : Code} {pending : List UInt32}

private theorem inside_openDispatch (targets : IndexSet) :
    (Body.openDispatch {} targets).Inside (DispatchLoop.head targets.toList) targets.toList where
  holds :=
    have h := holds_empty.append (DispatchLoop.head targets.toList)
    ⟨h.imports, h.code⟩
  dispatch := rfl
  depth := by
    rw [openDispatch, append_eq]
    exact foldl_depthAfter_head _

/-- Code that closes what it opens keeps a body where it is in the dispatch loop. -/
theorem Inside.append (h : b.Inside code pending) {more : Code} {outer : Nat}
    (hmore : ∀ depth, Wasm.nest outer depth more = some depth) : (b.append more).Inside (code ++ more) pending where
  holds := h.holds.append more
  dispatch := by
    rw [append_eq]
    exact h.dispatch
  depth := by
    rw [append_eq]
    exact (foldl_depthAfter_of_nest (hmore _)).trans h.depth

/-- A jump names the dispatch loop by the number of pending targets. -/
theorem Inside.toLoop (h : b.Inside code pending) : b.toLoop = pending.length := by
  rw [Body.toLoop, h.dispatch]
  show b.depth - 1 - 0 = pending.length
  rw [h.depth]
  omega

/-- If an instruction is a target, it is the next one that is pending, and its block is closed in front of it. -/
theorem Inside.landDispatch {c : Chunk} {index : Nat} (h : b.Inside code (c.targetsFrom index)) :
    (b.landDispatch (UInt32.ofNat index)).Inside (code ++ DispatchLoop.landing c.targets.toList index)
      (c.targetsFrom (index + 1)) := by
  by_cases hmem : ∃ target ∈ c.targets.toList, target.toNat = index
  · obtain ⟨target, htarget, rfl⟩ := hmem
    have hpending : c.targetsFrom target.toNat = target :: c.targetsFrom (target.toNat + 1) :=
      Chunk.targetsFrom_of_mem c htarget
    have hdispatch : b.dispatch = some ⟨0, target :: c.targetsFrom (target.toNat + 1)⟩ := by
      rw [h.dispatch, hpending]
    have hdepth : b.depth = (c.targetsFrom (target.toNat + 1)).length + 1 + 1 := by
      rw [h.depth, hpending, List.length_cons]
    have hclose := h.holds.append [.close]
    rw [Body.landDispatch, hdispatch, Chunk.landing_of_mem c htarget]
    dsimp only
    rw [if_pos UInt32.ofNat_toNat.symm]
    refine ⟨⟨hclose.imports, hclose.code⟩, rfl, ?_⟩
    rw [append_eq]
    show b.depth - 1 = _
    omega
  · have hnot : ∀ target ∈ c.targets.toList, target.toNat ≠ index := fun target ht heq => hmem ⟨target, ht, heq⟩
    rw [Chunk.targetsFrom_of_not_mem c hnot] at h
    have hkept : b.landDispatch (UInt32.ofNat index) = b := by
      rw [Body.landDispatch, h.dispatch]
      cases hpending : c.targetsFrom (index + 1) with
      | nil => rfl
      | cons target later =>
        -- The next target lies behind the index, so it is not the word of the index.
        have hmem : target ∈ c.targetsFrom (index + 1) := hpending ▸ List.mem_cons_self
        have hlater : index + 1 ≤ target.toNat := of_decide_eq_true (List.mem_filter.1 hmem).2
        refine if_neg fun heq => ?_
        rw [heq, UInt32.toNat_ofNat'] at hlater
        exact absurd (Nat.mod_le index (2 ^ 32)) (Nat.not_le.2 hlater)
    rw [hkept, Chunk.landing_of_not_mem c hnot, List.append_nil]
    exact h

/-- A jump to an instruction of the chunk is written as a jump to a target of the dispatch loop. -/
theorem Inside.append_jump (h : b.Inside code pending) {i : Instruction} {target : UInt32} (chunk : UInt32)
    (hjump : i.mnemonic = .jump) (htarget : i.destination? = some (.inside target)) :
    b.append (Lowering.instruction chunk b.toLoop i).code = b.jumpDispatch target := by
  have hcode : (Lowering.instruction chunk b.toLoop i).code = Lowering.jumpTo b.toLoop (.inside target) := by
    have hflags : Lowering.flagsOf? .jump = none := rfl
    simp only [Lowering.instruction, Lowering.prologue, Lowering.body, Lowering.updateFlags, Lowering.resolved, hjump,
      htarget, hflags, pure_bind, bind_pure_unit, Lowering.emit]
  rw [hcode, Body.jumpDispatch, h.dispatch]
  rfl

/-- At the end of the loop the blocks of the targets that are still pending are closed, and the loop. -/
theorem Inside.closeDispatch (h : b.Inside code pending) :
    b.closeDispatch.Holds (code ++ List.replicate (pending.length + 1) .close) := by
  have hclose := h.holds.append (List.replicate (pending.length + 1) .close)
  rw [Body.closeDispatch, h.dispatch]
  exact ⟨hclose.imports, hclose.code⟩

end Body

/-! ### Chunks -/

namespace Chunk

variable {c : Chunk} {o : AssemblyOptions} {b : Body} {code : Code} {index : Nat} {i : Instruction}

private theorem inside_openInstruction (h : b.Inside code (c.targetsFrom index)) (o : AssemblyOptions)
    (i : Instruction) :
    (b.openInstruction o i index).Inside (code ++ DispatchLoop.landing c.targets.toList index ++ report o index)
      (c.targetsFrom (index + 1)) := by
  have hlanded := h.landDispatch
  have hbegun : ((b.landDispatch (UInt32.ofNat index)).beginInstruction i.mnemonic i.address).Inside
      (code ++ DispatchLoop.landing c.targets.toList index) (c.targetsFrom (index + 1)) :=
    ⟨⟨hlanded.holds.imports, hlanded.holds.code⟩, hlanded.dispatch, hlanded.depth⟩
  unfold Body.openInstruction
  cases hhooks : o.debugHooks with
  | false =>
    simp only [report, hhooks, Bool.false_eq_true, if_false, List.append_nil]
    exact hbegun
  | true =>
    have hreport := hbegun.append (Wasm.nest_of_zero (nest_report o index) 0)
    rw [report, hhooks, if_pos rfl] at hreport ⊢
    exact hreport

/-- Around the code of an instruction the blocks of the later targets are open, so it is lowered as in the layout. -/
private theorem instruction_openInstruction (h : b.Inside code (c.targetsFrom index)) (o : AssemblyOptions)
    (i : Instruction) :
    Lowering.instruction c.id (b.openInstruction o i index).toLoop i = c.lowering index i := by
  rw [(inside_openInstruction h o i).toLoop, length_targetsFrom, lowering]

/-- An instruction with a lowering takes a body from its own place to that of the next instruction. -/
theorem writeInstruction_of_lowered (h : b.Inside (c.codeBefore o index) (c.targetsFrom index))
    (hi : c.instructions[index]? = some i) (hlowered : (c.lowering index i).outcome = .ok ()) :
    ∃ b', c.writeInstruction o b i index = .ok b' ∧
      b'.Inside (c.codeBefore o (index + 1)) (c.targetsFrom (index + 1)) := by
  have hinside := inside_openInstruction h o i
  refine ⟨(b.openInstruction o i index).append (c.lowering index i).code, ?_, ?_⟩
  · rw [writeInstruction, instruction_openInstruction h, Body.lower, hlowered]
    rfl
  · have hnest : ∀ depth, Wasm.nest _ depth (c.lowering index i).code = some depth :=
      Lowering.nest_instruction hlowered
    rw [codeBefore_succ hi, ownCode, ← List.append_assoc, ← List.append_assoc]
    exact hinside.append hnest

/-- An instruction without a lowering is named in the error. -/
private theorem writeInstruction_of_obstacle (h : b.Inside code (c.targetsFrom index)) {obstacle : Obstacle}
    (hlowering : (c.lowering index i).outcome = .error obstacle) :
    c.writeInstruction o b i index = .error ((Body.beginInstruction {} i.mnemonic i.address).error obstacle) := by
  have herror : (b.openInstruction o i index).error obstacle =
      (Body.beginInstruction {} i.mnemonic i.address).error obstacle := by
    unfold Body.openInstruction
    cases o.debugHooks <;> cases obstacle <;> rfl
  rw [writeInstruction, instruction_openInstruction h, Body.lower, hlowering, ← herror]
  rfl

private theorem write_append (c : Chunk) (o : AssemblyOptions) (b : Body) (first second : List (Instruction × Nat)) :
    c.write o b (first ++ second) = (c.write o b first).bind fun b => c.write o b second :=
  List.foldlM_append

private theorem take_zipIdx_succ (hi : c.instructions[index]? = some i) :
    c.instructions.zipIdx.take (index + 1) = c.instructions.zipIdx.take index ++ [(i, index)] := by
  rw [List.take_add_one, List.getElem?_zipIdx, hi]
  simp

/-- The first instructions of a chunk, all of which have lowerings, take a body from the head of the dispatch loop to
the place of the next instruction. -/
theorem write_take_of_lowered {count : Nat} (hcount : count ≤ c.instructions.length)
    (hlowered : ∀ index i, index < count → c.instructions[index]? = some i → (c.lowering index i).outcome = .ok ()) :
    ∃ b, c.write o (Body.openDispatch {} c.targets) (c.instructions.zipIdx.take count) = .ok b ∧
      b.Inside (c.codeBefore o count) (c.targetsFrom count) := by
  induction count with
  | zero =>
    refine ⟨_, rfl, ?_⟩
    rw [targetsFrom_zero]
    have hhead : c.codeBefore o 0 = DispatchLoop.head c.targets.toList := by simp [codeBefore]
    rw [hhead]
    exact Body.inside_openDispatch c.targets
  | succ count ih =>
    obtain ⟨b, hb, hinside⟩ := ih (Nat.le_of_succ_le hcount) fun index i hlt => hlowered index i
      (Nat.lt_succ_of_lt hlt)
    have hi : c.instructions[count]? = some c.instructions[count] := List.getElem?_eq_getElem hcount
    obtain ⟨b', hb', hinside'⟩ :=
      writeInstruction_of_lowered hinside hi (hlowered count _ (Nat.lt_succ_self count) hi)
    refine ⟨b', ?_, hinside'⟩
    rw [take_zipIdx_succ hi, write_append, hb]
    show (c.writeInstruction o b c.instructions[count] count).bind pure = .ok b'
    rw [hb']
    rfl

/-- What the first instructions have written, indices included, is how the whole body begins, and the functions that
they have imported are the first of all. -/
theorem prefix_of_write_take {count : Nat}
    (hlowered : ∀ index i, c.instructions[index]? = some i → (c.lowering index i).outcome = .ok ())
    (h : c.write o (Body.openDispatch {} c.targets) (c.instructions.zipIdx.take count) = .ok b) :
    b.imports <+: addImports [] (c.body o) ∧ b.code <+: link (addImports [] (c.body o)) (c.body o) := by
  obtain ⟨n, hn, htake⟩ : ∃ n ≤ c.instructions.length, c.instructions.zipIdx.take count =
    c.instructions.zipIdx.take n :=
    ⟨min count c.instructions.length, Nat.min_le_right _ _, by simp [List.take_eq_take_iff]⟩
  obtain ⟨b', hb', hinside⟩ := write_take_of_lowered (o := o) hn fun index i _ => hlowered index i
  rw [htake, hb'] at h
  cases h
  obtain ⟨himports, hcode⟩ := hinside.holds
  have hbody : c.body o = c.codeBefore o n ++ c.arrival o n := body_eq_codeBefore hn
  have hgrows : b.imports <+: addImports [] (c.body o) := by
    rw [hbody, addImports_append, himports]
    exact prefix_addImports _ _
  refine ⟨hgrows, ?_⟩
  have hlinked : b.code = link (addImports [] (c.body o)) (c.codeBefore o n) := by
    rw [hcode]
    refine (link_of_isPrefix hgrows fun f hf => ?_).symm
    rw [himports]
    exact mem_addImports hf
  have happend : link (addImports [] (c.body o)) (c.body o) =
      b.code ++ link (addImports [] (c.body o)) (c.arrival o n) := by
    rw [hlinked, link, link, link, ← List.map_append, ← hbody]
  rw [happend]
  exact List.prefix_append _ _

/-- Behind the last instruction the loop is closed, and the body is the layout of the chunk. -/
private theorem holds_closeDispatch
    (h : b.Inside (c.codeBefore o c.instructions.length) (c.targetsFrom c.instructions.length)) :
    b.closeDispatch.Holds (c.body o) := by
  have htail : c.arrival o c.instructions.length =
      List.replicate ((c.targetsFrom c.instructions.length).length + 1) .close := by
    rw [arrival, List.drop_length, emitFrom, DispatchLoop.tail, List.replicate_succ', targetsFrom,
      List.countP_eq_length_filter]
  rw [body_eq_codeBefore (Nat.le_refl _), htail]
  exact h.closeDispatch

/-- A chunk whose instructions all have lowerings becomes the module of its layout. -/
theorem assemble_of_lowered (hmemory : o.validMemory = true)
    (hlowered : ∀ index i, c.instructions[index]? = some i → (c.lowering index i).outcome = .ok ()) :
    c.assemble o = .ok (assembleCode o (c.body o)) := by
  obtain ⟨b, hb, hinside⟩ :=
    write_take_of_lowered (o := o) (Nat.le_refl c.instructions.length) fun index i _ => hlowered index i
  have hall : c.instructions.zipIdx.take c.instructions.length = c.instructions.zipIdx :=
    List.take_of_length_le (by simp)
  have hholds := holds_closeDispatch hinside
  rw [hall] at hb
  rw [assemble, if_pos hmemory, hb, assembleCode, ← hholds.imports, ← hholds.code]
  rfl

/-- The first instruction without a lowering is reported. -/
theorem assemble_of_obstacle (hmemory : o.validMemory = true) {obstacle : Obstacle}
    (hi : c.instructions[index]? = some i) (hlowering : (c.lowering index i).outcome = .error obstacle)
    (hlowered : ∀ k j, k < index → c.instructions[k]? = some j → (c.lowering k j).outcome = .ok ()) :
    c.assemble o = .error ((Body.beginInstruction {} i.mnemonic i.address).error obstacle) := by
  obtain ⟨hlt, -⟩ := List.getElem?_eq_some_iff.1 hi
  obtain ⟨b, hb, hinside⟩ := write_take_of_lowered (o := o) (Nat.le_of_lt hlt) hlowered
  have hwrite : c.write o (Body.openDispatch {} c.targets) (c.instructions.zipIdx.take (index + 1)) =
      .error ((Body.beginInstruction {} i.mnemonic i.address).error obstacle) := by
    rw [take_zipIdx_succ hi, write_append, hb]
    show (c.writeInstruction o b i index).bind pure = _
    rw [writeInstruction_of_obstacle hinside hlowering]
    rfl
  rw [assemble, if_pos hmemory, ← List.take_append_drop (index + 1) c.instructions.zipIdx, write_append, hwrite]
  rfl

/-- Up to some index, all instructions have lowerings or there is a first one without. -/
private theorem lowered_or_obstacle (c : Chunk) (count : Nat) :
    (∀ k j, k < count → c.instructions[k]? = some j → (c.lowering k j).outcome = .ok ()) ∨
      ∃ index i obstacle, c.instructions[index]? = some i ∧ (c.lowering index i).outcome = .error obstacle ∧
        ∀ k j, k < index → c.instructions[k]? = some j → (c.lowering k j).outcome = .ok () := by
  induction count with
  | zero => exact .inl fun _ _ hk => absurd hk (Nat.not_lt_zero _)
  | succ count ih =>
    refine ih.elim (fun hlowered => ?_) .inr
    cases hi : c.instructions[count]? with
    | none =>
      refine .inl fun k j hk hj => hlowered k j (Nat.lt_of_le_of_ne (Nat.le_of_lt_succ hk) ?_) hj
      rintro rfl
      rw [hi] at hj
      cases hj
    | some i =>
      cases hlowering : (c.lowering count i).outcome with
      | error obstacle => exact .inr ⟨count, i, obstacle, hi, hlowering, hlowered⟩
      | ok =>
        refine .inl fun k j hk hj => ?_
        rcases Nat.lt_succ_iff_lt_or_eq.1 hk with hlt | rfl
        · exact hlowered k j hlt hj
        · rw [hi] at hj
          cases hj
          exact hlowering

/-- A chunk is refused for its bounds on memory or for its first instruction without a lowering, or else it becomes
the module of its layout. -/
theorem assemble_cases (c : Chunk) (o : AssemblyOptions) :
    (o.validMemory = false ∧ c.assemble o = .error (.invalidMemoryLimits o.minPages o.maxPages)) ∨
    (o.validMemory = true ∧ ∃ index i obstacle, c.instructions[index]? = some i ∧
      (c.lowering index i).outcome = .error obstacle ∧
      (∀ k j, k < index → c.instructions[k]? = some j → (c.lowering k j).outcome = .ok ()) ∧
      c.assemble o = .error ((Body.beginInstruction {} i.mnemonic i.address).error obstacle)) ∨
    (o.validMemory = true ∧
      (∀ index i, c.instructions[index]? = some i → (c.lowering index i).outcome = .ok ()) ∧
      c.assemble o = .ok (assembleCode o (c.body o))) := by
  cases hmemory : o.validMemory with
  | false =>
    refine .inl ⟨rfl, ?_⟩
    rw [assemble, hmemory]
    rfl
  | true =>
    refine .inr ?_
    rcases lowered_or_obstacle c c.instructions.length with hlowered | ⟨index, i, obstacle, hi, hlowering, hbefore⟩
    · have hall : ∀ index i, c.instructions[index]? = some i → (c.lowering index i).outcome = .ok () :=
        fun index i hi => hlowered index i (List.getElem?_eq_some_iff.1 hi).1 hi
      exact .inr ⟨rfl, hall, assemble_of_lowered hmemory hall⟩
    · exact .inl ⟨rfl, index, i, obstacle, hi, hlowering, hbefore, assemble_of_obstacle hmemory hi hlowering hbefore⟩

/-- An assembled chunk is the module of its layout, its bounds on memory are in order, and all its instructions have
lowerings. -/
theorem of_assemble {a : Assembled} (h : c.assemble o = .ok a) :
    o.validMemory = true ∧
      (∀ index i, c.instructions[index]? = some i → (c.lowering index i).outcome = .ok ()) ∧
      a = assembleCode o (c.body o) := by
  rcases assemble_cases c o with ⟨-, herror⟩ | ⟨-, _, _, _, -, -, -, herror⟩ | ⟨hmemory, hlowered, hok⟩
  · rw [herror] at h
    cases h
  · rw [herror] at h
    cases h
  · rw [hok] at h
    cases h
    exact ⟨hmemory, hlowered, rfl⟩

/-- A chunk that can be assembled at all is assembled to its layout, linked with the functions that it calls. -/
theorem assemble_of_isOk (h : (c.assemble o).isOk = true) : c.assemble o = .ok (assembleCode o (c.body o)) := by
  cases hassemble : c.assemble o with
  | error e =>
    rw [hassemble] at h
    cases h
  | ok a => rw [(of_assemble hassemble).2.2]

/-- The body of an assembled chunk is its layout, linked with the functions that the module imports. -/
theorem body_of_assemble {a : Assembled} (h : c.assemble o = .ok a) : a.wasm.body = link a.imports (c.body o) := by
  obtain ⟨-, -, rfl⟩ := of_assemble h
  rfl

end Chunk

end Ia32Wasm
