import Ia32Wasm.Proofs.Assembly.Simulation
import Ia32Wasm.Proofs.Lowering.Links

/-!
# Transfers between modules

A linked call puts a constant into `link` and calls a function.  Wherever the body of an assembled chunk has one, it
is there for an instruction of the chunk that transfers control by calling a chunk: the function is the entry of the
module of that chunk, and the constant is the index of the instruction to begin at.  Every such instruction has one.
-/

namespace Ia32Wasm

open Machine (Slot)
open Wasm (Instr)
open X86 (Instruction)

/-- The imported function with the given index; functions are numbered in the order of the imports. -/
def Wasm.Module.function? (m : Wasm.Module) (index : Nat) : Option Wasm.Import :=
  (m.imports.filter fun i => i.kind = .function)[index]?

/-- The import of the entry of a chunk's module. -/
def chunkEntry (chunk : UInt32) : Wasm.Import := ⟨Lowering.chunkLibrary chunk, Lowering.entryName, .function⟩

/-- A call of a function with a word in `link`. -/
def linkedCall (word : UInt32) (f : Nat) : List (Instr Nat) :=
  [.i32Const word, .globalSet Slot.link.index, .call f]

/-- The module `a` of the chunk `c` has a linked call between `before` and `after`.  It calls the chunk `other`, and
it stands in the code of the instruction `k`, which transfers control there. -/
structure Chunk.CallsAt (c : Chunk) (o : AssemblyOptions) (a : Assembled) (k : Nat) (other word : UInt32)
    (before : List (Instr Nat)) (f : Nat) (after : List (Instr Nat)) : Prop where
  body : a.wasm.body = before ++ linkedCall word f ++ after
  callee : a.wasm.function? f = some (chunkEntry other)
  within : ∃ i own behind, c.instructions[k]? = some i ∧ i.CallsChunk c.id other word ∧
    c.ownCode o k i = own ++ Lowering.callChunk other word ++ behind ∧
    after = link a.imports (behind ++ c.arrival o (k + 1))

/-! ### Imports -/

/-- The name of a module tells the number of its chunk, which can be read from its digits. -/
theorem chunkEntry_injective {m n : UInt32} (h : chunkEntry m = chunkEntry n) : m = n := by
  have hname : "chunk" ++ toString m.toNat = "chunk" ++ toString n.toNat := congrArg Wasm.Import.library h
  have hdigits : Nat.toDigits 10 m.toNat = Nat.toDigits 10 n.toNat := by
    rw [String.append_right_inj, Nat.toString_eq_ofList_toDigits, Nat.toString_eq_ofList_toDigits] at hname
    exact String.ofList_injective hname
  have hvalue := congrArg (Nat.ofDigitChars 10 · 0) hdigits
  simp only [Nat.ofDigitChars_ten_toDigits] at hvalue
  exact UInt32.toNat_inj.1 hvalue

/-- An imported function has the index of its calls. -/
theorem function?_of_mem_imports (o : AssemblyOptions) {code : Code} {f : FunctionImport}
    (hmem : f ∈ addImports [] code) :
    (assembleCode o code).wasm.function? (Callee.index (assembleCode o code).imports (.imported f)) =
      some f.toImport := by
  have hfunctions : (assembleCode o code).wasm.imports.filter (fun i => i.kind = .function) =
      hookImports ++ (addImports [] code).map FunctionImport.toImport := by
    have himports : ((addImports [] code).map FunctionImport.toImport).filter (fun i => i.kind = .function) =
        (addImports [] code).map FunctionImport.toImport := by
      refine List.filter_eq_self.2 fun i hi => ?_
      obtain ⟨g, -, rfl⟩ := List.mem_map.1 hi
      rfl
    have hrest : (memoryImport o :: slotImports ++ hookImports).filter (fun i => i.kind = .function) = hookImports :=
      rfl
    simp only [assembleCode, Assembled.ofBody, List.filter_append, himports, hrest]
  have hindex : (addImports [] code)[(addImports [] code).idxOf f]? = some f := by
    rw [List.getElem?_eq_getElem (List.idxOf_lt_length_of_mem hmem), List.getElem_idxOf]
  rw [Wasm.Module.function?, hfunctions, Callee.index, List.getElem?_append_right (by simp [hookImports])]
  simp [hookImports, assembleCode, Assembled.ofBody, hindex]

/-- A called function is imported under the index of its calls. -/
private theorem function?_assembleCode (o : AssemblyOptions) {code : Code} {f : FunctionImport}
    (h : .call (.imported f) ∈ code) :
    (assembleCode o code).wasm.function? (Callee.index (assembleCode o code).imports (.imported f)) =
      some f.toImport :=
  function?_of_mem_imports o (mem_addImports h)

/-- Linking changes callees only, so a call behind a constant that is written to a global is found where it was. -/
theorem split_of_link {imports : List FunctionImport} {code : Code} {before after : List (Instr Nat)} {word : UInt32}
    {global f : Nat} (h : link imports code = before ++ .i32Const word :: .globalSet global :: .call f :: after) :
    ∃ before' callee after', code = before' ++ .i32Const word :: .globalSet global :: .call callee :: after' ∧
      before = link imports before' ∧ f = Callee.index imports callee ∧ after = link imports after' := by
  obtain ⟨before', triple, rfl, rfl, htriple⟩ := List.map_eq_append_iff.1 h
  obtain ⟨x, pair, rfl, hx, hpair⟩ := List.map_eq_cons_iff.1 htriple
  obtain ⟨y, call, rfl, hy, hcall⟩ := List.map_eq_cons_iff.1 hpair
  obtain ⟨z, after', rfl, hz, rfl⟩ := List.map_eq_cons_iff.1 hcall
  cases x <;> cases hx
  cases y <;> cases hy
  cases z <;> cases hz
  exact ⟨before', _, after', rfl, rfl, rfl, rfl⟩

/-! ### Places in the code of a chunk -/

namespace Chunk

variable {c : Chunk} {o : AssemblyOptions}

theorem globalSet_not_mem_head (global : Nat) (targets : List UInt32) :
    .globalSet global ∉ DispatchLoop.head targets := fun h =>
  DispatchLoop.forall_mem_head (P := (.globalSet global ≠ ·)) targets (by simp) (by simp)
    (by simp [getSlot]) (by simp)
    (by simp) (by simp) _ h rfl

theorem globalSet_not_mem_landing (global : Nat) (targets : List UInt32) (index : Nat) :
    .globalSet global ∉ DispatchLoop.landing targets index := fun h =>
  DispatchLoop.forall_mem_landing (P := (.globalSet global ≠ ·)) targets index (by simp) _ h rfl

theorem globalSet_not_mem_tail (global : Nat) (targets : List UInt32) (count : Nat) :
    .globalSet global ∉ DispatchLoop.tail targets count := fun h =>
  DispatchLoop.forall_mem_tail (P := (.globalSet global ≠ ·)) targets count (by simp) _ h rfl

/-- Every write of `link` behind the landing of an instruction is in the code of that instruction or of a later
one. -/
private theorem write_in_emitFrom {index : Nat} {instructions : List Instruction} {before after : Code}
    (hrest : c.instructions.drop index = instructions)
    (h : c.emitFrom o index instructions = before ++ setSlot .link :: after) :
    ∃ k i own behind, c.instructions[k]? = some i ∧ own <:+ before ∧
      c.ownCode o k i = own ++ setSlot .link :: behind ∧ after = behind ++ c.arrival o (k + 1) := by
  induction instructions generalizing index before with
  | nil =>
    refine absurd ?_ (globalSet_not_mem_tail Slot.link.index c.targets.toList c.instructions.length)
    rw [emitFrom] at h
    rw [h]
    simp [setSlot]
  | cons i rest ih =>
    have hget : c.instructions[index]? = some i := by
      rw [← List.head?_drop, hrest]
      rfl
    have hdrop : c.instructions.drop (index + 1) = rest := by
      rw [← List.tail_drop, hrest]
      rfl
    rw [emitFrom] at h
    obtain ⟨front, rfl, hbehind⟩ := Lowering.split_append_of_not_mem (globalSet_not_mem_landing _ _ index) h
    rcases Lowering.split_append hbehind with ⟨behind, hown, rfl⟩ | ⟨front', rfl, hlater⟩
    · exact ⟨index, i, front, behind, hget, List.suffix_append _ _, hown, by rw [arrival, hdrop]⟩
    · obtain ⟨k, j, own, behind, hk, hsuffix, hown, hafter⟩ := ih hdrop hlater
      rw [← List.append_assoc]
      exact ⟨k, j, own, behind, hk, hsuffix.trans (List.suffix_append _ _), hown, hafter⟩

/-- Every write of `link` in the body of a chunk is in the code of an instruction. -/
private theorem write_in_instruction {before after : Code} (h : c.body o = before ++ setSlot .link :: after) :
    ∃ k i own behind, c.instructions[k]? = some i ∧ own <:+ before ∧
      c.ownCode o k i = own ++ setSlot .link :: behind ∧ after = behind ++ c.arrival o (k + 1) := by
  obtain ⟨front, rfl, harrival⟩ := Lowering.split_append_of_not_mem (globalSet_not_mem_head _ _) h
  obtain ⟨k, i, own, behind, hk, hsuffix, hown, hafter⟩ := write_in_emitFrom rfl harrival
  exact ⟨k, i, own, behind, hk, hsuffix.trans (List.suffix_append _ _), hown, hafter⟩

private theorem linkWrites_ownCode {k : Nat} {i : Instruction} (hnames : ¬ Lowering.OperandsNameLink i)
    (h : (c.lowering k i).outcome = .ok ()) :
    Lowering.LinkWrites (Lowering.Transfers c.id i) (c.ownCode o k i) := by
  refine Lowering.linkWrites_append (Lowering.linkWrites_of_not_mem ?_) (Lowering.linkWrites_instruction hnames h)
  unfold report
  split <;> simp [debugHook, setSlot, callHook, Slot.index]

/-- A call behind a write of `link` is the call of a chunk by an instruction that transfers control there. -/
private theorem callChunk_of_body {before after : Code} {word : UInt32} {callee : Callee}
    (hlowered : ∀ k i, c.instructions[k]? = some i → (c.lowering k i).outcome = .ok ())
    (hnames : ∀ i ∈ c.instructions, ¬ Lowering.OperandsNameLink i)
    (h : c.body o = before ++ .i32Const word :: setSlot .link :: .call callee :: after) :
    ∃ k i other own behind, c.instructions[k]? = some i ∧ i.CallsChunk c.id other word ∧
      callee = .imported ⟨Lowering.chunkLibrary other, Lowering.entryName⟩ ∧
      c.ownCode o k i = own ++ Lowering.callChunk other word ++ behind ∧ after = behind ++ c.arrival o (k + 1) := by
  have hwrite : c.body o = (before ++ [.i32Const word]) ++ setSlot .link :: .call callee :: after := by
    rw [h, List.append_assoc]
    rfl
  obtain ⟨k, i, own, behind, hk, hsuffix, hown, hafter⟩ := write_in_instruction hwrite
  obtain ⟨front, word', next, behind', rfl, rfl, htransfers⟩ :=
    linkWrites_ownCode (hnames i (List.mem_of_getElem? hk)) (hlowered k i hk) own behind hown
  -- The code of the instruction ends where the write is found in the body, so both have the same words around it.
  have hword : word' = word := by
    obtain ⟨outside, houtside⟩ := hsuffix
    have hlast := congrArg List.getLast? houtside
    rw [← List.append_assoc, List.getLast?_concat, List.getLast?_concat] at hlast
    cases hlast
    rfl
  rw [List.cons_append, List.cons.injEq] at hafter
  obtain ⟨rfl, rfl⟩ := hafter
  subst hword
  rcases htransfers with ⟨depth, hnext⟩ | ⟨other, hnext, hcalls⟩
  · cases hnext
  · cases hnext
    exact ⟨k, i, other, front, behind', hk, hcalls, rfl, by rw [hown]; simp [Lowering.callChunk, callImport], rfl⟩

/-- A linked call in the module of a chunk belongs to an instruction that transfers control to a chunk. -/
theorem callsAt_of_body {a : Assembled} {before after : List (Instr Nat)} {word : UInt32} {f : Nat}
    (hassemble : c.assemble o = .ok a) (hnames : ∀ i ∈ c.instructions, ¬ Lowering.OperandsNameLink i)
    (h : a.wasm.body = before ++ linkedCall word f ++ after) :
    ∃ k other, c.CallsAt o a k other word before f after := by
  obtain ⟨-, hlowered, rfl⟩ := of_assemble hassemble
  rw [List.append_assoc] at h
  obtain ⟨before', callee, after', hsplit, rfl, rfl, rfl⟩ := split_of_link h
  rw [← List.append_assoc] at h
  obtain ⟨k, i, other, own, behind, hk, hcalls, rfl, hown, rfl⟩ := callChunk_of_body hlowered hnames hsplit
  have hmem : .call (.imported ⟨Lowering.chunkLibrary other, Lowering.entryName⟩) ∈ c.body o := by
    rw [hsplit]
    simp
  exact ⟨k, other, h, function?_assembleCode o hmem, i, own, behind, hk, hcalls, hown, rfl⟩

/-- An instruction that transfers control to a chunk has a linked call. -/
theorem exists_callsAt {a : Assembled} {k : Nat} {i : Instruction} {other word : UInt32}
    (hassemble : c.assemble o = .ok a) (hk : c.instructions[k]? = some i) (hcalls : i.CallsChunk c.id other word) :
    ∃ before f after, c.CallsAt o a k other word before f after := by
  obtain ⟨-, hlowered, rfl⟩ := of_assemble hassemble
  obtain ⟨own, behind, hown⟩ := Lowering.callChunk_infix_instruction (hlowered k i hk) hcalls
  obtain ⟨front, hfront⟩ := codeFrom_suffix_body (c := c) (o := o) k
  have hownCode : c.ownCode o k i = (report o k ++ own) ++ Lowering.callChunk other word ++ behind := by
    rw [ownCode, lowering, ← hown]
    simp only [List.append_assoc]
  have hbody : c.body o = (front ++ (report o k ++ own)) ++ Lowering.callChunk other word ++
      (behind ++ c.arrival o (k + 1)) := by
    rw [← hfront, codeFrom_of_getElem? hk, hownCode]
    simp only [List.append_assoc]
  have hmem : .call (.imported ⟨Lowering.chunkLibrary other, Lowering.entryName⟩) ∈ c.body o := by
    rw [hbody]
    simp [Lowering.callChunk, callImport]
  have hlinked := congrArg (link (assembleCode o (c.body o)).imports) hbody
  rw [link, link, List.map_append, List.map_append] at hlinked
  exact ⟨_, _, _, hlinked, function?_assembleCode o hmem, i, _, behind, hk, hcalls, hownCode, rfl⟩

end Chunk

end Ia32Wasm
