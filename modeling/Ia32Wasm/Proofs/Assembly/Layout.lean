import Ia32Wasm.Assembly.Chunk
import Ia32Wasm.Proofs.Lowering.Control

/-!
# The layout of a chunk's code

The code of a chunk is the head of its dispatch loop and then, for each instruction, its landing and its own code.
`arrival index` is the code from the landing of an instruction on and `codeFrom index` the code behind that landing.

* At each instruction the open blocks are those of the later targets, and the block of a target ends just before
  the code of its instruction (`afterClose_arrival`).
* The number of instructions left tells which instructions of the chunk begin there (`marksFrom`).
-/

namespace Ia32Wasm

open Machine (Slot)
open Wasm (Label afterClose nest nestStep)
open X86 (Instruction)

/-! ### The instructions of the dispatch loop -/

namespace DispatchLoop

/-- The number of blocks that are open at an instruction: one for each later target. -/
def openBlocks (targets : List UInt32) (index : Nat) : Nat :=
  targets.countP fun target => index < target.toNat

/-- The end of the block of a target, just before its instruction. -/
def landing (targets : List UInt32) (index : Nat) : Code :=
  if targets.any fun target => target.toNat == index then [.close] else []

/-- The end of the loop after `count` instructions, with the blocks of targets that there is no instruction for. -/
def tail (targets : List UInt32) (count : Nat) : Code :=
  List.replicate (targets.countP fun target => count ≤ target.toNat) .close ++ [.close]

variable {P : Wasm.Instr Callee → Prop}

/-- What holds of loops, blocks, comparisons and branches holds of the head of a dispatch loop. -/
theorem forall_mem_head (targets : List UInt32) (hloop : P .loop) (hblock : P .block) (hget : P (getSlot .link))
    (hconst : ∀ word, P (.i32Const word)) (heq : P (.op .i32Eq)) (hbranch : ∀ depth, P (.brIf depth)) :
    ∀ instr ∈ head targets, P instr := by
  intro instr hinstr
  simp only [head, tests, List.mem_append, List.mem_cons, List.mem_flatten, List.mem_mapIdx] at hinstr
  rcases hinstr with (rfl | h) | ⟨test, ⟨k, hk, rfl⟩, h⟩
  · exact hloop
  · rw [List.eq_of_mem_replicate h]
    exact hblock
  · simp only [List.mem_cons, List.not_mem_nil, or_false] at h
    rcases h with rfl | rfl | rfl | rfl
    · exact hget
    · exact hconst _
    · exact heq
    · exact hbranch _

theorem forall_mem_landing (targets : List UInt32) (index : Nat) (hclose : P .close) :
    ∀ instr ∈ landing targets index, P instr := by
  unfold landing
  split
  · exact List.forall_mem_singleton.2 hclose
  · exact List.forall_mem_nil _

theorem forall_mem_tail (targets : List UInt32) (count : Nat) (hclose : P .close) :
    ∀ instr ∈ tail targets count, P instr := by
  intro instr hinstr
  rcases List.mem_append.1 hinstr with h | h
  · rw [List.eq_of_mem_replicate h]
    exact hclose
  · rw [List.mem_singleton.1 h]
    exact hclose

end DispatchLoop

namespace Chunk

variable (c : Chunk) (o : AssemblyOptions)

/-- The report of an instruction to the debugger, if there are reports. -/
def report (o : AssemblyOptions) (index : Nat) : Code := if o.debugHooks then debugHook index else []

/-- The targets from an index on. -/
def targetsFrom (index : Nat) : List UInt32 := c.targets.toList.filter fun target => index ≤ target.toNat

/-- The code of an instruction alone, with `targetsFrom (index + 1)` open around it. -/
def lowering (index : Nat) (i : Instruction) : Lowering Unit :=
  Lowering.instruction c.id (DispatchLoop.openBlocks c.targets.toList index) i

/-- The code of an instruction behind its landing. -/
def ownCode (index : Nat) (i : Instruction) : Code := report o index ++ (c.lowering index i).code

/-- The code of a rest of the instructions, of which the first has the given index, up to the end. -/
def emitFrom (index : Nat) : List Instruction → Code
  | [] => DispatchLoop.tail c.targets.toList c.instructions.length
  | i :: rest => DispatchLoop.landing c.targets.toList index ++ (c.ownCode o index i ++ emitFrom (index + 1) rest)

/-- The code from the landing of an instruction on. -/
def arrival (index : Nat) : Code := c.emitFrom o index (c.instructions.drop index)

/-- The code in front of the landing of an instruction. -/
def codeBefore (index : Nat) : Code :=
  DispatchLoop.head c.targets.toList ++ (c.instructions.take index).zipIdx.flatMap fun (i, k) =>
    DispatchLoop.landing c.targets.toList k ++ c.ownCode o k i

/-- The code behind the landing of an instruction. -/
def codeFrom (index : Nat) : Code :=
  (c.arrival o index).drop (DispatchLoop.landing c.targets.toList index).length

/-- The code of the chunk. -/
def body : Code := DispatchLoop.head c.targets.toList ++ c.arrival o 0

/-- The constructs that are open in front of the landing of an instruction: the blocks of the targets from there on,
and the dispatch loop. -/
def labelsFrom (index : Nat) : List (Label Callee) :=
  (c.targetsFrom index).map (fun target => ⟨c.codeFrom o target.toNat, 0⟩) ++ [⟨c.body o, 0⟩]

/-- The number of instructions of the body that are left where the code of an instruction begins. -/
def position (index : Nat) : Nat := (c.codeFrom o index).length

/-- The instructions from an index on whose code begins where `left` instructions of the body are left. -/
def marksFrom (index left : Nat) : List Nat :=
  (List.range' index (c.instructions.length - index)).filter fun k => c.position o k = left

/-- Every instruction of the chunk has a lowering, and the targets are instructions of the chunk and include those of
its jumps. -/
structure Dispatchable : Prop where
  lowered : ∀ index i, c.instructions[index]? = some i → (c.lowering index i).outcome = .ok ()
  inside : ∀ target ∈ c.targets.toList, target.toNat < c.instructions.length
  jumps : ∀ i ∈ c.instructions, ∀ target, i.control = .goto target → target ∈ c.targets.toList

/-! ### Targets -/

/-- In an ascending list, the members from one of them on begin with it. -/
private theorem filter_ascending {l : List UInt32} (hl : l.Pairwise (· < ·)) {target : UInt32} (h : target ∈ l) :
    l.filter (fun t => target.toNat ≤ t.toNat) = target :: l.filter (fun t => target.toNat + 1 ≤ t.toNat) := by
  induction l with
  | nil => cases h
  | cons first rest ih =>
    obtain ⟨hfirst, hrest⟩ := List.pairwise_cons.1 hl
    rcases List.mem_cons.1 h with rfl | hmem
    · have hlater : ∀ t ∈ rest, target.toNat + 1 ≤ t.toNat := fun t ht => UInt32.lt_iff_toNat_lt.1 (hfirst t ht)
      have h₁ : rest.filter (fun t => target.toNat ≤ t.toNat) = rest :=
        List.filter_eq_self.2 fun t ht => by simpa using Nat.le_of_succ_le (hlater t ht)
      have h₂ : rest.filter (fun t => target.toNat + 1 ≤ t.toNat) = rest :=
        List.filter_eq_self.2 fun t ht => by simpa using hlater t ht
      rw [List.filter_cons_of_pos (by simp), List.filter_cons_of_neg (by simp), h₁, h₂]
    · have hlt : first.toNat < target.toNat := UInt32.lt_iff_toNat_lt.1 (hfirst target hmem)
      rw [List.filter_cons_of_neg (by simpa using hlt), List.filter_cons_of_neg (by simp; omega), ih hrest hmem]

/-- An instruction that is a target is the first target from itself on. -/
theorem targetsFrom_of_mem {target : UInt32} (h : target ∈ c.targets.toList) :
    c.targetsFrom target.toNat = target :: c.targetsFrom (target.toNat + 1) :=
  filter_ascending c.targets.ascending h

/-- An instruction that is no target can be left out. -/
theorem targetsFrom_of_not_mem {index : Nat} (h : ∀ target ∈ c.targets.toList, target.toNat ≠ index) :
    c.targetsFrom index = c.targetsFrom (index + 1) := by
  refine List.filter_congr fun target ht => ?_
  have := h target ht
  simp only [decide_eq_decide]
  omega

private theorem drop_ascending {l : List UInt32} (hl : l.Pairwise (· < ·)) {d : Nat} {target : UInt32}
    (h : l[d]? = some target) : l.drop (d + 1) = l.filter fun t => target.toNat + 1 ≤ t.toNat := by
  induction l generalizing d with
  | nil => cases h
  | cons first rest ih =>
    obtain ⟨hfirst, hrest⟩ := List.pairwise_cons.1 hl
    cases d with
    | zero =>
      rw [List.getElem?_cons_zero, Option.some.injEq] at h
      subst h
      have hlater : ∀ t ∈ rest, first.toNat + 1 ≤ t.toNat := fun t ht => UInt32.lt_iff_toNat_lt.1 (hfirst t ht)
      rw [List.filter_cons_of_neg (by simp), List.filter_eq_self.2 fun t ht => by simpa using hlater t ht]
      rfl
    | succ d =>
      rw [List.getElem?_cons_succ] at h
      have hlt : first.toNat < target.toNat :=
        UInt32.lt_iff_toNat_lt.1 (hfirst target (List.mem_of_getElem? h))
      rw [List.drop_succ_cons, ih hrest h, List.filter_cons_of_neg (by simp; omega)]

theorem targetsFrom_zero : c.targetsFrom 0 = c.targets.toList := by simp [targetsFrom]

/-- Behind a target in the list of targets are those of later instructions. -/
theorem drop_targets {d : Nat} {target : UInt32} (h : c.targets.toList[d]? = some target) :
    c.targets.toList.drop (d + 1) = c.targetsFrom (target.toNat + 1) :=
  drop_ascending c.targets.ascending h

/-- There are as many targets behind an instruction as blocks that are open in its code. -/
theorem length_targetsFrom (index : Nat) :
    (c.targetsFrom (index + 1)).length = DispatchLoop.openBlocks c.targets.toList index :=
  List.countP_eq_length_filter.symm

/-- A block is closed in front of a target. -/
theorem landing_of_mem {target : UInt32} (h : target ∈ c.targets.toList) :
    DispatchLoop.landing c.targets.toList target.toNat = [.close] := by
  unfold DispatchLoop.landing
  rw [if_pos (List.any_eq_true.2 ⟨target, h, by simp⟩)]

/-- Nothing is closed in front of other instructions. -/
theorem landing_of_not_mem {index : Nat} (h : ∀ target ∈ c.targets.toList, target.toNat ≠ index) :
    DispatchLoop.landing c.targets.toList index = [] := by
  unfold DispatchLoop.landing
  rw [if_neg (by simpa using h)]

/-! ### Arrivals -/

variable {c o} {index : Nat} {i : Instruction}

/-- The code from the arrival at an instruction: where blocks end, its own and that of the instructions behind. -/
theorem arrival_of_getElem? (h : c.instructions[index]? = some i) :
    c.arrival o index =
      DispatchLoop.landing c.targets.toList index ++ (c.ownCode o index i ++ c.arrival o (index + 1)) := by
  obtain ⟨hlt, rfl⟩ := List.getElem?_eq_some_iff.1 h
  rw [arrival, List.drop_eq_getElem_cons hlt, emitFrom, arrival]

/-- The code from an instruction on begins with its own. -/
theorem codeFrom_of_getElem? (h : c.instructions[index]? = some i) :
    c.codeFrom o index = c.ownCode o index i ++ c.arrival o (index + 1) := by
  rw [codeFrom, arrival_of_getElem? h, List.drop_left]

theorem codeFrom_of_not_mem (h : ∀ target ∈ c.targets.toList, target.toNat ≠ index) :
    c.codeFrom o index = c.arrival o index := by
  rw [codeFrom, landing_of_not_mem c h]
  rfl

/-- What is written grows by the landing and the code of one instruction. -/
theorem codeBefore_succ (h : c.instructions[index]? = some i) :
    c.codeBefore o (index + 1) =
      c.codeBefore o index ++ (DispatchLoop.landing c.targets.toList index ++ c.ownCode o index i) := by
  obtain ⟨hlt, -⟩ := List.getElem?_eq_some_iff.1 h
  have hlength : (c.instructions.take index).length = index := List.length_take_of_le (Nat.le_of_lt hlt)
  rw [codeBefore, codeBefore, List.take_add_one, h, Option.toList_some, List.zipIdx_append, List.flatMap_append,
    hlength]
  simp

/-- The body is divided in front of the landing of each instruction. -/
theorem body_eq_codeBefore (h : index ≤ c.instructions.length) :
    c.body o = c.codeBefore o index ++ c.arrival o index := by
  induction index with
  | zero => simp [body, codeBefore]
  | succ index ih =>
    have hget : c.instructions[index]? = some c.instructions[index] := List.getElem?_eq_getElem h
    rw [ih (Nat.le_of_lt h), arrival_of_getElem? hget, codeBefore_succ hget]
    simp only [List.append_assoc]

theorem length_arrival_lt_body (c : Chunk) (o : AssemblyOptions) : (c.arrival o 0).length < (c.body o).length := by
  simp only [body, DispatchLoop.head, List.length_append, List.length_cons]
  omega

/-- The code behind the landing of an instruction ends the body. -/
theorem codeFrom_suffix_body (index : Nat) : c.codeFrom o index <:+ c.body o := by
  have harrival : c.arrival o index <:+ c.arrival o 0 := by
    induction index with
    | zero => exact List.suffix_rfl
    | succ index ih =>
      refine List.IsSuffix.trans ?_ ih
      cases h : c.instructions[index]? with
      | none =>
        rw [List.getElem?_eq_none_iff] at h
        rw [arrival, arrival, List.drop_eq_nil_of_le h, List.drop_eq_nil_of_le (Nat.le_succ_of_le h)]
        exact List.suffix_rfl
      | some i =>
        rw [arrival_of_getElem? h, ← List.append_assoc]
        exact List.suffix_append _ _
  exact (List.drop_suffix _ _).trans (harrival.trans (List.suffix_append _ _))

private theorem length_arrival_succ_le : (c.arrival o (index + 1)).length ≤ (c.arrival o index).length := by
  cases h : c.instructions[index]? with
  | none =>
    rw [List.getElem?_eq_none_iff] at h
    rw [arrival, arrival, List.drop_eq_nil_of_le h, List.drop_eq_nil_of_le (Nat.le_succ_of_le h)]
    exact Nat.le_refl _
  | some i =>
    rw [arrival_of_getElem? h]
    simp only [List.length_append]
    omega

private theorem length_arrival_antitone {index' : Nat} (h : index ≤ index') :
    (c.arrival o index').length ≤ (c.arrival o index).length := by
  induction h with
  | refl => exact Nat.le_refl _
  | step _ ih => exact Nat.le_trans length_arrival_succ_le ih

theorem position_le : c.position o index ≤ (c.arrival o index).length := by
  simp [position, codeFrom]

/-- Where the code of an instruction begins, that code and all behind it are left. -/
theorem position_of_getElem? (h : c.instructions[index]? = some i) :
    c.position o index = (c.ownCode o index i).length + (c.arrival o (index + 1)).length := by
  rw [position, codeFrom_of_getElem? h, List.length_append]

/-- Later instructions are nearer to the end. -/
theorem position_antitone {index' : Nat} (hindex : index < c.instructions.length) (h : index ≤ index') :
    c.position o index' ≤ c.position o index := by
  rcases Nat.lt_or_eq_of_le h with hlt | rfl
  · have hposition := position_of_getElem? (o := o) (List.getElem?_eq_getElem hindex)
    calc
      c.position o index' ≤ (c.arrival o index').length := position_le
      _ ≤ (c.arrival o (index + 1)).length := length_arrival_antitone hlt
      _ ≤ c.position o index := by omega
  · exact Nat.le_refl _

/-! ### Marks -/

/-- Of the instructions from one on whose code begins at its position, it is the first. -/
theorem marksFrom_position (h : index < c.instructions.length) :
    c.marksFrom o index (c.position o index) = index :: c.marksFrom o (index + 1) (c.position o index) := by
  obtain ⟨k, hk⟩ : ∃ k, c.instructions.length - index = k + 1 := ⟨c.instructions.length - index - 1, by omega⟩
  have hk' : c.instructions.length - (index + 1) = k := by omega
  rw [marksFrom, marksFrom, hk, hk', List.range'_succ, List.filter_cons_of_pos (by simp)]

/-- Where more instructions are left than at some instruction, neither it nor a later one begins. -/
theorem marksFrom_eq_nil {left : Nat} (h : c.position o index < left) : c.marksFrom o index left = [] := by
  refine List.filter_eq_nil_iff.2 fun k hk => ?_
  obtain ⟨hle, hlt⟩ := List.mem_range'_1.1 hk
  have hpos : c.position o k ≤ c.position o index := position_antitone (by omega) hle
  simp only [decide_eq_true_eq]
  omega

/-- Where fewer instructions are left than at some instruction, only the later ones can begin. -/
theorem marksFrom_zero {left : Nat} (hindex : index < c.instructions.length) (h : left < c.position o index) :
    c.marksFrom o 0 left = c.marksFrom o (index + 1) left := by
  have hsplit : List.range' 0 (c.instructions.length - 0) =
      List.range' 0 (index + 1) ++ List.range' (index + 1) (c.instructions.length - (index + 1)) := by
    have hlength : c.instructions.length - 0 = (index + 1) + (c.instructions.length - (index + 1)) := by omega
    rw [hlength, ← List.range'_append_1, Nat.zero_add]
  have hnone : (List.range' 0 (index + 1)).filter (fun k => c.position o k = left) = [] := by
    refine List.filter_eq_nil_iff.2 fun k hk => ?_
    have hk : k < index + 1 := by simpa using List.mem_range'_1.1 hk
    have hle : c.position o index ≤ c.position o k := position_antitone (by omega) (by omega)
    simp only [decide_eq_true_eq]
    omega
  rw [marksFrom, hsplit, List.filter_append, hnone, List.nil_append, marksFrom]

/-! ### Blocks -/

theorem nest_report (o : AssemblyOptions) (index : Nat) : nest 0 0 (report o index) = some 0 := by
  unfold report
  split <;> simp [debugHook, nestStep, setSlot, callHook]

/-- The constructs in the code of an instruction are closed in it, and it branches to none outside the dispatch
loop. -/
private theorem nest_ownCode (h : (c.lowering index i).outcome = .ok ()) (depth : Nat) :
    nest (DispatchLoop.openBlocks c.targets.toList index + 1) depth (c.ownCode o index i) = some depth := by
  rw [ownCode, Wasm.nest_append, Wasm.nest_of_zero (nest_report o index)]
  exact Lowering.nest_instruction h depth

section Dispatchable

variable (hc : c.Dispatchable)

include hc

/-- Behind the last instruction there are no targets. -/
theorem targetsFrom_eq_nil (h : c.instructions.length ≤ index) : c.targetsFrom index = [] := by
  refine List.filter_eq_nil_iff.2 fun target ht => ?_
  have := hc.inside target ht
  simp only [decide_eq_true_eq]
  omega

private theorem arrival_end : c.arrival o c.instructions.length = [.close] := by
  have hnone : c.targets.toList.countP (fun target => c.instructions.length ≤ target.toNat) = 0 := by
    refine List.countP_eq_zero.2 fun target ht => ?_
    have := hc.inside target ht
    simp only [decide_eq_true_eq]
    omega
  rw [arrival, List.drop_length, emitFrom, DispatchLoop.tail, hnone]
  rfl

/-- Behind the last instruction only the loop is left to close. -/
theorem codeFrom_end : c.codeFrom o c.instructions.length = [.close] := by
  rw [codeFrom, arrival_end hc, landing_of_not_mem c fun target ht => Nat.ne_of_lt (hc.inside target ht)]
  rfl

/-- The arrival at a target closes its block and goes on with its code. -/
theorem arrival_of_mem {target : UInt32} (h : target ∈ c.targets.toList) :
    c.arrival o target.toNat = .close :: c.codeFrom o target.toNat := by
  have hlt : target.toNat < c.instructions.length := hc.inside target h
  have hget : c.instructions[target.toNat]? = some c.instructions[target.toNat] := List.getElem?_eq_getElem hlt
  rw [codeFrom_of_getElem? hget, arrival_of_getElem? hget, landing_of_mem c h]
  rfl

/-- The block of a target that is open at an instruction ends just before the code of the target's instruction. -/
theorem afterClose_arrival {j : Nat} {target : UInt32} (h : (c.targetsFrom index)[j]? = some target) :
    afterClose j (c.arrival o index) = c.codeFrom o target.toNat := by
  obtain ⟨k, hk⟩ : ∃ k, c.instructions.length - index = k := ⟨_, rfl⟩
  induction k generalizing index j with
  | zero =>
    rw [targetsFrom_eq_nil hc (by omega)] at h
    cases h
  | succ k ih =>
    have hlt : index < c.instructions.length := by omega
    have hget : c.instructions[index]? = some c.instructions[index] := List.getElem?_eq_getElem hlt
    have hown : ∀ j, afterClose j (c.ownCode o index c.instructions[index] ++ c.arrival o (index + 1)) =
        afterClose j (c.arrival o (index + 1)) :=
      fun j => Wasm.afterClose_append _ (nest_ownCode (hc.lowered index _ hget) j)
    by_cases hmem : ∃ t ∈ c.targets.toList, t.toNat = index
    · obtain ⟨t, ht, rfl⟩ := hmem
      rw [targetsFrom_of_mem c ht] at h
      cases j with
      | zero =>
        cases h
        rw [arrival_of_mem hc ht]
        rfl
      | succ j =>
        rw [List.getElem?_cons_succ] at h
        rw [arrival_of_getElem? hget, landing_of_mem c ht, List.singleton_append, afterClose, hown]
        exact ih h (by omega)
    · have hnot : ∀ t ∈ c.targets.toList, t.toNat ≠ index := fun t ht heq => hmem ⟨t, ht, heq⟩
      rw [targetsFrom_of_not_mem c hnot] at h
      rw [arrival_of_getElem? hget, landing_of_not_mem c hnot, List.nil_append, hown]
      exact ih h (by omega)

end Dispatchable

end Chunk

end Ia32Wasm
