import Ia32Wasm.Proofs.Assembly.Layout
import Ia32Wasm.Proofs.Wasm.Linking

/-!
# Entry into a dispatch loop

A dispatch loop opens one block for each target and then tests `link` for one target after the other; the test for a
target goes to the end of its block.

* With a word in `link` that is no target, execution passes all tests (`reaches_rest`), and else it comes to what
  stands behind the end of the block of the first test for the word (`reaches_block`).  Up to there all of the rest
  is left.
* The body of a chunk is a dispatch loop over its targets.  It enters at each of them, just before the code of the
  target's instruction (`Chunk.enters_body`).
-/

namespace Ia32Wasm

open Machine (Slot)
open Wasm (Config Host Instr Label Store afterClose nest nestStep)

/-- The second configuration comes later than the first one or is the same, and more than `n` instructions are left in
front of each step between them. -/
def Wasm.Config.ReachesAbove {κ ω : Type} (host : Host κ ω) (n : Nat) : Config κ ω → Config κ ω → Prop :=
  Relation.ReflTransGen fun d e => n < d.code.length ∧ d.Steps host e

/-- The test that goes to the end of the block at a depth if `link` holds the target. -/
def linkTest {κ : Type} (depth : Nat) (target : UInt32) : List (Instr κ) :=
  [.globalGet Slot.link.index, .i32Const target, .op .i32Eq, .brIf depth]

/-- A dispatch loop in front of the code that ends its blocks. -/
def dispatchLoop {κ : Type} (targets : List UInt32) (rest : List (Instr κ)) : List (Instr κ) :=
  .loop :: (List.replicate targets.length .block ++ ((targets.mapIdx linkTest).flatten ++ rest))

/-- The constructs that are open behind the tests: the blocks of the targets, and the loop. -/
def dispatchLabels {κ : Type} (targets : List UInt32) (rest : List (Instr κ)) : List (Label κ) :=
  (List.range targets.length).map (fun depth => ⟨afterClose depth rest, 0⟩) ++ [⟨dispatchLoop targets rest, 0⟩]

/-- The body is a dispatch loop that compares `link` with the word, and the block that the first such test goes to
ends right before the code. -/
def Enters {κ : Type} (body : List (Instr κ)) (word : UInt32) (code : List (Instr κ)) : Prop :=
  ∃ (targets : List UInt32) (rest : List (Instr κ)) (depth : Nat), body = dispatchLoop targets rest ∧
    targets[depth]? = some word ∧ word ∉ targets.take depth ∧ afterClose depth rest = code

/-! ### Execution -/

section Execution

variable {κ ω : Type} {host : Host κ ω} {n : Nat} {labels : List (Label κ)} {m : Wasm.Machine ω}
  {rest : List (Instr κ)}

/-- An execution that stays inside its constructs is an execution. -/
theorem Wasm.Config.ReachesAbove.reaches {d e : Config κ ω} (h : Config.ReachesAbove host n d e) :
    Config.Reaches host d e :=
  Relation.ReflTransGen.mono (fun _ _ hstep => hstep.2) d e h

/-- Blocks that are opened one after the other end behind the code that follows, the last of them first. -/
private theorem reaches_blocks (count : Nat) (hn : n ≤ rest.length) (hstack : m.stack = []) :
    Config.ReachesAbove host n ⟨List.replicate count .block ++ rest, labels, m⟩
      ⟨rest, (List.range count).map (fun depth => ⟨afterClose depth rest, 0⟩) ++ labels, m⟩ := by
  induction count generalizing labels with
  | zero => exact .refl
  | succ count ih =>
    have hend : afterClose 0 (List.replicate count .block ++ rest) = afterClose count rest := by
      have := Wasm.afterClose_append rest (Wasm.nest_replicate_block (κ := κ) 0 0 count)
      rwa [Nat.zero_add] at this
    have hstep := Config.step_block host (List.replicate count .block ++ rest) labels m
    rw [hend, hstack] at hstep
    refine .head ⟨?_, hstep⟩ ?_
    · simp only [List.length_append, List.length_replicate]
      omega
    · rw [List.range_succ, List.map_append, List.append_assoc]
      exact ih

/-- A test compares `link` with its target. -/
private theorem reaches_brIf (depth : Nat) (target : UInt32) (hn : n ≤ rest.length) :
    Config.ReachesAbove host n ⟨linkTest depth target ++ rest, labels, m⟩
      ⟨.brIf depth :: rest, labels, m.push (.ofBool (m.store.globals Slot.link.index == target))⟩ := by
  have hleft : ∀ k, n < rest.length + (k + 1) := fun k => by omega
  exact .head ⟨hleft 3, rfl⟩ (.head ⟨hleft 2, rfl⟩ (.single ⟨hleft 1, rfl⟩))

/-- Tests for other words than the one in `link` are passed. -/
private theorem reaches_past_tests {others : List UInt32} (h : m.store.globals Slot.link.index ∉ others)
    (depth : Nat → Nat) (hn : n ≤ rest.length) :
    Config.ReachesAbove host n ⟨(others.mapIdx fun k => linkTest (depth k)).flatten ++ rest, labels, m⟩
      ⟨rest, labels, m⟩ := by
  induction others generalizing depth with
  | nil => exact .refl
  | cons other others ih =>
    obtain ⟨hne, hothers⟩ : m.store.globals Slot.link.index ≠ other ∧ m.store.globals Slot.link.index ∉ others := by
      simpa using h
    have hleft : n ≤ ((others.mapIdx fun k => linkTest (depth (k + 1))).flatten ++ rest).length := by
      rw [List.length_append]
      omega
    rw [List.mapIdx_cons, List.flatten_cons, List.append_assoc]
    refine .trans (reaches_brIf _ _ hleft) (.head ⟨Nat.lt_succ_of_le hleft, ?_⟩ (ih hothers fun k => depth (k + 1)))
    simp [Config.Steps, Config.step, Wasm.Machine.push, Wasm.Value.ofBool, hne]

/-- The test for the word in `link` goes to the end of its block. -/
private theorem reaches_through_test {depth : Nat} {target : UInt32} {code : List (Instr κ)}
    (hlabel : labels[depth]? = some ⟨code, 0⟩) (hstack : m.stack = [])
    (hlink : m.store.globals Slot.link.index = target)
    (hn : n ≤ rest.length) :
    Config.ReachesAbove host n ⟨linkTest depth target ++ rest, labels, m⟩ ⟨code, labels.drop (depth + 1), m⟩ := by
  refine .trans (reaches_brIf _ _ hn) (.single ⟨Nat.lt_succ_of_le hn, ?_⟩)
  have hempty : ({ m with stack := [] } : Wasm.Machine ω) = m := by rw [← hstack]
  simp [Config.Steps, Config.step, Config.branch, Wasm.Machine.push, Wasm.Value.ofBool, hlink, hlabel, hstack, hempty]

private theorem afterClose_linkTests (d : Nat) (depth : Nat → Nat) (targets : List UInt32) (rest : List (Instr κ)) :
    afterClose d ((targets.mapIdx fun k => linkTest (depth k)).flatten ++ rest) = afterClose d rest := by
  have htest : ∀ k target (code : List (Instr κ)), afterClose d (linkTest k target ++ code) = afterClose d code := by
    intro k target code
    cases d <;> rfl
  induction targets generalizing depth with
  | nil => rfl
  | cons target targets ih =>
    rw [List.mapIdx_cons, List.flatten_cons, List.append_assoc, htest]
    exact ih fun k => depth (k + 1)

/-- The loop and its blocks are opened. -/
private theorem reaches_tests (targets : List UInt32) (hstack : m.stack = []) :
    Config.ReachesAbove host rest.length ⟨dispatchLoop targets rest, [], m⟩
      ⟨(targets.mapIdx linkTest).flatten ++ rest, dispatchLabels targets rest, m⟩ := by
  have hloop := Config.step_loop host
    (List.replicate targets.length .block ++ ((targets.mapIdx linkTest).flatten ++ rest)) [] m
  have hleft : rest.length ≤ ((targets.mapIdx linkTest).flatten ++ rest).length := by
    rw [List.length_append]
    omega
  -- No test ends a block, so the blocks end where those of the rest do.
  have hends : ∀ d, afterClose d ((targets.mapIdx linkTest).flatten ++ rest) = afterClose d rest :=
    fun d => afterClose_linkTests d id targets rest
  have hlabels : dispatchLabels targets rest = (List.range targets.length).map
      (fun d => ⟨afterClose d ((targets.mapIdx linkTest).flatten ++ rest), 0⟩) ++
        [⟨dispatchLoop targets rest, 0⟩] := by
    simp only [dispatchLabels, hends]
  rw [hstack] at hloop
  refine .head ⟨?_, hloop⟩ ?_
  · simp only [dispatchLoop, List.length_cons, List.length_append]
    omega
  · rw [hlabels]
    exact reaches_blocks _ hleft hstack

/-- With a word in `link` that is no target, a dispatch loop is passed. -/
theorem reaches_rest {targets : List UInt32} (hstack : m.stack = [])
    (hlink : m.store.globals Slot.link.index ∉ targets) :
    Config.ReachesAbove host rest.length ⟨dispatchLoop targets rest, [], m⟩ ⟨rest, dispatchLabels targets rest, m⟩ :=
  .trans (reaches_tests targets hstack) (reaches_past_tests hlink id (Nat.le_refl _))

/-- With a target in `link`, a dispatch loop leads to the end of the block of its first test. -/
theorem reaches_block {targets : List UInt32} {depth : Nat} {word : UInt32} (hstack : m.stack = [])
    (hget : targets[depth]? = some word) (hfirst : word ∉ targets.take depth)
    (hlink : m.store.globals Slot.link.index = word) :
    Config.ReachesAbove host rest.length ⟨dispatchLoop targets rest, [], m⟩
      ⟨afterClose depth rest, (dispatchLabels targets rest).drop (depth + 1), m⟩ := by
  obtain ⟨hdepth, hword⟩ := List.getElem?_eq_some_iff.1 hget
  have hlabel : (dispatchLabels targets rest)[depth]? = some ⟨afterClose depth rest, 0⟩ := by
    rw [dispatchLabels, List.getElem?_append_left (by simpa using hdepth), List.getElem?_map,
      List.getElem?_range hdepth, Option.map_some]
  -- The tests in front of the one for the word are for other words.
  obtain ⟨later, hsplit⟩ : ∃ later : List (Instr κ), (targets.mapIdx linkTest).flatten =
      ((targets.take depth).mapIdx linkTest).flatten ++ (linkTest depth word ++ later) := by
    have hlength : (targets.take depth).length = depth := List.length_take_of_le (Nat.le_of_lt hdepth)
    refine ⟨((targets.drop (depth + 1)).mapIdx fun k => linkTest (k + 1 + depth)).flatten, ?_⟩
    conv => lhs; rw [← List.take_append_drop depth targets, List.drop_eq_getElem_cons hdepth, hword]
    rw [List.mapIdx_append, List.mapIdx_cons, List.flatten_append, List.flatten_cons, hlength, Nat.zero_add]
  have hleft : ∀ code : List (Instr κ), rest.length ≤ (code ++ rest).length := fun code => by
    rw [List.length_append]
    omega
  refine .trans (reaches_tests targets hstack) ?_
  rw [hsplit, List.append_assoc, List.append_assoc]
  refine .trans (reaches_past_tests (hlink ▸ hfirst) id ?_) (reaches_through_test hlabel hstack hlink (hleft later))
  rw [← List.append_assoc]
  exact hleft _

end Execution

/-- Executed with the word in `link`, code that enters at a word comes to what it enters. -/
theorem Enters.reaches {κ ω : Type} {body code : List (Instr κ)} {word : UInt32} (h : Enters body word code)
    (host : Host κ ω) {store : Store ω} (hlink : store.globals Slot.link.index = word) :
    ∃ labels, Config.Reaches host (.start body store) ⟨code, labels, .start store⟩ := by
  obtain ⟨targets, rest, depth, rfl, hget, hfirst, rfl⟩ := h
  exact ⟨_, (reaches_block rfl hget hfirst hlink).reaches⟩

/-- Where a loop is entered does not depend on how callees are named. -/
theorem Enters.mapCallee {κ κ' : Type} {body code : List (Instr κ)} {word : UInt32} (h : Enters body word code)
    (f : κ → κ') : Enters (body.map (Instr.mapCallee f)) word (code.map (Instr.mapCallee f)) := by
  obtain ⟨targets, rest, depth, rfl, hget, hfirst, rfl⟩ := h
  refine ⟨targets, rest.map (Instr.mapCallee f), depth, ?_, hget, hfirst, Wasm.afterClose_map f _ rest⟩
  have htests : (targets.mapIdx linkTest).flatten.map (Instr.mapCallee f) = (targets.mapIdx linkTest).flatten := by
    rw [List.map_flatten]
    congr 1
    apply List.ext_getElem?
    intro k
    rw [List.getElem?_map, List.getElem?_mapIdx, List.getElem?_mapIdx, Option.map_map]
    rfl
  simp only [dispatchLoop, List.map_cons, List.map_append, List.map_replicate, Instr.mapCallee, htests]

/-! ### Chunks -/

namespace Chunk

variable {c : Chunk} (o : AssemblyOptions)

/-- The body of a chunk is a dispatch loop around the arrival at its first instruction. -/
theorem body_eq_dispatchLoop (c : Chunk) : c.body o = dispatchLoop c.targets.toList (c.arrival o 0) := by
  simp only [body, DispatchLoop.head, List.cons_append, List.append_assoc]
  rfl

/-- The constructs that are open behind the tests are those that are open at the first instruction. -/
theorem dispatchLabels_arrival (hc : c.Dispatchable) :
    dispatchLabels c.targets.toList (c.arrival o 0) = c.labelsFrom o 0 := by
  rw [dispatchLabels, labelsFrom, targetsFrom_zero, body_eq_dispatchLoop]
  congr 1
  refine List.ext_getElem (by simp) fun depth _ hdepth => ?_
  rw [List.length_map] at hdepth
  have hget : (c.targetsFrom 0)[depth]? = some c.targets.toList[depth] := by
    rw [targetsFrom_zero, List.getElem?_eq_getElem hdepth]
  rw [List.getElem_map, List.getElem_map, List.getElem_range, afterClose_arrival hc hget]

/-- The targets of a chunk are ascending, so none of them is tested twice. -/
theorem not_mem_take_targets {depth : Nat} {word : UInt32} (h : c.targets.toList[depth]? = some word) :
    word ∉ c.targets.toList.take depth := by
  intro hmem
  obtain ⟨hdepth, rfl⟩ := List.getElem?_eq_some_iff.1 h
  obtain ⟨k, hk, hword⟩ := List.mem_take_iff_getElem.1 hmem
  have hlt := List.pairwise_iff_getElem.1 c.targets.ascending k depth (by omega) hdepth (by omega)
  rw [hword] at hlt
  exact absurd hlt (UInt32.lt_irrefl _)

/-- The body of a chunk enters at each target, just before the code of its instruction. -/
theorem enters_body (hc : c.Dispatchable) {word : UInt32} (hword : word ∈ c.targets.toList) :
    Enters (c.body o) word (c.codeFrom o word.toNat) := by
  obtain ⟨depth, hget⟩ := List.getElem?_of_mem hword
  refine ⟨_, _, depth, body_eq_dispatchLoop o c, hget, not_mem_take_targets hget, afterClose_arrival hc ?_⟩
  rw [targetsFrom_zero, hget]

end Chunk

end Ia32Wasm
