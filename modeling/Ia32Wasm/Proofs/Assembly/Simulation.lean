import Ia32Wasm.Proofs.Assembly.Emission
import Ia32Wasm.Proofs.Assembly.Entry

/-!
# The dispatch loop simulates a flat machine

The flat machine runs a chunk without any structure: it holds the index of the next instruction, does the work of that
instruction, and goes on at the next index, at the target of a jump, or outside.  The body of the assembled chunk
visits the instructions in the order of the flat machine, whatever the imported functions do: both have the same
traces, and both leave with the same store.

The proof follows one instruction at a time.  `Follows` says what the body does from the beginning of an instruction
on; the landing, the work, the exit and the test of an instruction and the head of the loop are each one lemma on it.
-/

namespace Ia32Wasm

open Machine (Slot)
open Wasm (Completes Config Label Passes PassesFrom Store afterClose nest nestStep)
open X86 (Instruction)

variable {ω : Type}

/-- The machine in front of the dispatch loop with a new value in `link`. -/
def Wasm.Machine.linkTo (m : Wasm.Machine ω) (index : UInt32) : Wasm.Machine ω :=
  { m.setGlobal Slot.link.index index with stack := [] }

namespace Chunk

/-- A chunk part way through: the index of the next instruction, and the machine. -/
structure FlatState (ω : Type) where
  pc : Nat
  machine : Wasm.Machine ω

variable (c : Chunk) (o : AssemblyOptions) (host : Wasm.Host Callee ω)

/-- The index at which the chunk begins with a word in `link`. -/
def startIndex (word : UInt32) : Nat := if word ∈ c.targets.toList then word.toNat else 0

/-- One instruction of the flat machine. -/
inductive FlatStep : FlatState ω → FlatState ω → Prop
  | pass {pc i m m₁} : c.instructions[pc]? = some i → Completes host (report o pc) m m₁ →
    ¬ i.Takes m₁.store.globals → FlatStep ⟨pc, m⟩ ⟨pc + 1, m₁⟩
  | next {pc i m m₁ m₂} : c.instructions[pc]? = some i → Completes host (report o pc) m m₁ →
    i.Takes m₁.store.globals → Completes host (Lowering.work c.id i) m₁ m₂ → i.control = .next →
    FlatStep ⟨pc, m⟩ ⟨pc + 1, m₂⟩
  | goto {pc i m m₁ m₂ target} : c.instructions[pc]? = some i → Completes host (report o pc) m m₁ →
    i.Takes m₁.store.globals → Completes host (Lowering.work c.id i) m₁ m₂ → i.control = .goto target →
    FlatStep ⟨pc, m⟩ ⟨target.toNat, m₂.linkTo target⟩

/-- The instruction at which the flat machine is leaves the chunk. -/
inductive FlatLeave : FlatState ω → Store ω → Prop
  | leave {pc i m m₁ m₂} : c.instructions[pc]? = some i → Completes host (report o pc) m m₁ →
    i.Takes m₁.store.globals → Completes host (Lowering.work c.id i) m₁ m₂ → i.control = .leave →
    FlatLeave ⟨pc, m⟩ m₂.store

/-- The flat machine visits the instructions `seen`: so far, or until it leaves the chunk with a store. -/
inductive Visits : FlatState ω → List Nat → Option (Store ω) → Prop
  | pause {s} : Visits s [] none
  | enter {s} : s.pc < c.instructions.length → Visits s [s.pc] none
  | step {s s' seen result} : FlatStep c o host s s' → Visits s' seen result → Visits s (s.pc :: seen) result
  | leave {s store} : FlatLeave c o host s store → Visits s [s.pc] (some store)
  | finish {s} : s.pc = c.instructions.length → Visits s [] (some s.machine.store)

/-- The body at the beginning of the code of an instruction. -/
def configAt (s : FlatState ω) : Config Callee ω := ⟨c.codeFrom o s.pc, c.labelsFrom o (s.pc + 1), s.machine⟩

/-- The body, at the beginning of the code of an instruction, visits the instructions `seen`. -/
def Follows (s : FlatState ω) (seen : List Nat) (result : Option (Store ω)) : Prop :=
  PassesFrom (c.marksFrom o 0) host (c.marksFrom o s.pc (c.position o s.pc)) (c.configAt o s) seen result

/-- The body, from a configuration on, visits the instructions `seen`, with those that begin right there. -/
def VisitsFrom (d : Config Callee ω) (seen : List Nat) (result : Option (Store ω)) : Prop :=
  PassesFrom (c.marksFrom o 0) host (c.marksFrom o 0 d.code.length) d seen result

/-! ### Places without marks -/

section Follow

variable {c} {o} {host} {pc : Nat} {i : Instruction} {m : Wasm.Machine ω} {seen : List Nat}
  {result : Option (Store ω)} {labels : List (Label Callee)}

/-- Inside the code of an instruction no instruction begins. -/
private theorem marks_within {left : Nat} (hget : c.instructions[pc]? = some i)
    (hgt : (c.arrival o (pc + 1)).length < left) (hlt : left < c.position o pc) : c.marksFrom o 0 left = [] := by
  obtain ⟨hpc, _⟩ := List.getElem?_eq_some_iff.1 hget
  rw [marksFrom_zero hpc hlt, marksFrom_eq_nil (Nat.lt_of_le_of_lt position_le hgt)]

/-- Behind the code of an instruction only the later ones begin. -/
private theorem marks_behind (hget : c.instructions[pc]? = some i) (hne : c.ownCode o pc i ≠ []) :
    c.marksFrom o 0 (c.arrival o (pc + 1)).length = c.marksFrom o (pc + 1) (c.arrival o (pc + 1)).length := by
  obtain ⟨hpc, _⟩ := List.getElem?_eq_some_iff.1 hget
  have hpos : 0 < (c.ownCode o pc i).length := List.length_pos_iff.2 hne
  exact marksFrom_zero hpc (by rw [position_of_getElem? hget]; omega)

/-! ### Landings -/

private theorem labelsFrom_of_mem {target : UInt32} (h : target ∈ c.targets.toList) :
    c.labelsFrom o target.toNat = ⟨c.codeFrom o target.toNat, 0⟩ :: c.labelsFrom o (target.toNat + 1) := by
  rw [labelsFrom, targetsFrom_of_mem c h]
  rfl

private theorem labelsFrom_of_not_mem (h : ∀ target ∈ c.targets.toList, target.toNat ≠ pc) :
    c.labelsFrom o pc = c.labelsFrom o (pc + 1) := by
  rw [labelsFrom, targetsFrom_of_not_mem c h, labelsFrom]

variable (hc : c.Dispatchable)

include hc

/-- At a target only its instruction and those with it begin. -/
private theorem marks_target {target : UInt32} (h : target ∈ c.targets.toList) :
    c.marksFrom o 0 (c.position o target.toNat) = c.marksFrom o target.toNat (c.position o target.toNat) := by
  have hlength : (c.arrival o target.toNat).length = c.position o target.toNat + 1 := by
    rw [arrival_of_mem hc h, List.length_cons, position]
  cases hk : target.toNat with
  | zero => rfl
  | succ k =>
    have hlt : k < c.instructions.length := by have := hc.inside target h; omega
    have hposition := position_of_getElem? (o := o) (List.getElem?_eq_getElem hlt)
    exact marksFrom_zero hlt (by rw [hk] at hlength; omega)

/-- In front of its landing an instruction is as good as behind it. -/
private theorem follows_of_arrival : c.Follows o host ⟨pc, m⟩ seen result ↔
    PassesFrom (c.marksFrom o 0) host (c.marksFrom o pc (c.arrival o pc).length)
      ⟨c.arrival o pc, c.labelsFrom o pc, m⟩ seen result := by
  by_cases hmem : ∃ t ∈ c.targets.toList, t.toNat = pc
  · obtain ⟨t, ht, rfl⟩ := hmem
    have hlength : (c.arrival o t.toNat).length = c.position o t.toNat + 1 := by
      rw [arrival_of_mem hc ht, List.length_cons, position]
    have hstep : (⟨.close :: c.codeFrom o t.toNat, c.labelsFrom o t.toNat, m⟩ : Config Callee ω).step host =
        .running (c.configAt o ⟨t.toNat, m⟩) := by
      rw [labelsFrom_of_mem ht]
      rfl
    rw [hlength, marksFrom_eq_nil (Nat.lt_succ_self _), Wasm.passesFrom_nil_iff, arrival_of_mem hc ht,
      Wasm.passes_iff_of_step hstep, Follows, ← marks_target hc ht]
    rfl
  · have hnot : ∀ t ∈ c.targets.toList, t.toNat ≠ pc := fun t ht heq => hmem ⟨t, ht, heq⟩
    rw [Follows, configAt, position, codeFrom_of_not_mem hnot, labelsFrom_of_not_mem hnot]

/-! ### One instruction -/

omit hc in
/-- The code of an instruction is begun by a visit of it. -/
private theorem follows_iff_visit (hget : c.instructions[pc]? = some i) : c.Follows o host ⟨pc, m⟩ seen result ↔
    (seen = [] ∧ result = none) ∨ ∃ later, seen = pc :: later ∧
      PassesFrom (c.marksFrom o 0) host (c.marksFrom o (pc + 1) (c.position o pc))
        ⟨c.ownCode o pc i ++ c.arrival o (pc + 1), c.labelsFrom o (pc + 1), m⟩ later result := by
  obtain ⟨hpc, _⟩ := List.getElem?_eq_some_iff.1 hget
  rw [Follows, marksFrom_position hpc, Wasm.passesFrom_cons_iff, configAt, codeFrom_of_getElem? hget]

omit hc in
private theorem passes_of_ne_nil (hget : c.instructions[pc]? = some i) (hne : c.ownCode o pc i ≠ [])
    {d : Config Callee ω} :
    PassesFrom (c.marksFrom o 0) host (c.marksFrom o (pc + 1) (c.position o pc)) d seen result ↔
      Passes (c.marksFrom o 0) host d seen result := by
  have hlt : (c.arrival o (pc + 1)).length < c.position o pc := by
    have := List.length_pos_iff.2 hne
    rw [position_of_getElem? hget]
    omega
  rw [marksFrom_eq_nil (Nat.lt_of_le_of_lt position_le hlt), Wasm.passesFrom_nil_iff]

/-- Code that completes alone is followed by the next instruction. -/
private theorem passes_ownCode_iff (hget : c.instructions[pc]? = some i)
    (hnest : nest 0 0 (c.ownCode o pc i) = some 0) :
    PassesFrom (c.marksFrom o 0) host (c.marksFrom o (pc + 1) (c.position o pc))
        ⟨c.ownCode o pc i ++ c.arrival o (pc + 1), c.labelsFrom o (pc + 1), m⟩ seen result ↔
      (seen = [] ∧ result = none) ∨
        ∃ m', Completes host (c.ownCode o pc i) m m' ∧ c.Follows o host ⟨pc + 1, m'⟩ seen result := by
  simp only [follows_of_arrival hc]
  by_cases hne : c.ownCode o pc i = []
  · rw [position_of_getElem? hget, hne]
    simp only [List.length_nil, Nat.zero_add, List.nil_append, Wasm.completes_nil_iff, exists_eq_left]
    constructor
    · exact .inr
    · rintro (⟨rfl, rfl⟩ | h)
      · exact .inl ⟨rfl, List.nil_prefix⟩
      · exact h
  · have hquiet : ∀ n, (c.arrival o (pc + 1)).length < n →
        n < (c.ownCode o pc i).length + (c.arrival o (pc + 1)).length → c.marksFrom o 0 n = [] := by
      intro n hgt hlt
      rw [← position_of_getElem? hget] at hlt
      exact marks_within hget hgt hlt
    rw [passes_of_ne_nil hget hne, Wasm.passes_enclosed_iff m hnest hne hquiet, marks_behind hget hne]

omit hc in
/-- A part of the code of an instruction that completes alone is followed by the next part. -/
private theorem passes_part_iff {first second : Code} (hget : c.instructions[pc]? = some i)
    (hlength : (first ++ second).length ≤ (c.ownCode o pc i).length) (hnest : nest 0 0 first = some 0)
    (hne : second ≠ []) :
    Passes (c.marksFrom o 0) host ⟨first ++ (second ++ c.arrival o (pc + 1)), labels, m⟩ seen result ↔
      (seen = [] ∧ result = none) ∨ ∃ m', Completes host first m m' ∧
        Passes (c.marksFrom o 0) host ⟨second ++ c.arrival o (pc + 1), labels, m'⟩ seen result := by
  by_cases hfirst : first = []
  · subst hfirst
    simp only [List.nil_append, Wasm.completes_nil_iff, exists_eq_left]
    constructor
    · exact .inr
    · rintro (⟨rfl, rfl⟩ | h)
      · exact .pause
      · exact h
  · have hfirst' : 0 < first.length := List.length_pos_iff.2 hfirst
    have hsecond : 0 < second.length := List.length_pos_iff.2 hne
    have hposition := position_of_getElem? (o := o) hget
    rw [List.length_append] at hlength
    have hquiet : ∀ n, (c.arrival o (pc + 1)).length < n →
      n < first.length + (second ++ c.arrival o (pc + 1)).length →
        c.marksFrom o 0 n = [] := by
      intro n hgt hlt
      rw [List.length_append] at hlt
      exact marks_within hget hgt (by omega)
    rw [Wasm.passes_enclosed_iff m hnest hfirst fun n hgt hlt => hquiet n (by simp at hgt; omega) hlt]
    rw [hquiet _ (by simp; omega) (by simp; omega)]
    simp only [Wasm.passesFrom_nil_iff]

omit hc in
/-- The block around guarded code ends behind it. -/
private theorem afterClose_guarded {outer : Nat} {test code : Code} (rest : Code)
    (htest : Lowering.test? i = some test)
    (hcode : nest (outer + 1) 0 code = some 0) :
    afterClose 0 (test ++ (([.op .i32Eqz, .brIf 0] : Code) ++ code ++ ([.close] : Code) ++ rest)) = rest := by
  have hnest : nest (outer + 1) 0 (test ++ ([.op .i32Eqz, .brIf 0] : Code) ++ code) = some 0 := by
    simp [Lowering.nest_of_benignCode (Lowering.benignCode_test htest : Lowering.BenignCode True test),
      nestStep, hcode]
  have hclose := Wasm.afterClose_append (.close :: rest) hnest
  simpa [afterClose] using hclose

omit hc in
/-- The guard goes to the end of its block if the value of the test is zero. -/
private theorem step_guard_zero {v : UInt32} (hv : v = 0) {rest behind : Code} :
    (⟨.brIf 0 :: rest, ⟨behind, m.stack.length⟩ :: labels, m.push (.i32 (if v == 0 then 1 else 0))⟩ :
      Config Callee ω).step host = .running ⟨behind, labels, m⟩ := by
  simp [hv, Config.step, Config.branch, Wasm.Machine.push]

omit hc in
private theorem step_guard_ne {v : UInt32} (hv : v ≠ 0) {rest : Code} :
    (⟨.brIf 0 :: rest, labels, m.push (.i32 (if v == 0 then 1 else 0))⟩ : Config Callee ω).step host =
      .running ⟨rest, labels, m⟩ := by
  simp [hv, Config.step, Wasm.Machine.push]

/-- The guarded code of a conditional transfer is passed over unless the transfer is taken. -/
private theorem passes_whenSet_iff {test code : Code} {outer : Nat} (hget : c.instructions[pc]? = some i)
    (hlength : (Lowering.whenSet test code).length ≤ (c.ownCode o pc i).length)
    (htest : Lowering.test? i = some test) (hcode : nest (outer + 1) 0 code = some 0) :
    Passes (c.marksFrom o 0) host
        ⟨Lowering.whenSet test code ++ c.arrival o (pc + 1), c.labelsFrom o (pc + 1), m⟩ seen result ↔
      (seen = [] ∧ result = none) ∨ (¬ i.Takes m.store.globals ∧ c.Follows o host ⟨pc + 1, m⟩ seen result) ∨
      (i.Takes m.store.globals ∧ Passes (c.marksFrom o 0) host
        ⟨code ++ (([.close] : Code) ++ c.arrival o (pc + 1)),
          ⟨c.arrival o (pc + 1), m.stack.length⟩ :: c.labelsFrom o (pc + 1), m⟩ seen result) := by
  have hposition := position_of_getElem? (o := o) hget
  have hbenign : Lowering.BenignCode True test := Lowering.benignCode_test htest
  simp only [Lowering.whenSet, List.length_append, List.length_cons, List.length_nil] at hlength
  have hblock : (⟨Lowering.whenSet test code ++ c.arrival o (pc + 1), c.labelsFrom o (pc + 1), m⟩ :
      Config Callee ω).step host = .running
        ⟨test ++ (([.op .i32Eqz, .brIf 0] : Code) ++ code ++ ([.close] : Code) ++ c.arrival o (pc + 1)),
          ⟨c.arrival o (pc + 1), m.stack.length⟩ :: c.labelsFrom o (pc + 1), m⟩ := by
    have hsplit : Lowering.whenSet test code ++ c.arrival o (pc + 1) =
        .block ::
          (test ++ (([.op .i32Eqz, .brIf 0] : Code) ++ code ++ ([.close] : Code) ++ c.arrival o (pc + 1))) := by
      simp [Lowering.whenSet]
    rw [hsplit, Config.step_block, afterClose_guarded _ htest hcode]
  -- The test leaves one value, which decides whether the transfer is taken.
  obtain ⟨v, hv, htakes⟩ := Lowering.completes_test host htest m
  have hunique : ∀ m', Completes host test m m' ↔ m' = m.push (.i32 v) :=
    fun m' => ⟨fun h => Wasm.completes_unique h hv, fun h => h ▸ hv⟩
  rw [Wasm.passes_iff_of_quiet hblock (marks_within hget (by simp; omega) (by simp; omega)),
    passes_part_iff hget (by simp; omega) (Lowering.nest_of_benignCode hbenign 0) (by simp)]
  simp only [hunique, exists_eq_left]
  refine or_congr_right ?_
  have heqz : (⟨([.op .i32Eqz, .brIf 0] : Code) ++ code ++ ([.close] : Code) ++ c.arrival o (pc + 1),
      ⟨c.arrival o (pc + 1), m.stack.length⟩ :: c.labelsFrom o (pc + 1), m.push (.i32 v)⟩ :
        Config Callee ω).step host =
      .running ⟨.brIf 0 :: (code ++ (([.close] : Code) ++ c.arrival o (pc + 1))),
        ⟨c.arrival o (pc + 1), m.stack.length⟩ :: c.labelsFrom o (pc + 1),
        m.push (.i32 (if v == 0 then 1 else 0))⟩ := by
    simp only [List.append_assoc]
    rfl
  rw [Wasm.passes_iff_of_quiet heqz (marks_within hget (by simp; omega) (by simp; omega))]
  by_cases hzero : v = 0
  · have htaken : ¬ i.Takes m.store.globals := fun h => htakes.2 h hzero
    have hne : c.ownCode o pc i ≠ [] := by
      intro h
      rw [h] at hlength
      simp at hlength
    rw [Wasm.passes_iff_of_step (step_guard_zero hzero), marks_behind hget hne, ← follows_of_arrival hc]
    simp [htaken]
  · have htaken : i.Takes m.store.globals := htakes.1 hzero
    rw [Wasm.passes_iff_of_quiet (step_guard_ne hzero) (marks_within hget (by simp; omega) (by simp; omega))]
    simp [htaken]

/-! ### The head of the loop -/

omit hc in
/-- In the head of the loop no instruction begins. -/
private theorem marks_head {left : Nat} (h : (c.arrival o 0).length < left) : c.marksFrom o 0 left = [] :=
  marksFrom_eq_nil (Nat.lt_of_le_of_lt position_le h)

omit hc in
private theorem visitsFrom_iff_of_head {d : Config Callee ω} (h : (c.arrival o 0).length < d.code.length) :
    c.VisitsFrom o host d seen result ↔ Passes (c.marksFrom o 0) host d seen result := by
  rw [VisitsFrom, marks_head h, Wasm.passesFrom_nil_iff]

omit hc in
/-- As long as execution is in the head of the loop, it visits nothing. -/
private theorem visitsFrom_iff_of_reaches {d e : Config Callee ω} (h : d.ReachesAbove host (c.arrival o 0).length e) :
    c.VisitsFrom o host d seen result ↔ c.VisitsFrom o host e seen result := by
  induction h using Relation.ReflTransGen.head_induction_on with
  | refl => rfl
  | head hstep _ ih => rw [visitsFrom_iff_of_head hstep.1, Wasm.passes_iff_of_step hstep.2, ← ih, VisitsFrom]

/-- The body begins at the instruction whose index is in `link` if that is a target, and else at the first one. -/
private theorem passes_body_iff (hstack : m.stack = []) :
    Passes (c.marksFrom o 0) host ⟨c.body o, [], m⟩ seen result ↔
      c.Follows o host ⟨c.startIndex (m.store.globals Slot.link.index), m⟩ seen result := by
  rw [← visitsFrom_iff_of_head (length_arrival_lt_body c o), body_eq_dispatchLoop]
  by_cases hlink : m.store.globals Slot.link.index ∈ c.targets.toList
  · obtain ⟨depth, hget⟩ := List.getElem?_of_mem hlink
    have hconfig : (⟨afterClose depth (c.arrival o 0), (c.labelsFrom o 0).drop (depth + 1), m⟩ : Config Callee ω) =
        c.configAt o ⟨(m.store.globals Slot.link.index).toNat, m⟩ := by
      have hlt := (List.getElem?_eq_some_iff.1 hget).1
      rw [configAt, afterClose_arrival hc (targetsFrom_zero c ▸ hget), labelsFrom, targetsFrom_zero,
        List.drop_append_of_le_length (by rw [List.length_map]; exact hlt), ← List.map_drop, drop_targets c hget,
          labelsFrom]
    rw [visitsFrom_iff_of_reaches (reaches_block hstack hget (not_mem_take_targets hget) rfl),
      dispatchLabels_arrival o hc, hconfig, startIndex, if_pos hlink, Follows, ← marks_target hc hlink]
    rfl
  · rw [visitsFrom_iff_of_reaches (reaches_rest hstack hlink), dispatchLabels_arrival o hc, startIndex, if_neg hlink,
      follows_of_arrival hc]
    rfl

/-! ### Exits -/

/-- A jump inside the chunk goes to its target through the head of the loop. -/
private theorem passes_goto_iff {target : UInt32} {depth : Nat} {rest : Code} (hget : c.instructions[pc]? = some i)
    (htarget : target ∈ c.targets.toList) (hlength : rest.length + 3 ≤ (c.ownCode o pc i).length)
    (hlabel : labels[depth]? = some ⟨c.body o, 0⟩) (hdepth : labels.length = depth + 1) :
    Passes (c.marksFrom o 0) host
        ⟨Lowering.exit depth (.goto target) ++ (rest ++ c.arrival o (pc + 1)), labels, m⟩ seen result ↔
      c.Follows o host ⟨target.toNat, m.linkTo target⟩ seen result := by
  have hposition := position_of_getElem? (o := o) hget
  have hbranch : (⟨.br depth :: (rest ++ c.arrival o (pc + 1)), labels, m.setGlobal Slot.link.index target⟩ :
      Config Callee ω).step host = .running ⟨c.body o, [], m.linkTo target⟩ := by
    have hdrop : labels.drop (depth + 1) = [] := List.drop_eq_nil_of_le (by omega)
    simp [Config.step, Config.branch, hlabel, hdrop, Wasm.Machine.linkTo]
  refine (Wasm.passes_iff_of_quiet rfl (marks_within hget (by simp +arith) (by simp; omega))).trans ?_
  refine (Wasm.passes_iff_of_quiet rfl (marks_within hget (by simp +arith) (by simp; omega))).trans ?_
  refine (Wasm.passes_iff_of_quiet hbranch (marks_head (length_arrival_lt_body c o))).trans ?_
  have hlink : (m.linkTo target).store.globals Slot.link.index = target := by
    simp [Wasm.Machine.linkTo, Wasm.Machine.setGlobal, Wasm.Store.setGlobal]
  rw [passes_body_iff hc rfl, hlink, startIndex, if_pos htarget]

/-- What the body does once the work of an instruction is done. -/
private def Continues (c : Chunk) (o : AssemblyOptions) (host : Wasm.Host Callee ω) (pc : Nat) (m : Wasm.Machine ω)
    (seen : List Nat) (result : Option (Store ω)) : Control → Prop
  | .next => c.Follows o host ⟨pc + 1, m⟩ seen result
  | .goto target => c.Follows o host ⟨target.toNat, m.linkTo target⟩ seen result
  | .leave => seen = [] ∧ (result = none ∨ result = some m.store)

private theorem passes_exit_iff {depth : Nat} (rest : Code) (hget : c.instructions[pc]? = some i)
    (hnext : i.control ≠ .next)
    (hlength : (Lowering.exit depth i.control ++ rest).length ≤ (c.ownCode o pc i).length)
    (hlabel : labels[depth]? = some ⟨c.body o, 0⟩) (hdepth : labels.length = depth + 1) :
    Passes (c.marksFrom o 0) host
        ⟨Lowering.exit depth i.control ++ (rest ++ c.arrival o (pc + 1)), labels, m⟩ seen result ↔
      Continues c o host pc m seen result i.control := by
  cases hcontrol : i.control with
  | next => exact absurd hcontrol hnext
  | goto target =>
    have htarget : target ∈ c.targets.toList := hc.jumps i (List.mem_of_getElem? hget) target hcontrol
    rw [hcontrol] at hlength
    simp only [Lowering.exit, List.length_append, List.length_cons, List.length_nil] at hlength
    exact passes_goto_iff hc hget htarget (by omega) hlabel hdepth
  | leave => exact Wasm.passes_iff_of_returned rfl

omit hc in
/-- The dispatch loop is the outermost of the open constructs. -/
private theorem labelsFrom_loop (c : Chunk) (o : AssemblyOptions) (pc : Nat) :
    (c.labelsFrom o (pc + 1))[DispatchLoop.openBlocks c.targets.toList pc]? = some ⟨c.body o, 0⟩ ∧
      (c.labelsFrom o (pc + 1)).length = DispatchLoop.openBlocks c.targets.toList pc + 1 := by
  rw [labelsFrom, ← length_targetsFrom]
  simp

/-- The code of an instruction without a condition does its work and goes on. -/
private theorem passes_unconditional_iff (hget : c.instructions[pc]? = some i) (htest : Lowering.test? i = none) :
    PassesFrom (c.marksFrom o 0) host (c.marksFrom o (pc + 1) (c.position o pc))
        ⟨c.ownCode o pc i ++ c.arrival o (pc + 1), c.labelsFrom o (pc + 1), m⟩ seen result ↔
      (seen = [] ∧ result = none) ∨ ∃ m₁, Completes host (report o pc) m m₁ ∧
        ∃ m₂, Completes host (Lowering.work c.id i) m₁ m₂ ∧ Continues c o host pc m₂ seen result i.control := by
  have hlowered := hc.lowered pc i hget
  have hown : c.ownCode o pc i = report o pc ++ Lowering.work c.id i ++
      Lowering.exit (DispatchLoop.openBlocks c.targets.toList pc) i.control := by
    rw [ownCode, lowering, Lowering.code_instruction hlowered, htest, List.append_assoc]
  have hnest : nest 0 0 (report o pc ++ Lowering.work c.id i) = some 0 := by
    simp [nest_report, Lowering.nest_work hlowered]
  have hcompletes : ∀ m₂, Completes host (report o pc ++ Lowering.work c.id i) m m₂ ↔
      ∃ m₁, Completes host (report o pc) m m₁ ∧ Completes host (Lowering.work c.id i) m₁ m₂ :=
    fun m₂ => Wasm.completes_append_iff (nest_report o pc)
  have hregroup : (∃ m₂, Completes host (report o pc ++ Lowering.work c.id i) m m₂ ∧
        Continues c o host pc m₂ seen result i.control) ↔
      ∃ m₁, Completes host (report o pc) m m₁ ∧
        ∃ m₂, Completes host (Lowering.work c.id i) m₁ m₂ ∧ Continues c o host pc m₂ seen result i.control := by
    simp only [hcompletes]
    grind
  rw [← hregroup]
  -- Without an exit the code can be empty, and then the next instruction begins at the same place.
  by_cases hnext : i.control = .next
  · rw [hnext, Lowering.exit, List.append_nil] at hown
    rw [passes_ownCode_iff hc hget (hown ▸ hnest), hown, hnext]
    rfl
  · obtain ⟨hlabel, hdepth⟩ := labelsFrom_loop c o pc
    have hne : Lowering.exit (DispatchLoop.openBlocks c.targets.toList pc) i.control ≠ [] := by
      cases hcontrol : i.control <;> simp_all [Lowering.exit]
    rw [passes_of_ne_nil hget (by simp [hown, hne]), hown, List.append_assoc,
      passes_part_iff hget (hown ▸ Nat.le_refl _) hnest hne]
    have hexit : ∀ m₂, Passes (c.marksFrom o 0) host
        ⟨Lowering.exit (DispatchLoop.openBlocks c.targets.toList pc) i.control ++ c.arrival o (pc + 1),
          c.labelsFrom o (pc + 1), m₂⟩ seen result ↔ Continues c o host pc m₂ seen result i.control :=
      fun m₂ => passes_exit_iff hc [] hget hnext (by simp [hown]; omega) hlabel hdepth
    simp only [hexit]

/-- The code of a conditional transfer does its work and goes on where the condition holds, and else at the next
instruction. -/
private theorem passes_conditional_iff {test : Code} (hget : c.instructions[pc]? = some i)
    (htest : Lowering.test? i = some test) :
    PassesFrom (c.marksFrom o 0) host (c.marksFrom o (pc + 1) (c.position o pc))
        ⟨c.ownCode o pc i ++ c.arrival o (pc + 1), c.labelsFrom o (pc + 1), m⟩ seen result ↔
      (seen = [] ∧ result = none) ∨ ∃ m₁, Completes host (report o pc) m m₁ ∧
        ((¬ i.Takes m₁.store.globals ∧ c.Follows o host ⟨pc + 1, m₁⟩ seen result) ∨
          (i.Takes m₁.store.globals ∧
            ∃ m₂, Completes host (Lowering.work c.id i) m₁ m₂ ∧ Continues c o host pc m₂ seen result i.control)) := by
  have hlowered := hc.lowered pc i hget
  have hnext : i.control ≠ .next := by
    intro hnext
    rw [Lowering.test_of_next hnext] at htest
    cases htest
  have hcode := Lowering.code_instruction hlowered
  rw [htest] at hcode
  have hown : c.ownCode o pc i = report o pc ++ Lowering.whenSet test (Lowering.work c.id i ++
      Lowering.exit (DispatchLoop.openBlocks c.targets.toList pc + 1) i.control) := by
    rw [ownCode, lowering, hcode]
  obtain ⟨hlabel, hdepth⟩ := labelsFrom_loop c o pc
  have hlength : (Lowering.whenSet test (Lowering.work c.id i ++
      Lowering.exit (DispatchLoop.openBlocks c.targets.toList pc + 1) i.control)).length ≤
        (c.ownCode o pc i).length := by
    simp [hown]
  have hne : Lowering.exit (DispatchLoop.openBlocks c.targets.toList pc + 1) i.control ++ ([.close] : Code) ≠ [] := by
    simp
  have hnest : nest (DispatchLoop.openBlocks c.targets.toList pc + 1 + 1) 0 (Lowering.work c.id i ++
      Lowering.exit (DispatchLoop.openBlocks c.targets.toList pc + 1) i.control) = some 0 := by
    rw [Wasm.nest_append, Wasm.nest_of_zero (Lowering.nest_work hlowered)]
    exact Lowering.nest_exit _ (by omega) (by omega)
  have htaken : ∀ m₁, Passes (c.marksFrom o 0) host
      ⟨Lowering.work c.id i ++ Lowering.exit (DispatchLoop.openBlocks c.targets.toList pc + 1) i.control ++
        (([.close] : Code) ++ c.arrival o (pc + 1)),
        ⟨c.arrival o (pc + 1), m₁.stack.length⟩ :: c.labelsFrom o (pc + 1), m₁⟩ seen result ↔
      (seen = [] ∧ result = none) ∨ ∃ m₂, Completes host (Lowering.work c.id i) m₁ m₂ ∧
        Continues c o host pc m₂ seen result i.control := by
    intro m₁
    rw [List.append_assoc, ← List.append_assoc _ [Wasm.Instr.close],
      passes_part_iff hget (by simp [hown, Lowering.whenSet]; omega) (Lowering.nest_work hlowered) hne]
    have hexit : ∀ m₂, Passes (c.marksFrom o 0) host
        ⟨Lowering.exit (DispatchLoop.openBlocks c.targets.toList pc + 1) i.control ++ ([.close] : Code) ++
            c.arrival o (pc + 1),
          ⟨c.arrival o (pc + 1), m₁.stack.length⟩ :: c.labelsFrom o (pc + 1), m₂⟩ seen result ↔
        Continues c o host pc m₂ seen result i.control := by
      intro m₂
      rw [List.append_assoc]
      exact passes_exit_iff hc [.close] hget hnext (by simp [hown, Lowering.whenSet]; omega) hlabel (by simp [hdepth])
    simp only [hexit]
  rw [passes_of_ne_nil hget (by simp [hown, Lowering.whenSet]), hown, List.append_assoc,
    passes_part_iff hget (hown ▸ Nat.le_refl _) (nest_report o pc) (by simp [Lowering.whenSet])]
  simp only [passes_whenSet_iff hc hget hlength htest hnest, htaken]
  grind

private theorem passes_instruction_iff (hget : c.instructions[pc]? = some i) :
    PassesFrom (c.marksFrom o 0) host (c.marksFrom o (pc + 1) (c.position o pc))
        ⟨c.ownCode o pc i ++ c.arrival o (pc + 1), c.labelsFrom o (pc + 1), m⟩ seen result ↔
      (seen = [] ∧ result = none) ∨ ∃ m₁, Completes host (report o pc) m m₁ ∧
        ((¬ i.Takes m₁.store.globals ∧ c.Follows o host ⟨pc + 1, m₁⟩ seen result) ∨
          (i.Takes m₁.store.globals ∧
            ∃ m₂, Completes host (Lowering.work c.id i) m₁ m₂ ∧ Continues c o host pc m₂ seen result i.control)) := by
  cases htest : Lowering.test? i with
  | none =>
    simp only [passes_unconditional_iff hc hget htest, Lowering.takes_of_test_eq_none htest, not_true, false_and,
      false_or, true_and]
  | some test => exact passes_conditional_iff hc hget htest

/-- Behind the last instruction the body returns. -/
private theorem follows_end_iff :
    c.Follows o host ⟨c.instructions.length, m⟩ seen result ↔ seen = [] ∧
    (result = none ∨ result = some m.store) := by
  have hquiet : c.marksFrom o 0 0 = [] := by
    refine List.filter_eq_nil_iff.2 fun k hk => ?_
    have hk : k < c.instructions.length := by simpa using (List.mem_range'_1.1 hk).2
    have hposition : c.position o c.instructions.length ≤ c.position o k := position_antitone hk (Nat.le_of_lt hk)
    rw [position, codeFrom_end hc, List.length_singleton] at hposition
    simp only [decide_eq_true_eq]
    omega
  have hlabels : c.labelsFrom o (c.instructions.length + 1) = [⟨c.body o, 0⟩] := by
    rw [labelsFrom, targetsFrom_eq_nil hc (Nat.le_succ _)]
    rfl
  have hmarks : ∀ left, c.marksFrom o c.instructions.length left = [] := by
    intro left
    simp [marksFrom]
  have hstep := Config.step_close host [] [] m ⟨c.body o, 0⟩
  rw [Follows, hmarks, Wasm.passesFrom_nil_iff, configAt, codeFrom_end hc, hlabels,
    Wasm.passes_iff_of_quiet hstep hquiet]
  exact Wasm.passes_iff_of_returned rfl

/-! ### Traces -/

/-- What the body can do at an instruction is what the flat machine can do there. -/
private theorem follows_cases (hpc : pc ≤ c.instructions.length) (h : c.Follows o host ⟨pc, m⟩ seen result) :
    (seen = [] ∧ result = none) ∨ (pc = c.instructions.length ∧ seen = [] ∧ result = some m.store) ∨
      (pc < c.instructions.length ∧ seen = [pc] ∧ result = none) ∨
      (∃ store, seen = [pc] ∧ FlatLeave c o host ⟨pc, m⟩ store ∧ result = some store) ∨
      ∃ later s, seen = pc :: later ∧ FlatStep c o host ⟨pc, m⟩ s ∧ s.pc ≤ c.instructions.length ∧
        c.Follows o host s later result := by
  rcases Nat.lt_or_eq_of_le hpc with hlt | rfl
  · have hget : c.instructions[pc]? = some c.instructions[pc] := List.getElem?_eq_getElem hlt
    rcases (follows_iff_visit hget).1 h with hnone | ⟨later, rfl, hlater⟩
    · exact .inl hnone
    right
    right
    rcases (passes_instruction_iff hc hget).1 hlater with ⟨rfl, rfl⟩ |
      ⟨m₁, hreport, ⟨hnot, h⟩ | ⟨htakes, m₂, hwork, h⟩⟩
    · exact .inl ⟨hlt, rfl, rfl⟩
    · exact .inr (.inr ⟨later, _, rfl, .pass hget hreport hnot, hlt, h⟩)
    · cases hcontrol : c.instructions[pc].control with
      | next =>
        rw [hcontrol] at h
        exact .inr (.inr ⟨later, _, rfl, .next hget hreport htakes hwork hcontrol, hlt, h⟩)
      | goto target =>
        rw [hcontrol] at h
        have htarget : target ∈ c.targets.toList := hc.jumps _ (List.getElem_mem hlt) target hcontrol
        exact .inr (.inr ⟨later, _, rfl, .goto hget hreport htakes hwork hcontrol,
          Nat.le_of_lt (hc.inside target htarget), h⟩)
      | leave =>
        rw [hcontrol] at h
        obtain ⟨rfl, rfl | rfl⟩ := h
        · exact .inl ⟨hlt, rfl, rfl⟩
        · exact .inr (.inl ⟨_, rfl, .leave hget hreport htakes hwork hcontrol, rfl⟩)
  · obtain ⟨rfl, rfl | rfl⟩ := (follows_end_iff hc).1 h
    · exact .inl ⟨rfl, rfl⟩
    · exact .inr (.inl ⟨rfl, rfl, rfl⟩)

private theorem visits_of_follows {s : FlatState ω} (hpc : s.pc ≤ c.instructions.length)
    (h : c.Follows o host s seen result) : Visits c o host s seen result := by
  -- Every step of the flat machine sees an instruction, so the list of those gets shorter.
  induction seen generalizing s with
  | nil =>
    rcases follows_cases hc hpc h with
      ⟨-, rfl⟩ | ⟨hend, -, rfl⟩ | ⟨-, hseen, -⟩ | ⟨store, hseen, -⟩ | ⟨later, s', hseen, -⟩
    · exact .pause
    · exact .finish hend
    · cases hseen
    · cases hseen
    · cases hseen
  | cons first later ih =>
    rcases follows_cases hc hpc h with
      ⟨hseen, -⟩ | ⟨-, hseen, -⟩ | ⟨hlt, hseen, rfl⟩ | ⟨store, hseen, hleave, rfl⟩ |
        ⟨later, s', hseen, hstep, hpc', h'⟩
    · cases hseen
    · cases hseen
    · cases hseen
      exact .enter hlt
    · cases hseen
      exact .leave hleave
    · cases hseen
      exact .step hstep (ih hpc' h')

/-- What comes behind the beginning of an instruction follows from what the flat machine does there. -/
private theorem follows_of_instruction (hget : c.instructions[pc]? = some i) {m₁ : Wasm.Machine ω}
    (hreport : Completes host (report o pc) m m₁)
    (h : (¬ i.Takes m₁.store.globals ∧ c.Follows o host ⟨pc + 1, m₁⟩ seen result) ∨
      (i.Takes m₁.store.globals ∧
        ∃ m₂, Completes host (Lowering.work c.id i) m₁ m₂ ∧ Continues c o host pc m₂ seen result i.control)) :
    c.Follows o host ⟨pc, m⟩ (pc :: seen) result :=
  (follows_iff_visit hget).2 (.inr ⟨seen, rfl, (passes_instruction_iff hc hget).2 (.inr ⟨m₁, hreport, h⟩)⟩)

private theorem follows_of_visits {s : FlatState ω} (h : Visits c o host s seen result) :
    c.Follows o host s seen result := by
  induction h with
  | pause => exact .inl ⟨rfl, List.nil_prefix⟩
  | @enter s hlt =>
    have hget : c.instructions[s.pc]? = some c.instructions[s.pc] := List.getElem?_eq_getElem hlt
    exact (follows_iff_visit hget).2 (.inr ⟨[], rfl, .inl ⟨rfl, List.nil_prefix⟩⟩)
  | step hstep _ ih =>
    cases hstep with
    | pass hget hreport hnot => exact follows_of_instruction hc hget hreport (.inl ⟨hnot, ih⟩)
    | next hget hreport htakes hwork hcontrol =>
      exact follows_of_instruction hc hget hreport (.inr ⟨htakes, _, hwork, hcontrol ▸ ih⟩)
    | goto hget hreport htakes hwork hcontrol =>
      exact follows_of_instruction hc hget hreport (.inr ⟨htakes, _, hwork, hcontrol ▸ ih⟩)
  | leave hleave =>
    cases hleave with
    | leave hget hreport htakes hwork hcontrol =>
      exact follows_of_instruction hc hget hreport (.inr ⟨htakes, _, hwork, hcontrol ▸ ⟨rfl, .inr rfl⟩⟩)
  | @finish s hend =>
    obtain ⟨pc, m⟩ := s
    subst hend
    exact (follows_end_iff hc).2 ⟨rfl, .inr rfl⟩

private theorem startIndex_le (word : UInt32) : c.startIndex word ≤ c.instructions.length := by
  unfold startIndex
  split
  · exact Nat.le_of_lt (hc.inside word ‹_›)
  · exact Nat.zero_le _

/-- The body of a dispatchable chunk and the flat machine have the same traces. -/
private theorem passes_body_iff_visits (store : Store ω) :
    Passes (c.marksFrom o 0) host (Config.start (c.body o) store) seen result ↔
      Visits c o host ⟨c.startIndex (store.globals Slot.link.index), .start store⟩ seen result := by
  rw [Config.start, passes_body_iff hc rfl]
  exact ⟨visits_of_follows hc (startIndex_le hc _), follows_of_visits hc⟩

end Follow

/-! ### Assembled chunks -/

variable {c o}

/-- An assembled chunk can be dispatched to if its targets are instructions and include those of its jumps. -/
theorem dispatchable_of_assemble {a : Assembled} (h : c.assemble o = .ok a)
    (hinside : ∀ target ∈ c.targets.toList, target.toNat < c.instructions.length)
    (hjumps : ∀ i ∈ c.instructions, ∀ target, i.control = .goto target → target ∈ c.targets.toList) :
    c.Dispatchable := by
  obtain ⟨-, hlowered, -⟩ := of_assemble h
  exact ⟨hlowered, hinside, hjumps⟩

/-- The body of an assembled chunk visits the instructions of the chunk in the order of the flat machine, whatever is
in the slots and in memory and whatever the imported functions do, and it returns exactly when the flat machine leaves
the chunk, with the same store.  An instruction is visited where its own code begins. -/
theorem passes_assembled_iff_visits {a : Assembled} (hassemble : c.assemble o = .ok a)
    (hinside : ∀ target ∈ c.targets.toList, target.toNat < c.instructions.length)
    (hjumps : ∀ i ∈ c.instructions, ∀ target, i.control = .goto target → target ∈ c.targets.toList) :
    (∀ index i, c.instructions[index]? = some i → ∃ before behind,
      a.wasm.body = before ++ link a.imports (report o index ++ (c.lowering index i).code) ++ behind ∧
        c.position o index = a.wasm.body.length - before.length) ∧
    ∀ (host : Wasm.Host Nat ω) (store : Store ω) (seen : List Nat) (result : Option (Store ω)),
      Passes (c.marksFrom o 0) host (Config.start a.wasm.body store) seen result ↔
        Visits c o (fun callee => host (callee.index a.imports))
          ⟨c.startIndex (store.globals Slot.link.index), .start store⟩ seen result := by
  have hc : c.Dispatchable := dispatchable_of_assemble hassemble hinside hjumps
  have hbody : a.wasm.body = link a.imports (c.body o) := body_of_assemble hassemble
  constructor
  · intro index i hget
    obtain ⟨before, hbefore⟩ := codeFrom_suffix_body (c := c) (o := o) index
    refine ⟨link a.imports before, link a.imports (c.arrival o (index + 1)), ?_, ?_⟩
    · rw [hbody, ← hbefore, codeFrom_of_getElem? hget, ownCode]
      simp [link]
    · rw [hbody, ← hbefore, position]
      simp [link]
  · intro host store seen result
    have hstart : Config.start a.wasm.body store =
        (Config.start (c.body o) store).mapCallee (Callee.index a.imports) := by
      rw [hbody]
      rfl
    rw [hstart, Wasm.passes_mapCallee_iff]
    exact passes_body_iff_visits hc store

/-- A chunk that waits until `ecx` is zero and then returns. -/
def waiting : Chunk where
  id := 0
  name := nameOf 0x1000
  entry := 0x1000
  instructions := [
    ⟨{}, 0xe3, .jecxz, Instruction.destinationOperands (.inside 2), 0x1000, 0x1002⟩,
    ⟨{}, 0xeb, .jump, Instruction.destinationOperands (.inside 0), 0x1002, 0x1004⟩,
    ⟨{}, 0xc3, .ret, [], 0x1004, 0x1005⟩]
  ranges := [⟨0x1000, 0x1005⟩]
  targets := .ofList [0, 2]

/-- A store with zeros in all slots but `link`, and without memory. -/
def idleStore (word : UInt32) : Store Unit :=
  ⟨fun index => if index = Slot.link.index then word else 0, ⟨0, fun _ => 0⟩, ()⟩

/-- With a word in `link` that is no target the chunk begins at its first instruction, which jumps to the last. -/
theorem passes_waiting :
    waiting.assemble {} = .ok (assembleCode {} (waiting.body {})) ∧
    (∀ target ∈ waiting.targets.toList, target.toNat < waiting.instructions.length) ∧
    (∀ i ∈ waiting.instructions, ∀ target, i.control = .goto target → target ∈ waiting.targets.toList) ∧
    Passes (waiting.marksFrom {} 0) (fun _ store => .ok store)
      (Config.start (assembleCode {} (waiting.body {})).wasm.body (idleStore 7)) [0, 2]
      (some (((idleStore 7).setGlobal Slot.link.index 2).setGlobal Slot.esp.index 4)) := by
  have hassemble : waiting.assemble {} = .ok (assembleCode {} (waiting.body {})) := rfl
  have htargets : waiting.targets.toList = [0, 2] := rfl
  have hinside : ∀ target ∈ waiting.targets.toList, target.toNat < waiting.instructions.length := by
    rw [htargets]
    simp [waiting]
  have hjumps : ∀ i ∈ waiting.instructions, ∀ target, i.control = .goto target → target ∈ waiting.targets.toList := by
    intro i hi target htarget
    have hcontrols : waiting.instructions.map Instruction.control = [.goto 2, .goto 0, .leave] := rfl
    have hmem : i.control ∈ waiting.instructions.map Instruction.control := List.mem_map_of_mem hi
    rw [hcontrols, htarget] at hmem
    rw [htargets]
    simp only [List.mem_cons, Control.goto.injEq, reduceCtorEq, List.not_mem_nil, or_false] at hmem ⊢
    exact hmem.symm
  have htakes : waiting.instructions[0].Takes (idleStore 7).globals := (rfl : (0 : UInt32) = 0)
  have hjump : FlatStep waiting {} (fun _ store => .ok store) ⟨0, .start (idleStore 7)⟩
      ⟨2, (Wasm.Machine.start (idleStore 7)).linkTo 2⟩ :=
    .goto (i := waiting.instructions[0]) rfl (Wasm.completes_nil_iff.2 rfl) htakes (Wasm.completes_nil_iff.2 rfl) rfl
  have hwork : Completes (fun _ store => .ok store) (Lowering.moveStackPointer 4)
      ((Wasm.Machine.start (idleStore 7)).linkTo 2)
      (((Wasm.Machine.start (idleStore 7)).linkTo 2).setGlobal Slot.esp.index 4) :=
    Wasm.completes_of_foldlM (by simp [Lowering.moveStackPointer, addToGlobal]) rfl
  have hreturn : FlatLeave waiting {} (fun _ store => .ok store) ⟨2, (Wasm.Machine.start (idleStore 7)).linkTo 2⟩
      (((idleStore 7).setGlobal Slot.link.index 2).setGlobal Slot.esp.index 4) :=
    .leave (i := waiting.instructions[2]) rfl (Wasm.completes_nil_iff.2 rfl) trivial hwork rfl
  exact ⟨hassemble, hinside, hjumps,
    ((passes_assembled_iff_visits hassemble hinside hjumps).2 _ _ _ _).2 (.step hjump (.leave hreturn))⟩

end Chunk

end Ia32Wasm
