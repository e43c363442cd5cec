import Ia32Wasm.Proofs.Program.Partition
import Mathlib.Data.Finset.Card
import Mathlib.Data.List.TakeWhile

/-!
# Discovered programs are closed

Discovery loses no address that it has to visit.  The target of a branch is covered when it is met, or a run puts it
down, among its own targets or among the waiting entry points, and whatever is put down is covered in the end.

* `Run.finish_induction` is the induction on the steps of a run, `Run.noted_of_finish` what a run puts down.
* Each run covers an address that was not covered (`uncovered_lt`), so the queues are empty before their budget is
  (`closes_of_addRuns`, `closes_of_addChunks`).
* A covered address lies in an instruction that was read, so in a section (`isSome_section?_of_covers`).
-/

namespace Ia32Wasm

open X86 (Instruction)

/-- The relative targets of the branches of the chunk have the property. -/
def Chunk.BranchesTo (c : Chunk) (P : UInt32 → Prop) : Prop :=
  ∀ i ∈ c.instructions, ∀ target, i.relativeTarget? = some target → P target

/-- Some chunk of the program covers the address. -/
def Program.Covers (p : Program) (address : UInt32) : Prop := ∃ c ∈ p.chunks, c.covers address = true

/-! ### Waiting entry points -/

private theorem mem_enqueue {covered : List AddressRange} {pending : List UInt32} {address x : UInt32}
    (h : x ∈ pending) :
    x ∈ enqueue covered pending address := by
  unfold enqueue
  split
  · exact h
  · exact List.mem_append_left _ h

private theorem isIn_or_mem_enqueue (covered : List AddressRange) (pending : List UInt32) (address : UInt32) :
    isIn address covered = true ∨ address ∈ enqueue covered pending address := by
  unfold enqueue
  split
  · rename_i h
    rw [Bool.or_eq_true, List.contains_iff_mem] at h
    exact h
  · exact .inr (List.mem_append_right _ List.mem_cons_self)

private theorem mem_foldl_enqueue {entries pending : List UInt32} {x : UInt32} (h : x ∈ pending ∨ x ∈ entries) :
    x ∈ entries.foldl (enqueue []) pending := by
  induction entries generalizing pending with
  | nil => simpa using h
  | cons entry rest ih =>
    refine ih ?_
    rw [List.mem_cons] at h
    rcases h with h | rfl | h
    · exact .inl (mem_enqueue h)
    · exact .inl ((isIn_or_mem_enqueue [] pending x).resolve_left (by simp [isIn]))
    · exact .inr h

/-! ### What a run puts down -/

namespace Run

/-- The address is covered, or the run has it among its targets or the waiting entry points. -/
def Noted (covered : List AddressRange) (r : Run) (x : UInt32) : Prop :=
  isIn x covered = true ∨ x ∈ r.targets ∨ x ∈ r.pending

/-- The run `r'` has put down all that `r` has, and the target of its last instruction. -/
structure Notes (covered : List AddressRange) (r r' : Run) : Prop where
  targets : ∀ x ∈ r.targets, x ∈ r'.targets
  pending : ∀ x ∈ r.pending, x ∈ r'.pending
  read : ∃ i, r'.read = i :: r.read ∧ ∀ target, i.relativeTarget? = some target → r'.Noted covered target

variable {image : Image} {limits : Limits} {program : Program} {chunk : Chunk} {covered : List AddressRange}

/-- What is noted stays noted when more is. -/
theorem Noted.mono {r r' : Run} {x : UInt32} (htargets : ∀ x ∈ r.targets, x ∈ r'.targets)
    (hpending : ∀ x ∈ r.pending, x ∈ r'.pending) (h : r.Noted covered x) : r'.Noted covered x :=
  h.imp_right (Or.imp (htargets x) (hpending x))

private theorem notes_push {r : Run} {i : Instruction} (h : i.relativeTarget? = none) : r.Notes covered (r.push i) :=
  ⟨fun _ => id, fun _ => id, i, rfl, by simp [h]⟩

private theorem notes_pushCall (r : Run) (d : Instruction) (hcall : d.mnemonic = .call) :
    r.Notes covered (r.pushCall image covered d) := by
  -- A direct call waits at its target, whether it was one from the start or not.
  have hdirect : ∀ i target, i.relativeTarget? = some target →
      r.Notes covered ({ r with pending := enqueue covered r.pending target }.push i) := by
    intro i target htarget
    refine ⟨fun _ => id, fun _ => mem_enqueue, i, rfl, fun target' htarget' => ?_⟩
    rw [htarget, Option.some.injEq] at htarget'
    subst htarget'
    exact (isIn_or_mem_enqueue covered r.pending target).imp_right .inr
  unfold pushCall
  cases htarget : d.relativeTarget? with
  | some target => exact hdirect d target htarget
  | none =>
    cases codePointer? image d with
    | none => exact notes_push htarget
    | some value =>
      have hbranch : d.mnemonic.isBranch = true := by rw [hcall]; rfl
      exact hdirect _ value (Instruction.relativeTarget?_distance hbranch value)

private theorem notes_addTarget (r : Run) (d : Instruction) (target : UInt32) (h : d.relativeTarget? = some target) :
    r.Notes covered ((r.addTarget covered target).push d) := by
  have hfields : (∀ x ∈ r.targets, x ∈ (r.addTarget covered target).targets) ∧
      (r.addTarget covered target).pending = r.pending ∧ (r.addTarget covered target).read = r.read ∧
      (r.addTarget covered target).Noted covered target := by
    unfold addTarget
    split
    · rename_i hin
      exact ⟨fun _ => id, rfl, rfl, .inl hin⟩
    · exact ⟨fun _ => List.mem_cons_of_mem _, rfl, rfl, .inr (.inl List.mem_cons_self)⟩
  obtain ⟨htargets, hpending, hread, hnoted⟩ := hfields
  refine ⟨htargets, fun x hx => hpending ▸ hx, d, congrArg (d :: ·) hread, fun target' htarget' => ?_⟩
  rw [h, Option.some.injEq] at htarget'
  exact htarget' ▸ hnoted

private theorem notes_of_more {r r' : Run} {d : Instruction} (h : r.visit image covered d = .more r') :
    r.Notes covered r' := by
  unfold visit at h
  split at h
  · cases h
  · cases h
  · cases h
    exact notes_pushCall r d ‹_›
  all_goals first
    | split at h
      · cases h
        exact notes_addTarget r d _ ‹_›
      · cases h
        exact notes_push ‹_›
    | cases h
      refine notes_push ?_
      rw [Instruction.relativeTarget?, if_neg]
      cases hm : d.mnemonic <;> simp_all [X86.Mnemonic.isBranch]

/-- A run that a jump or a return completes has put down nothing more, and `jump` is the target of its last
instruction. -/
private theorem fields_of_done {r r' : Run} {d : Instruction} {jump : Option UInt32}
    (h : r.visit image covered d = .done r' jump) :
    r' = r.push d ∧ ∀ target, d.relativeTarget? = some target → jump = some target := by
  unfold visit at h
  split at h
  · cases h
    exact ⟨rfl, fun _ => id⟩
  · rename_i hret
    cases h
    refine ⟨rfl, fun target htarget => ?_⟩
    have hbranch := (Instruction.relativeTarget?_eq_some_iff.1 htarget).1
    rw [hret] at hbranch
    cases hbranch
  · cases h
  all_goals first
    | split at h <;> cases h
    | cases h

/-- What every step of a run keeps holds before its last step, which meets code of the chunk or jumps or returns. -/
theorem finish_induction {P : Run → Prop}
    (hmore : ∀ r d r', Decoded image d → d.address = r.cursor → r.visit image program.covered d = .more r' →
      P r → P r')
    {room : Nat} {r r' : Run} {jump : Option UInt32} (h : r.finish image limits program chunk room = .ok (r', jump))
    (hP : P r) :
    ∃ r₀, P r₀ ∧ ((chunk.covers r₀.cursor = true ∧ r' = r₀.push (.fallThrough r₀.cursor) ∧ jump = none) ∨
      ∃ d, Decoded image d ∧ d.address = r₀.cursor ∧ r₀.visit image program.covered d = .done r' jump) := by
  induction room generalizing r with
  | zero => cases h
  | succ room ih =>
    rw [finish] at h
    cases hstep : r.step image limits program chunk with
    | error e => simp [hstep] at h
    | ok progress =>
      rw [hstep] at h
      rcases step_eq_ok hstep with ⟨-, hmet, rfl⟩ | ⟨-, -, d, hd, haddress, rfl⟩
      · cases h
        exact ⟨r, hP, .inl ⟨hmet, rfl, rfl⟩⟩
      · cases hvisit : r.visit image program.covered d with
        | done r₁ jump₁ =>
          rw [hvisit] at h
          cases h
          exact ⟨r, hP, .inr ⟨d, hd, haddress, hvisit⟩⟩
        | more r₁ =>
          rw [hvisit] at h
          exact ih h (hmore r d r₁ hd haddress hvisit hP)

/-- A run that ends has put down the targets of all its branches, that of its last jump aside, which is `jump`. -/
theorem noted_of_finish {room : Nat} {r r' : Run} {jump : Option UInt32} (hread : r.read = [])
    (hcovers : ∀ address, chunk.covers address = true → isIn address program.covered = true)
    (h : r.finish image limits program chunk room = .ok (r', jump)) :
    (∀ x ∈ r.pending, x ∈ r'.pending) ∧
      ∀ i ∈ r'.read, ∀ target, i.relativeTarget? = some target →
        r'.Noted program.covered target ∨ jump = some target := by
  obtain ⟨r₀, ⟨hpending, hnoted⟩, hlast⟩ := finish_induction (P := fun s => (∀ x ∈ r.pending, x ∈ s.pending) ∧
      ∀ i ∈ s.read, ∀ target, i.relativeTarget? = some target → s.Noted program.covered target)
    (by
      rintro s d s' - - hvisit ⟨hpending, hnoted⟩
      obtain ⟨htargets, hkept, i, hi, htarget⟩ := notes_of_more hvisit
      refine ⟨fun x hx => hkept x (hpending x hx), ?_⟩
      rw [hi]
      exact List.forall_mem_cons.2 ⟨htarget, fun j hj target hj' => (hnoted j hj target hj').mono htargets hkept⟩)
    h ⟨fun _ => id, by simp [hread]⟩
  rcases hlast with ⟨hmet, rfl, rfl⟩ | ⟨d, -, -, hvisit⟩
  · refine ⟨hpending, List.forall_mem_cons.2 ⟨fun target htarget => ?_, fun i hi target htarget => ?_⟩⟩
    · rw [Instruction.relativeTarget?_fallThrough, Option.some.injEq] at htarget
      exact .inl (.inl (hcovers _ (htarget ▸ hmet)))
    · exact .inl (hnoted i hi target htarget)
  · obtain ⟨rfl, hjump⟩ := fields_of_done hvisit
    refine ⟨hpending, List.forall_mem_cons.2 ⟨fun target htarget => .inr (hjump target htarget), ?_⟩⟩
    exact fun i hi target htarget => .inl (hnoted i hi target htarget)

/-- A jump of no bytes leads to code of its chunk. -/
private theorem covers_of_finish {room : Nat} {r r' : Run} {jump : Option UInt32} (hread : r.read = [])
    (h : r.finish image limits program chunk room = .ok (r', jump)) {address : UInt32}
    (hmem : .fallThrough address ∈ r'.read) : chunk.covers address = true := by
  obtain ⟨r₀, hreal, hlast⟩ := finish_induction (P := fun s => ∀ i ∈ s.read, Discovered image i)
    (by
      intro s d s' hd haddress hvisit hreal
      rcases visit_cases hd haddress with ⟨_, _, _, hdone, -⟩ | ⟨i, s₁, hmore, hi, -⟩
      · rw [hvisit] at hdone
        cases hdone
      · rw [hvisit, Progress.more.injEq] at hmore
        rw [hmore, hi.read]
        exact List.forall_mem_cons.2 ⟨hi.discovered, hreal⟩)
    h (by simp [hread])
  have hsynthetic : ∀ i, Discovered image i → i ≠ .fallThrough address := by
    rintro i hi rfl
    simpa using isFallThrough_of_discovered hi
  rcases hlast with ⟨hmet, rfl, -⟩ | ⟨d, hd, haddress, hvisit⟩
  · rcases List.mem_cons.1 hmem with heq | hmem
    · have hcursor : address = r₀.cursor := congrArg Instruction.address heq
      exact hcursor ▸ hmet
    · exact absurd rfl (hsynthetic _ (hreal _ hmem))
  · rcases visit_cases hd haddress with ⟨i, s₁, _, hdone, hi, -⟩ | ⟨_, _, hmore, -⟩
    · rw [hvisit, Progress.done.injEq] at hdone
      rw [hdone.1, hi.read] at hmem
      rcases List.mem_cons.1 hmem with heq | hmem
      · exact absurd heq.symm (hsynthetic i hi.discovered)
      · exact absurd rfl (hsynthetic _ (hreal _ hmem))
    · rw [hvisit] at hmore
      cases hmore

end Run

/-! ### The queues -/

namespace Program

variable {image : Image} {limits : Limits} {p p' : Program}

/-- The address is covered or waits as an entry point. -/
def Reached (p : Program) (x : UInt32) : Prop := p.isCovered x = true ∨ x ∈ p.pending

/-- The program `p'` covers all that `p` does, and its entry points still wait. -/
structure Grows (p p' : Program) : Prop where
  covered : ∀ x, p.isCovered x = true → p'.isCovered x = true
  pending : ∀ x ∈ p.pending, x ∈ p'.pending

theorem Grows.trans {p₁ : Program} (h : p.Grows p₁) (h' : p₁.Grows p') : p.Grows p' :=
  ⟨fun x hx => h'.covered x (h.covered x hx), fun x hx => h'.pending x (h.pending x hx)⟩

/-- What is reached stays reached when a program grows. -/
theorem Reached.mono {x : UInt32} (h : p.Grows p') (hx : p.Reached x) : p'.Reached x :=
  hx.imp (h.covered x) (h.pending x)

/-- The number of addresses that nothing covers. -/
def uncovered (p : Program) : Nat :=
  ((Finset.range addressCount).filter fun n => p.isCovered (UInt32.ofNat n) = false).card

theorem uncovered_le (p : Program) : p.uncovered ≤ addressCount :=
  (Finset.card_filter_le _ _).trans_eq (Finset.card_range addressCount)

private theorem mem_uncovered {x : UInt32} (hx : p.isCovered x = false) :
    x.toNat ∈ (Finset.range addressCount).filter fun n => p.isCovered (UInt32.ofNat n) = false :=
  Finset.mem_filter.2 ⟨Finset.mem_range.2 x.toNat_lt_size, by rwa [UInt32.ofNat_toNat]⟩

/-- A program that covers one address more has fewer left. -/
theorem uncovered_lt {x : UInt32} (h : ∀ y, p.isCovered y = true → p'.isCovered y = true)
    (hx : p.isCovered x = false) (hx' : p'.isCovered x = true) : p'.uncovered < p.uncovered := by
  refine Finset.card_lt_card ((Finset.ssubset_iff_of_subset fun n hn => ?_).2 ⟨x.toNat, mem_uncovered hx, ?_⟩)
  · rw [Finset.mem_filter] at hn ⊢
    refine ⟨hn.1, ?_⟩
    by_contra hcovered
    rw [Bool.not_eq_false] at hcovered
    rw [h _ hcovered] at hn
    cases hn.2
  · rw [Finset.mem_filter, UInt32.ofNat_toNat, hx']
    simp

/-- There is an address that no program covers. -/
theorem uncovered_pos (p : Program) : 0 < p.uncovered := by
  -- A range ends at an address that it does not contain, so the last address is in none.
  have hlast : p.isCovered 0xffffffff = false := by
    refine List.any_eq_false.2 fun r _ => ?_
    rw [AddressRange.contains_iff]
    rintro ⟨-, hlt⟩
    have hlt := UInt32.lt_iff_toNat_lt.1 hlt
    have hbound := r.stop.toNat_lt
    simp at hlt
    omega
  exact Finset.card_pos.2 ⟨_, mem_uncovered hlast⟩

private theorem mem_or_of_dropWhile {queue rest : List UInt32} {start x : UInt32}
    (h : queue.dropWhile p.isCovered = start :: rest) (hx : x ∈ queue) :
    p.isCovered x = true ∨ x = start ∨ x ∈ rest := by
  rw [← List.takeWhile_append_dropWhile (p := p.isCovered) (l := queue), h, List.mem_append, List.mem_cons] at hx
  exact hx.imp_left List.mem_takeWhile_imp

private theorem grows_addRun {r : Run} (jump : Option UInt32) (h : ∀ x ∈ p.pending, x ∈ r.pending) :
    p.Grows (p.addRun r jump) where
  covered x hx := by rw [isCovered_addRun, hx, Bool.true_or]
  pending x hx := by
    cases jump with
    | none => exact h x hx
    | some target => exact mem_enqueue (h x hx)

/-- What a run has put down is covered or waits after it, as an entry point or for the next runs. -/
private theorem reached_or_mem_of_noted {r : Run} {jump : Option UInt32} {x : UInt32}
    (h : r.Noted p.covered x ∨ jump = some x) : (p.addRun r jump).Reached x ∨ x ∈ r.targets := by
  rcases h with (hx | hx | hx) | rfl
  · exact .inl (.inl (by rw [isCovered_addRun, isCovered, hx, Bool.true_or]))
  · exact .inr hx
  · refine .inl (.inr ?_)
    cases jump with
    | none => exact hx
    | some target => exact mem_enqueue hx
  · exact .inl (isIn_or_mem_enqueue _ r.pending x)

/-- The runs of a chunk cover the queue, and what their branches lead to is covered or waits as an entry point. -/
theorem closes_of_addRuns {budget : Nat} {queue : List UInt32} {c c' : Chunk} (hbudget : p.uncovered ≤ budget)
    (hcovers : ∀ address, c.covers address = true → p.isCovered address = true)
    (hc : c.BranchesTo fun x => p.Reached x ∨ x ∈ queue)
    (h : addRuns image limits budget queue p c = .ok (p', c')) :
    p.Grows p' ∧ (∀ x ∈ queue, p'.isCovered x = true) ∧ c'.BranchesTo p'.Reached := by
  induction budget generalizing queue p c with
  | zero =>
    have := p.uncovered_pos
    omega
  | succ budget ih =>
    rw [addRuns] at h
    cases hqueue : queue.dropWhile p.isCovered with
    | nil =>
      rw [hqueue] at h
      cases h
      have hcovered : ∀ x ∈ queue, p'.isCovered x = true := List.dropWhile_eq_nil_iff.1 hqueue
      refine ⟨⟨fun _ => id, fun _ => id⟩, hcovered, fun i hi target htarget => ?_⟩
      exact (hc i hi target htarget).elim id fun hx => .inl (hcovered target hx)
    | cons start rest =>
      simp only [hqueue] at h
      split at h
      · cases h
      rename_i r jump hfinish
      have hstart := isCovered_of_dropWhile hqueue
      obtain ⟨hrun, hcomplete⟩ := complete_of_new hcovers hstart hfinish
      obtain ⟨hpending, hnoted⟩ := Run.noted_of_finish rfl hcovers hfinish
      have hgrows : p.Grows (p.addRun r jump) := grows_addRun jump hpending
      have hcovered : (p.addRun r jump).isCovered start = true := by
        have hinside := hcomplete.isRun.contains_start
        rw [Run.range, hrun] at hinside
        rw [isCovered_addRun, Bool.or_eq_true, Run.range, hrun]
        exact .inr hinside
      have hless := uncovered_lt hgrows.covered hstart hcovered
      -- The targets of the old and of the new instructions of the chunk.
      have hbranches : (c.addRun r).BranchesTo fun x =>
          (p.addRun r jump).Reached x ∨ x ∈ rest ++ r.targets.reverse := by
        intro i hi target htarget
        rw [List.mem_append, List.mem_reverse]
        rcases List.mem_append.1 hi with hi | hi
        · rcases hc i hi target htarget with hreached | hqueued
          · exact .inl (hreached.mono hgrows)
          · rcases mem_or_of_dropWhile hqueue hqueued with hx | rfl | hx
            · exact .inl (.inl (hgrows.covered _ hx))
            · exact .inl (.inl hcovered)
            · exact .inr (.inl hx)
        · exact (reached_or_mem_of_noted (hnoted i (List.mem_reverse.1 hi) target htarget)).imp_right .inr
      obtain ⟨hgrows', hqueue', hclosed⟩ := ih (by omega) (isCovered_of_covers hcovers r jump) hbranches h
      refine ⟨hgrows.trans hgrows', fun x hx => ?_, hclosed⟩
      rcases mem_or_of_dropWhile hqueue hx with hx | rfl | hx
      · exact hgrows'.covered x (hgrows.covered x hx)
      · exact hgrows'.covered _ hcovered
      · exact hqueue' x (List.mem_append_left _ hx)

/-- After the last chunk no entry point waits, and what was reached or what a branch leads to is covered. -/
theorem closes_of_addChunks {budget : Nat} (hbudget : p.uncovered ≤ budget)
    (hp : ∀ c ∈ p.chunks, c.BranchesTo p.Reached) (h : addChunks image limits budget p = .ok p') :
    p'.pending = [] ∧ (∀ x, p.Reached x → p'.isCovered x = true) ∧
      ∀ c ∈ p'.chunks, c.BranchesTo fun x => p'.isCovered x = true := by
  induction budget generalizing p with
  | zero =>
    have := p.uncovered_pos
    omega
  | succ budget ih =>
    rw [addChunks] at h
    cases hpending : p.pending.dropWhile p.isCovered with
    | nil =>
      rw [hpending] at h
      cases h
      have hreached : ∀ x, p.Reached x → p.isCovered x = true :=
        fun x hx => hx.elim id (List.dropWhile_eq_nil_iff.1 hpending x)
      exact ⟨rfl, hreached, fun c hc i hi target htarget => hreached target (hp c hc i hi target htarget)⟩
    | cons entry rest =>
      simp only [hpending] at h
      split at h
      · cases h
      split at h
      · cases h
      rename_i p₁ c hruns
      have hentry : p.isCovered entry = false := isCovered_of_dropWhile hpending
      obtain ⟨hgrows, hqueue, hclosed⟩ := closes_of_addRuns (uncovered_le _) (by intro _ hnew; cases hnew)
        (by intro _ hnew; cases hnew) hruns
      have hcovered : p₁.isCovered entry = true := hqueue entry List.mem_cons_self
      have hreached : ∀ x, p.Reached x → p₁.Reached x := by
        rintro x (hx | hx)
        · exact .inl (hgrows.covered x hx)
        · rcases mem_or_of_dropWhile hpending hx with hx | rfl | hx
          · exact .inl (hgrows.covered x hx)
          · exact .inl hcovered
          · exact .inr (hgrows.pending x hx)
      have hless : p₁.uncovered < p.uncovered := uncovered_lt hgrows.covered hentry hcovered
      have hchunks : p₁.chunks = p.chunks := (addRuns_chunks hruns :)
      have hall : ∀ d ∈ p₁.chunks ++ [c], d.BranchesTo p₁.Reached := by
        rw [hchunks]
        refine List.forall_mem_append.2 ⟨fun d hd i hi target htarget => ?_, List.forall_mem_singleton.2 hclosed⟩
        exact hreached target (hp d hd i hi target htarget)
      obtain ⟨hdone, hfinal, hlast⟩ := ih (p := { p₁ with chunks := p₁.chunks ++ [c] }) (Nat.le_of_lt_succ
        (Nat.lt_of_lt_of_le hless hbudget)) hall h
      exact ⟨hdone, fun x hx => hfinal x (hreached x hx), hlast⟩

end Program

/-! ### Sections -/

variable {image : Image} {c : Chunk} {i : Instruction} {address : UInt32}

private theorem isSome_section?_of_decoded (h : Decoded image i) (haddress : i.holds address = true) :
    (image.section? address).isSome = true := by
  obtain ⟨bytes, length, hbytes, hdecode, -, hnext⟩ := h
  have hlength : length ≤ bytes.length := (X86.decode_eq_ok hdecode).2.2.2.2.1
  obtain ⟨s, hs, hread⟩ := Option.bind_eq_some_iff.1 hbytes
  have hcontains := List.find?_some hs
  simp only [Section.contains, Bool.and_eq_true, decide_eq_true_eq] at hcontains
  -- The bytes end where the section does, so the instruction ends before.
  have hstop : i.nextAddress.toNat ≤ s.stop.toNat := by
    dsimp only at hread
    split at hread
    · cases hread
      rw [List.length_take, UInt32.toNat_sub_of_le _ _ (UInt32.le_of_lt hcontains.2)] at hlength
      have := UInt32.lt_iff_toNat_lt.1 hcontains.2
      omega
    · cases hread
  obtain ⟨hle, hlt⟩ := Instruction.holds_iff.1 haddress
  refine List.find?_isSome.2 ⟨s, List.mem_of_find?_eq_some hs, ?_⟩
  simp only [Section.contains, Bool.and_eq_true, decide_eq_true_eq]
  exact ⟨UInt32.le_trans hcontains.1 hle, UInt32.lt_of_lt_of_le hlt (UInt32.le_iff_toNat_le.2 hstop)⟩

private theorem isSome_section?_of_discovered (h : Discovered image i) (haddress : i.holds address = true) :
    (image.section? address).isSome = true := by
  cases h with
  | same hd _ => exact isSome_section?_of_decoded hd haddress
  | direct hd _ _ hi _ =>
    subst hi
    exact isSome_section?_of_decoded hd haddress

/-- What a chunk covers is in a section of the image. -/
theorem Chunk.Spliced.isSome_section? (h : c.Spliced image) (haddress : c.covers address = true) :
    (image.section? address).isSome = true := by
  obtain ⟨r, hr, hcontains⟩ := List.any_eq_true.1 haddress
  obtain ⟨run, hrun, -⟩ := h.exists_run hr
  obtain ⟨j, -, hdiscovered, hholds⟩ := hrun.exists_holds hcontains
  exact isSome_section?_of_discovered hdiscovered hholds

/-! ### Discovered programs -/

namespace Program

variable {limits : Limits} {entries : List UInt32} {p : Program}

/-- What a discovered program covers, one of its chunks does. -/
theorem covers_of_isCovered (h : discover image entries limits = .ok p) (haddress : p.isCovered address = true) :
    p.Covers address := by
  revert address
  refine discover_induction (M := fun p => ∀ {address}, p.isCovered address = true → p.Covers address)
    (fun _ _ hnone => by cases hnone) (fun _ hq => hq) ?_ h
  intro q q' entry rest c _ _ hruns hq x hx
  have hnew : q.isCovered x = true ∨ c.covers x = true := by
    refine addRuns_induction (M := fun q₁ c₁ => q₁.isCovered x = true → q.isCovered x = true ∨ c₁.covers x = true)
      ?_ hruns .inl hx
    intro q₁ c₁ start room r jump _ _ hkept hcovered
    rw [isCovered_addRun, Bool.or_eq_true] at hcovered
    rw [Chunk.covers_addRun, Bool.or_eq_true]
    rcases hcovered with hcovered | hcontains
    · exact (hkept hcovered).imp_right .inl
    · exact .inr (.inr hcontains)
  have hchunks : q'.chunks = q.chunks := (addRuns_chunks hruns :)
  rcases hnew with hold | hcovers
  · obtain ⟨d, hd, hcovers⟩ := hq hold
    exact ⟨d, List.mem_append_left _ (hchunks ▸ hd), hcovers⟩
  · exact ⟨c, List.mem_append_right _ List.mem_cons_self, hcovers⟩

/-- A jump of no bytes stands in front of code that its chunk holds. -/
private theorem covers_of_fallThrough (h : discover image entries limits = .ok p) (hc : c ∈ p.chunks)
    (hmem : .fallThrough address ∈ c.instructions) : c.covers address = true := by
  revert c
  refine discover_induction (M := fun p => ∀ {c}, c ∈ p.chunks → .fallThrough address ∈ c.instructions →
    c.covers address = true) (by simp) (fun _ hq => hq) ?_ h
  intro q q' entry rest c _ _ hruns hq d hd hmem
  have hchunks : q'.chunks = q.chunks := (addRuns_chunks hruns :)
  simp only [hchunks, List.mem_append, List.mem_singleton] at hd
  rcases hd with hd | rfl
  · exact hq hd hmem
  · refine addRuns_induction (M := fun _ d => .fallThrough address ∈ d.instructions → d.covers address = true)
      ?_ hruns (by simp [Chunk.new]) hmem
    intro q₁ c₁ start room r jump _ hfinish hkept hmem
    rw [Chunk.covers_addRun, Bool.or_eq_true]
    rcases List.mem_append.1 hmem with hmem | hmem
    · exact .inl (hkept hmem)
    · exact .inl (Run.covers_of_finish rfl hfinish (List.mem_reverse.1 hmem))

/-- Where control flows on to, there is code of the same chunk. -/
theorem covers_nextAddress (h : discover image entries limits = .ok p) (hc : c ∈ p.chunks) (hi : i ∈ c.instructions)
    (hjump : i.mnemonic ≠ .jump) (hret : i.mnemonic ≠ .ret) : c.covers i.nextAddress = true := by
  have hspliced := (wellBuilt_of_discover h).spliced hc
  obtain ⟨runs, hruns, hranges⟩ := hspliced.runs
  obtain ⟨index, hindex⟩ := List.getElem?_of_mem hi
  rw [hruns] at hindex
  obtain ⟨j, hj, haddress⟩ := next_of_runs hranges hindex fun hends => hends.elim hjump hret
  have hj : j ∈ c.instructions := hruns ▸ List.mem_of_getElem? hj
  rw [← haddress]
  rcases hspliced.discovered_or_fallThrough hj with hreal | ⟨stop, rfl⟩
  · exact hspliced.covered j hj (isFallThrough_of_discovered hreal)
  · exact covers_of_fallThrough h hc hj

/-- No entry point waits, and the entry points and the targets of all branches are covered. -/
theorem closed_of_discover (h : discover image entries limits = .ok p) :
    p.pending = [] ∧ (∀ entry ∈ entries, p.Covers entry) ∧ ∀ c ∈ p.chunks, c.BranchesTo p.Covers := by
  obtain ⟨hpending, hreached, hbranches⟩ := closes_of_addChunks (uncovered_le _) (by simp) h
  refine ⟨hpending, fun entry hentry => ?_, fun c hc i hi target htarget => ?_⟩
  · exact covers_of_isCovered h (hreached entry (.inr (mem_foldl_enqueue (.inr hentry))))
  · exact covers_of_isCovered h (hbranches c hc i hi target htarget)

end Program

end Ia32Wasm
