import Ia32Wasm.Proofs.Program.Closure
import Mathlib.Logic.Function.Iterate

/-!
# Discovery as a search without bounds

Discovery is three loops, one inside the other: over the waiting entry points, over the starts that a chunk has
queued, and over the instructions of a run.  `Search.step` is one turn of the innermost loop that is going on, and no
turn is counted.

* A turn inside a run fails, moves the run on to a later address, or ends it; a run covers at least its start, which
  nothing covered before (`Run.turns_of_step`, `fresh_iterate`).  All other turns leave fewer addresses waiting.
* So the search stops, with the very result of `Program.discover` (`reaches_discover`), whatever the limits are.
* Every range of the result begins outside the ranges before it and in a section, so there are no more runs than
  mapped addresses (`length_covered_le`).
-/

namespace Ia32Wasm

open X86 (Instruction)

/-- Discovery part way through: in front of the next entry point, in front of the next start in the queue of a chunk,
inside a run, or at the end. -/
inductive Search where
  | entries (program : Program)
  | starts (queue : List UInt32) (program : Program) (chunk : Chunk)
  | running (run : Run) (queue : List UInt32) (program : Program) (chunk : Chunk)
  | stopped (result : Except DiscoveryError Program)

namespace Search

/-- The search from some entry points. -/
def start (entries : List UInt32) : Search := .entries { pending := entries.foldl (enqueue []) [] }

/-- One turn of the innermost loop. -/
def step (image : Image) (limits : Limits) : Search → Search
  | .entries p =>
    match p.pending with
    | [] => .stopped (.ok p)
    | entry :: rest =>
      if p.isCovered entry then .entries { p with pending := rest }
      else if limits.maxChunks.toNat ≤ p.chunks.length then .stopped (.error (.limitExceeded .chunks entry))
      else .starts [entry] { p with pending := rest } (.new (UInt32.ofNat p.chunks.length) entry)
  | .starts [] p c => .entries { p with chunks := p.chunks ++ [c] }
  | .starts (first :: rest) p c => if p.isCovered first then .starts rest p c else .running (.new p c first) rest p c
  | .running r queue p c =>
    match r.step image limits p c with
    | .error e => .stopped (.error e)
    | .ok (.more r) => .running r queue p c
    | .ok (.done r jump) => .starts (queue ++ r.targets.reverse) (p.addRun r jump) (c.addRun r)
  | .stopped result => .stopped result

/-- The addresses that wait to be visited, as entry points or as starts of the chunk. -/
def waiting : Search → List UInt32
  | .entries p => p.pending
  | .starts queue p _ => queue ++ p.pending
  | .running r queue _ _ => queue ++ r.targets.reverse ++ r.pending
  | .stopped _ => []

end Search

/-! ### Turns of a run -/

namespace Run

/-- What a turn makes of a run: it fails, it goes on behind the instruction that the image holds next, or it is
complete, because it has come to code of its chunk or because that instruction jumps or returns. -/
inductive Turns (image : Image) (r : Run) (queue : List UInt32) (p : Program) (c : Chunk) : Search → Prop
  | fails (e : DiscoveryError) : Turns image r queue p c (.stopped (.error e))
  | goesOn {i : Instruction} {r' : Run} : r.Advances image i r' → i.mnemonic.endsRun = false → r.cursor < r'.cursor →
    Turns image r queue p c (.running r' queue p c)
  | meets : c.covers r.cursor = true → r.start ≠ r.cursor → Turns image r queue p c
    (.starts (queue ++ r.targets.reverse) (p.addRun (r.push (.fallThrough r.cursor)) none)
      (c.addRun (r.push (.fallThrough r.cursor))))
  | ends {i : Instruction} {r' : Run} {jump : Option UInt32} : r.Advances image i r' → i.mnemonic.endsRun = true →
    r.cursor < r'.cursor →
    Turns image r queue p c (.starts (queue ++ r'.targets.reverse) (p.addRun r' jump) (c.addRun r'))

variable {image : Image} {limits : Limits} {p : Program} {c : Chunk}

/-- The next instruction takes a run on to a later address. -/
private theorem Advances.lt {r r' : Run} {i : Instruction} (h : r.Advances image i r') : r.cursor < r'.cursor := by
  rw [← h.address, h.cursor]
  exact lt_of_discovered h.discovered

/-- What one step makes of a run. -/
theorem turns_of_step (image : Image) (limits : Limits) (r : Run) (queue : List UInt32) (p : Program) (c : Chunk) :
    r.Turns image queue p c (Search.step image limits (.running r queue p c)) := by
  rw [Search.step]
  cases hstep : r.step image limits p c with
  | error e => exact .fails e
  | ok progress =>
    rcases step_eq_ok hstep with ⟨hmoved, hmet, rfl⟩ | ⟨-, -, d, hd, haddress, rfl⟩
    · exact .meets hmet hmoved.symm
    · rcases visit_cases hd haddress with ⟨i, r', jump, hvisit, hi, hends⟩ | ⟨i, r', hvisit, hi, hends⟩
      · rw [hvisit]
        exact .ends hi hends hi.lt
      · rw [hvisit]
        exact .goesOn hi hends hi.lt

end Run

namespace Search

variable {image : Image} {limits : Limits} {p p' : Program} {c : Chunk}

/-- The run that is going on began at an address that is not covered, and has not come back behind it. -/
def Fresh : Search → Prop
  | .running r _ p _ => p.isCovered r.start = false ∧ r.start ≤ r.cursor
  | _ => True

/-- A step keeps a search fresh. -/
theorem Fresh.step {s : Search} (h : s.Fresh) : (s.step image limits).Fresh := by
  cases s with
  | entries p =>
    rw [Search.step]
    split
    · trivial
    · split
      · trivial
      · split <;> trivial
  | starts queue p c =>
    cases queue with
    | nil => trivial
    | cons first rest =>
      rw [Search.step]
      split
      · trivial
      · rename_i hfirst
        exact ⟨Bool.eq_false_iff.2 hfirst, UInt32.le_refl _⟩
  | running r queue p c =>
    obtain ⟨hstart, hle⟩ := h
    have hturns := Run.turns_of_step image limits r queue p c
    generalize Search.step image limits (.running r queue p c) = s' at hturns
    cases hturns with
    | goesOn hi _ hlt =>
      refine ⟨hi.start ▸ hstart, ?_⟩
      rw [hi.start]
      exact UInt32.le_of_lt (UInt32.lt_of_le_of_lt hle hlt)
    | fails | meets | ends => trivial
  | stopped result => trivial

/-- A search is fresh after any number of steps. -/
theorem fresh_iterate (entries : List UInt32) (n : Nat) : ((Search.step image limits)^[n] (start entries)).Fresh := by
  induction n with
  | zero => trivial
  | succ n ih =>
    rw [Function.iterate_succ_apply']
    exact ih.step

/-- A turn leaves no new address waiting. -/
private theorem waiting_step_of_ne_running {s : Search} (h : ∀ r queue p c, s ≠ .running r queue p c) :
    (s.step image limits).waiting.Sublist s.waiting := by
  cases s with
  | entries p =>
    rw [Search.step]
    cases hpending : p.pending with
    | nil => exact List.nil_sublist _
    | cons entry rest =>
      dsimp only
      split
      · simp [waiting, hpending]
      · split
        · exact List.nil_sublist _
        · simp [waiting, hpending]
  | starts queue p c =>
    cases queue with
    | nil => exact List.Sublist.refl _
    | cons first rest =>
      rw [Search.step]
      split
      · exact List.sublist_cons_self _ _
      · simp [waiting, Run.new]
  | running r queue p c => exact absurd rfl (h r queue p c)
  | stopped result => exact List.nil_sublist _

/-- What one turn does: inside a run the run has begun at an address that nothing covers and takes its turn, and
elsewhere no new address is left waiting. -/
def Progresses (image : Image) (limits : Limits) (s : Search) : Prop :=
  match s with
  | .running r queue p c =>
    p.isCovered r.start = false ∧ r.start ≤ r.cursor ∧ r.Turns image queue p c (s.step image limits) ∧
      ∀ queue' p' c', s.step image limits = .starts queue' p' c' →
        ∃ range, p'.covered = p.covered ++ [range] ∧ c'.ranges = c.ranges ++ [range] ∧ range.start = r.start ∧
          range.contains r.start = true
  | _ => (s.step image limits).waiting.Sublist s.waiting

/-- A run that is complete has covered its start. -/
private theorem covers_start_of_turns {r : Run} {queue queue' : List UInt32} {c' : Chunk} (hle : r.start ≤ r.cursor)
    (h : r.Turns image queue p c (.starts queue' p' c')) :
    ∃ range, p'.covered = p.covered ++ [range] ∧ c'.ranges = c.ranges ++ [range] ∧ range.start = r.start ∧
      range.contains r.start = true := by
  cases h with
  | meets _ hmoved =>
    refine ⟨⟨r.start, r.cursor⟩, rfl, rfl, rfl, AddressRange.contains_iff.2 ⟨UInt32.le_refl _, ?_⟩⟩
    exact UInt32.lt_of_le_of_ne hle hmoved
  | @ends i r' jump hi _ hlt =>
    refine ⟨⟨r'.start, r'.cursor⟩, rfl, rfl, hi.start, AddressRange.contains_iff.2 ⟨?_, ?_⟩⟩
    · exact UInt32.le_of_eq hi.start
    · exact UInt32.lt_of_le_of_lt hle hlt

private theorem progresses_iterate (entries : List UInt32) (n : Nat) :
    ((Search.step image limits)^[n] (start entries)).Progresses image limits := by
  have hfresh : ((Search.step image limits)^[n] (start entries)).Fresh := fresh_iterate entries n
  generalize (Search.step image limits)^[n] (start entries) = s at hfresh
  cases s with
  | running r queue p c =>
    obtain ⟨hstart, hle⟩ := hfresh
    have hturns := Run.turns_of_step image limits r queue p c
    exact ⟨hstart, hle, hturns, fun queue' p' c' heq => covers_start_of_turns hle (heq ▸ hturns)⟩
  | entries | starts | stopped => exact waiting_step_of_ne_running (by simp)

/-! ### The end of the search -/

/-- The search comes from the first state to the second. -/
def Reaches (image : Image) (limits : Limits) (s s' : Search) : Prop := ∃ n, (Search.step image limits)^[n] s = s'

theorem Reaches.refl (s : Search) : Reaches image limits s s := ⟨0, rfl⟩

theorem Reaches.trans {s₁ s₂ s₃ : Search} (h : Reaches image limits s₁ s₂) (h' : Reaches image limits s₂ s₃) :
    Reaches image limits s₁ s₃ := by
  obtain ⟨n, rfl⟩ := h
  obtain ⟨m, rfl⟩ := h'
  exact ⟨m + n, Function.iterate_add_apply _ m n s₁⟩

private theorem Reaches.of_step {s s₁ s₂ : Search} (hstep : s.step image limits = s₁)
    (h : Reaches image limits s₁ s₂) :
    Reaches image limits s s₂ := by
  obtain ⟨n, rfl⟩ := h
  exact ⟨n + 1, by rw [Function.iterate_succ_apply, hstep]⟩

/-- The search behind a run. -/
def afterRun (queue : List UInt32) (p : Program) (c : Chunk) : Except DiscoveryError (Run × Option UInt32) → Search
  | .error e => .stopped (.error e)
  | .ok (r, jump) => .starts (queue ++ r.targets.reverse) (p.addRun r jump) (c.addRun r)

/-- The search behind all runs of a chunk. -/
def afterRuns : Except DiscoveryError (Program × Chunk) → Search
  | .error e => .stopped (.error e)
  | .ok (p, c) => .entries { p with chunks := p.chunks ++ [c] }

/-- A run ends before the addresses do. -/
private theorem reaches_finish {room : Nat} {r : Run} (queue : List UInt32)
    (hroom : addressCount ≤ r.cursor.toNat + room) :
    Reaches image limits (.running r queue p c) (afterRun queue p c (r.finish image limits p c room)) := by
  induction room generalizing r with
  | zero =>
    have hlt : r.cursor.toNat < addressCount := r.cursor.toNat_lt_size
    omega
  | succ room ih =>
    rw [Run.finish]
    cases hstep : r.step image limits p c with
    | error e => exact .of_step (by rw [Search.step, hstep]; rfl) (.refl _)
    | ok progress =>
      cases progress with
      | done r' jump => exact .of_step (by rw [Search.step, hstep]; rfl) (.refl _)
      | more r' =>
        have hnext : Search.step image limits (.running r queue p c) = .running r' queue p c := by
          rw [Search.step, hstep]
        have hturns := hnext ▸ Run.turns_of_step image limits r queue p c
        cases hturns with
        | goesOn _ _ hlt =>
          have hlt := UInt32.lt_iff_toNat_lt.1 hlt
          exact .of_step hnext (ih (by omega))

private theorem reaches_dropWhile_starts (queue : List UInt32) :
    Reaches image limits (.starts queue p c) (.starts (queue.dropWhile p.isCovered) p c) := by
  induction queue with
  | nil => exact .refl _
  | cons first rest ih =>
    cases hfirst : p.isCovered first with
    | true =>
      rw [List.dropWhile_cons_of_pos hfirst]
      exact .of_step (by rw [Search.step, if_pos hfirst]) ih
    | false =>
      rw [List.dropWhile_cons_of_neg (by simp [hfirst])]
      exact .refl _

private theorem reaches_dropWhile_entries (p : Program) :
    Reaches image limits (.entries p) (.entries { p with pending := p.pending.dropWhile p.isCovered }) := by
  suffices hall : ∀ pending, Reaches image limits (.entries { p with pending })
      (.entries { p with pending := pending.dropWhile p.isCovered }) from hall p.pending
  intro pending
  induction pending with
  | nil => exact .refl _
  | cons entry rest ih =>
    cases hentry : p.isCovered entry with
    | true =>
      rw [List.dropWhile_cons_of_pos hentry]
      exact .of_step (if_pos hentry) ih
    | false =>
      rw [List.dropWhile_cons_of_neg (by simp [hentry])]
      exact .refl _

end Search

@[simp] theorem Chunk.covers_new (id entry address : UInt32) : (Chunk.new id entry).covers address = false := rfl

namespace Program

variable {image : Image} {limits : Limits} {p p' : Program} {c : Chunk}

/-- A run leaves fewer addresses uncovered. -/
private theorem uncovered_addRun_lt {start : UInt32} {room : Nat} {r : Run} {jump : Option UInt32}
    (hcovers : ∀ address, c.covers address = true → p.isCovered address = true) (hstart : p.isCovered start = false)
    (h : (Run.new p c start).finish image limits p c room = .ok (r, jump)) :
    (p.addRun r jump).uncovered < p.uncovered := by
  obtain ⟨hrun, hcomplete⟩ := complete_of_new hcovers hstart h
  have hinside := hcomplete.isRun.contains_start
  rw [show r.range.start = start from hrun] at hinside
  refine uncovered_lt (fun x hx => ?_) hstart ?_
  · rw [isCovered_addRun, hx, Bool.true_or]
  · rw [isCovered_addRun, hinside, Bool.or_true]

/-- A chunk leaves fewer addresses uncovered. -/
private theorem uncovered_lt_of_addRuns {entry : UInt32} {rest : List UInt32} {id : UInt32}
    (hentry : p.isCovered entry = false)
    (h : addRuns image limits addressCount [entry] { p with pending := rest } (.new id entry) = .ok (p', c)) :
    p'.uncovered < p.uncovered := by
  obtain ⟨hgrows, hqueue, -⟩ := closes_of_addRuns (uncovered_le _) (by simp)
    (by intro _ hnew; cases hnew) h
  exact uncovered_lt hgrows.covered hentry (hqueue entry List.mem_cons_self)

end Program

namespace Search

variable {image : Image} {limits : Limits} {p : Program} {c : Chunk}

/-- The runs of a chunk come to their end, since each of them leaves fewer addresses uncovered. -/
private theorem reaches_addRuns {budget : Nat} {queue : List UInt32} (hbudget : p.uncovered ≤ budget)
    (hcovers : ∀ address, c.covers address = true → p.isCovered address = true) :
    Reaches image limits (.starts queue p c) (afterRuns (Program.addRuns image limits budget queue p c)) := by
  induction budget generalizing queue p c with
  | zero =>
    have := p.uncovered_pos
    omega
  | succ budget ih =>
    refine (reaches_dropWhile_starts queue).trans ?_
    rw [Program.addRuns]
    cases hqueue : queue.dropWhile p.isCovered with
    | nil => exact .of_step rfl (.refl _)
    | cons first rest =>
      have hfirst : p.isCovered first = false := Program.isCovered_of_dropWhile hqueue
      refine .of_step (by rw [Search.step, if_neg (by simp [hfirst])]) ?_
      have hroom : addressCount ≤ (Run.new p c first).cursor.toNat + (addressCount - first.toNat) := by
        show addressCount ≤ first.toNat + (addressCount - first.toNat)
        omega
      refine (reaches_finish rest hroom).trans ?_
      dsimp only
      cases hfinish : (Run.new p c first).finish image limits p c (addressCount - first.toNat) with
      | error e => exact .refl _
      | ok result =>
        obtain ⟨r, jump⟩ := result
        have hless := Program.uncovered_addRun_lt hcovers hfirst hfinish
        exact ih (by omega) (Program.isCovered_of_covers hcovers r jump)

/-- The chunks come to their end, since each of them leaves fewer addresses uncovered. -/
private theorem reaches_addChunks {budget : Nat} (hbudget : p.uncovered ≤ budget) :
    Reaches image limits (.entries p) (.stopped (Program.addChunks image limits budget p)) := by
  induction budget generalizing p with
  | zero =>
    have := p.uncovered_pos
    omega
  | succ budget ih =>
    refine (reaches_dropWhile_entries p).trans ?_
    rw [Program.addChunks]
    cases hpending : p.pending.dropWhile p.isCovered with
    | nil => exact .of_step rfl (.refl _)
    | cons entry rest =>
      have hentry : p.isCovered entry = false := Program.isCovered_of_dropWhile hpending
      have huncovered : ¬ ({ p with pending := entry :: rest }.isCovered entry) = true := by
        rw [show ({ p with pending := entry :: rest } : Program).isCovered entry = p.isCovered entry from rfl, hentry]
        simp
      dsimp only
      by_cases hlimit : limits.maxChunks.toNat ≤ p.chunks.length
      · rw [if_pos hlimit]
        exact .of_step ((if_neg huncovered).trans (if_pos hlimit)) (.refl _)
      · rw [if_neg hlimit]
        refine .of_step ((if_neg huncovered).trans (if_neg hlimit)) ?_
        refine (reaches_addRuns (Program.uncovered_le _) (by simp)).trans ?_
        cases hruns : Program.addRuns image limits addressCount [entry] { p with pending := rest }
            (.new (UInt32.ofNat p.chunks.length) entry) with
        | error e => exact .refl _
        | ok result =>
          obtain ⟨p₁, c⟩ := result
          have hless := Program.uncovered_lt_of_addRuns hentry hruns
          have hsame : ({ p₁ with chunks := p₁.chunks ++ [c] } : Program).uncovered = p₁.uncovered := rfl
          exact ih (by omega)

/-- The search stops with the result of discovery. -/
theorem reaches_discover (image : Image) (entries : List UInt32) (limits : Limits) :
    Reaches image limits (start entries) (.stopped (Program.discover image entries limits)) :=
  reaches_addChunks (Program.uncovered_le _)

end Search

/-! ### The result -/

/-- The number of addresses that a section holds. -/
def Image.mappedCount (image : Image) : Nat :=
  ((Finset.range addressCount).filter fun n => (image.section? (UInt32.ofNat n)).isSome = true).card

namespace Program

variable {image : Image} {limits : Limits} {p p' : Program} {c c' : Chunk}

/-- Each range holds its own start and begins outside the ranges before it. -/
structure Spread (ranges : List AddressRange) : Prop where
  apart : ranges.Pairwise fun earlier later => earlier.contains later.start = false
  nonempty : ∀ r ∈ ranges, r.contains r.start = true

private theorem Spread.concat {ranges : List AddressRange} (h : Spread ranges) {r : AddressRange}
    (hstart : isIn r.start ranges = false) (hr : r.contains r.start = true) : Spread (ranges ++ [r]) where
  apart := by
    refine List.pairwise_append.2 ⟨h.apart, List.pairwise_singleton _ _, fun earlier hearlier later hlater => ?_⟩
    rw [List.mem_singleton.1 hlater, ← Bool.not_eq_true]
    exact List.any_eq_false.1 hstart earlier hearlier
  nonempty := List.forall_mem_append.2 ⟨h.nonempty, List.forall_mem_singleton.2 hr⟩

private theorem spread_of_addRuns {budget : Nat} {queue : List UInt32}
    (hcovers : ∀ address, c.covers address = true → p.isCovered address = true) (hp : Spread p.covered)
    (h : addRuns image limits budget queue p c = .ok (p', c')) : Spread p'.covered := by
  have hkept := addRuns_induction (M := fun q d => (∀ address, d.covers address = true → q.isCovered address = true) ∧
    Spread q.covered) ?_ h ⟨hcovers, hp⟩
  · exact hkept.2
  rintro q d start room r jump hstart hfinish ⟨hcovers, hq⟩
  obtain ⟨hrun, hcomplete⟩ := complete_of_new hcovers hstart hfinish
  refine ⟨isCovered_of_covers hcovers r jump, hq.concat ?_ hcomplete.isRun.contains_start⟩
  rw [show r.range.start = start from hrun]
  exact hstart

private theorem spread_of_discover {entries : List UInt32} (h : discover image entries limits = .ok p) :
    Spread p.covered := by
  refine discover_induction (M := fun p => Spread p.covered) (fun _ => ⟨.nil, by simp⟩) (fun _ hq => hq) ?_ h
  intro q q' entry rest d _ _ hruns hq
  have hq : Spread { q with pending := rest }.covered := hq
  have hspread : Spread q'.covered := spread_of_addRuns (by simp) hq hruns
  exact hspread

/-- No two chunks have the same entry: each entry is covered by its chunk and was not covered before. -/
private theorem nodup_entries_of_discover {entries : List UInt32} (h : discover image entries limits = .ok p) :
    (p.chunks.map Chunk.entry).Nodup := by
  have hall := discover_induction (M := fun p => (p.chunks.map Chunk.entry).Nodup ∧
    ∀ d ∈ p.chunks, p.isCovered d.entry = true) (fun _ => by simp) (fun _ hq => hq) ?_ h
  · exact hall.1
  rintro q q' entry rest d - hentry hruns ⟨hnodup, hcovered⟩
  obtain ⟨hgrows, hqueue, -⟩ := closes_of_addRuns (uncovered_le _) (by simp)
    (by intro _ hnew; cases hnew) hruns
  have hd : d.entry = entry :=
    addRuns_induction (M := fun _ e => e.entry = entry) (fun _ _ _ _ _ _ _ _ he => he) hruns rfl
  have hchunks : q'.chunks = q.chunks := (addRuns_chunks hruns :)
  refine ⟨?_, ?_⟩
  · rw [hchunks, List.map_append, List.map_singleton, hd, List.nodup_append]
    refine ⟨hnodup, List.nodup_singleton _, fun x hx y hy heq => ?_⟩
    obtain ⟨e, he, rfl⟩ := List.mem_map.1 hx
    rw [List.mem_singleton.1 hy] at heq
    rw [← heq, hcovered e he] at hentry
    cases hentry
  · refine List.forall_mem_append.2 ⟨fun e he => ?_, List.forall_mem_singleton.2 ?_⟩
    · exact hgrows.covered _ (hcovered e (hchunks ▸ he))
    · rw [hd]
      exact hqueue entry List.mem_cons_self

/-- There are no more runs than mapped addresses, since each run has begun at another one. -/
theorem length_covered_le {entries : List UInt32} (h : discover image entries limits = .ok p) :
    p.covered.length ≤ image.mappedCount := by
  obtain ⟨hapart, hnonempty⟩ := spread_of_discover h
  have hdistinct : (p.covered.map fun r => r.start.toNat).Nodup := by
    refine List.pairwise_map.2 (hapart.imp_of_mem fun {earlier later} hearlier _ hout heq => ?_)
    rw [← UInt32.toNat_inj.1 heq, hnonempty earlier hearlier] at hout
    cases hout
  have hmapped : ∀ r ∈ p.covered, (image.section? r.start).isSome = true := by
    intro r hr
    obtain ⟨d, hd, hcovers⟩ := covers_of_isCovered h (List.any_eq_true.2 ⟨r, hr, hnonempty r hr⟩)
    exact ((wellBuilt_of_discover h).spliced hd).isSome_section? hcovers
  calc
    p.covered.length = (p.covered.map fun r => r.start.toNat).toFinset.card := by
      rw [List.toFinset_card_of_nodup hdistinct, List.length_map]
    _ ≤ image.mappedCount := by
      refine Finset.card_le_card fun n hn => ?_
      obtain ⟨r, hr, rfl⟩ := List.mem_map.1 (List.mem_toFinset.1 hn)
      refine Finset.mem_filter.2 ⟨Finset.mem_range.2 r.start.toNat_lt_size, ?_⟩
      rw [UInt32.ofNat_toNat]
      exact hmapped r hr

end Program

/-- The search stops with the result of discovery, whatever the limits are.  Each of its turns makes progress: a run
begins at an address that nothing covers and moves on to later addresses until it fails, meets code of its chunk or
comes to a jump or a return, whereupon its start is covered, and only turns of a run add addresses that wait.  In a
program that is found, no entry point waits, chunks are numbered by position and have different entries, and each
range begins outside the ranges before it, so that there are no more of them than mapped addresses. -/
theorem Search.terminates_with_discover (image : Image) (entries : List UInt32) (limits : Limits) :
    (∃ n, (Search.step image limits)^[n] (.start entries) = .stopped (Program.discover image entries limits)) ∧
      (∀ n, ((Search.step image limits)^[n] (.start entries)).Progresses image limits) ∧
      ∀ p, Program.discover image entries limits = .ok p →
        p.pending = [] ∧ (∀ (position : Nat) (c : Chunk), p.chunks[position]? = some c → c.id.toNat = position) ∧
          (p.chunks.map Chunk.entry).Nodup ∧
          (p.covered.Pairwise fun earlier later => earlier.contains later.start = false) ∧
          p.covered.length ≤ image.mappedCount := by
  refine ⟨reaches_discover image entries limits, progresses_iterate entries, fun p h => ?_⟩
  refine ⟨(Program.closed_of_discover h).1, fun position c hc => ?_, Program.nodup_entries_of_discover h,
    (Program.spread_of_discover h).apart, Program.length_covered_le h⟩
  exact ((Program.wellBuilt_of_discover h).chunks position c hc).1

/-- Two functions that call each other, a jump and a conditional jump to themselves, and a jump into the middle of an
instruction. -/
def knotted : Image :=
  .flat 0x1000 [0xe8, 0x02, 0x00, 0x00, 0x00, 0xeb, 0xfe, 0xe8, 0xf4, 0xff, 0xff, 0xff, 0x74, 0xfe, 0xb0, 0xc3, 0xeb,
    0xfd]

/-- Without limits, the search ends for code that runs in circles. -/
theorem Search.terminates_knotted : ∃ p,
    Program.discover knotted [0x1000] ⟨0xffffffffffffffff, 0xffffffffffffffff⟩ = .ok p ∧
    p.covered = [⟨0x1000, 0x1007⟩, ⟨0x1007, 0x1012⟩] ∧ p.chunks.map Chunk.entry = [0x1000, 0x1007] ∧
    (∃ n, (Search.step knotted ⟨0xffffffffffffffff, 0xffffffffffffffff⟩)^[n] (.start [0x1000]) = .stopped (.ok p)) ∧
    p.pending = [] ∧ 2 ≤ knotted.mappedCount := by
  obtain ⟨p, hp, hcovered, hentries⟩ : ∃ p,
      Program.discover knotted [0x1000] ⟨0xffffffffffffffff, 0xffffffffffffffff⟩ = .ok p ∧
      p.covered = [⟨0x1000, 0x1007⟩, ⟨0x1007, 0x1012⟩] ∧ p.chunks.map Chunk.entry = [0x1000, 0x1007] :=
    exists_of_any_toOption (by decide +kernel)
  obtain ⟨hstops, -, hresult⟩ :=
    terminates_with_discover knotted [0x1000] ⟨0xffffffffffffffff, 0xffffffffffffffff⟩
  rw [hp] at hstops
  obtain ⟨hpending, -, -, -, hcount⟩ := hresult p hp
  rw [hcovered] at hcount
  exact ⟨p, hp, hcovered, hentries, hstops, hpending, hcount⟩

end Ia32Wasm
