import Ia32Wasm.Proofs.Outcomes
import Ia32Wasm.Proofs.Program.Runs

/-!
# The structure of discovered programs

Every chunk of a discovered program begins at its entry and is made of one run for each of its ranges, in order.  The
ranges may overlap, but no two instructions of a chunk start at the same address, jumps of no bytes aside, since a run
stops where it meets code that its chunk already holds.

* `Chunk.Spliced` is kept by each new run (`Chunk.Spliced.addRun`), so by all runs of a chunk.
* `Program.WellBuilt` is kept by each new chunk, so discovered programs have it (`wellBuilt_of_discover`).
* What a new run or a new chunk keeps is kept by all of them (`addRuns_induction`, `discover_induction`).
-/

namespace Ia32Wasm

open X86 (Instruction)

/-- The chunk is made of one run for each range, and no two of its instructions start at one address, jumps of no
bytes aside; none of them is the target of a branch yet. -/
structure Chunk.Spliced (image : Image) (c : Chunk) : Prop where
  runs : ∃ runs : List (List Instruction), c.instructions = runs.flatten ∧ List.Forall₂ (IsRun image) c.ranges runs
  covered : ∀ i ∈ c.instructions, i.isFallThrough = false → c.covers i.address = true
  distinct : c.instructions.Pairwise fun i j =>
    i.isFallThrough = false → j.isFallThrough = false → i.address ≠ j.address
  untargeted : c.targets = .empty

/-- The chunk has instructions, and the first of them is at its entry. -/
def Chunk.Entered (c : Chunk) : Prop := c.instructions.head?.map Instruction.address = some c.entry

/-- The chunks of the program are numbered by position, each is entered at its start and made of runs, and no branch
has been resolved. -/
structure Program.WellBuilt (image : Image) (p : Program) : Prop where
  chunks : ∀ (position : Nat) (c : Chunk), p.chunks[position]? = some c → c.id.toNat = position ∧ c.Entered ∧
    c.Spliced image
  unresolved : p.resolved = false

/-! ### Chunks -/

@[simp] private theorem isIn_append (address : UInt32) (l m : List AddressRange) :
    isIn address (l ++ m) = (isIn address l || isIn address m) :=
  List.any_append

@[simp] private theorem isIn_singleton (address : UInt32) (r : AddressRange) :
    isIn address [r] = r.contains address := by
  simp [isIn]

namespace Chunk

variable {image : Image} {limits : Limits} {c : Chunk} {r : Run}

@[simp] theorem covers_addRun (c : Chunk) (r : Run) (address : UInt32) :
    (c.addRun r).covers address = (c.covers address || r.range.contains address) := by
  simp [covers, addRun]

private theorem ascending_of_isRun {range : AddressRange} {run : List Instruction} (h : IsRun image range run) :
    run.Pairwise fun i j => i.address < j.address := by
  have hchain : run.IsChain fun i j => i.address < j.address := h.linked.imp fun _ _ hij => hij.2
  have : IsTrans Instruction fun i j => i.address < j.address := ⟨fun _ _ _ => UInt32.lt_trans⟩
  exact List.isChain_iff_pairwise.1 hchain

private theorem spliced_new (id entry : UInt32) : (new id entry).Spliced image :=
  ⟨⟨[], rfl, .nil⟩, by simp [new], .nil, rfl⟩

theorem Spliced.addRun (h : c.Spliced image) (hr : r.Complete image c) : (c.addRun r).Spliced image where
  runs := by
    obtain ⟨runs, hruns, hranges⟩ := h.runs
    refine ⟨runs ++ [r.read.reverse], ?_, List.rel_append hranges (.cons hr.isRun .nil)⟩
    simp [Chunk.addRun, hruns]
  covered := by
    intro i hi hreal
    rw [covers_addRun, Bool.or_eq_true]
    rcases List.mem_append.1 hi with hold | hnew
    · exact .inl (h.covered i hold hreal)
    · exact .inr (hr.inside i hnew hreal)
  distinct := by
    refine List.pairwise_append.2 ⟨h.distinct, ?_, fun i hi j hj hireal hjreal haddress => ?_⟩
    · exact (ascending_of_isRun hr.isRun).imp fun hlt _ _ => UInt32.ne_of_lt hlt
    · -- What the chunk held before is covered, what the run adds was not.
      have hcovered := h.covered i hi hireal
      rw [haddress, hr.fresh j hj hjreal] at hcovered
      cases hcovered
  untargeted := h.untargeted

/-- The instructions of a chunk are those of the image and jumps of no bytes. -/
theorem Spliced.discovered_or_fallThrough (h : c.Spliced image) {i : Instruction} (hi : i ∈ c.instructions) :
    Discovered image i ∨ ∃ address, i = .fallThrough address := by
  obtain ⟨runs, hruns, hranges⟩ := h.runs
  rw [hruns] at hi
  generalize c.ranges = ranges at hranges
  clear hruns
  induction hranges with
  | nil => simp at hi
  | cons hrun _ ih =>
    rcases List.mem_append.1 (List.flatten_cons ▸ hi) with hi | hi
    · obtain ⟨real, -, hreal, rfl | rfl⟩ := hrun.read
      · exact .inl (hreal i hi)
      · rcases List.mem_append.1 hi with hi | hi
        · exact .inl (hreal i hi)
        · exact .inr ⟨_, List.mem_singleton.1 hi⟩
    · exact ih hi

theorem Entered.addRun (h : c.Entered) (r : Run) : (c.addRun r).Entered := by
  unfold Entered at h ⊢
  cases hl : c.instructions with
  | nil => simp [hl] at h
  | cons i rest =>
    rw [hl] at h
    simpa [Chunk.addRun, hl] using h

end Chunk

namespace Program

variable {image : Image} {limits : Limits}

/-- A run from a start that is not covered is complete, and begins there. -/
theorem complete_of_new {p : Program} {c : Chunk} {start : UInt32} {room : Nat} {r : Run}
    {jump : Option UInt32} (hcovers : ∀ address, c.covers address = true → p.isCovered address = true)
    (hstart : p.isCovered start = false) (h : (Run.new p c start).finish image limits p c room = .ok (r, jump)) :
    r.start = start ∧ r.Complete image c := by
  refine Run.complete_of_finish ?_ (.nil start) h
  cases hc : c.covers start with
  | false => exact hc
  | true =>
    rw [hcovers start hc] at hstart
    cases hstart

@[simp] theorem isCovered_addRun (p : Program) (r : Run) (jump : Option UInt32) (address : UInt32) :
    (p.addRun r jump).isCovered address = (p.isCovered address || r.range.contains address) := by
  simp [isCovered, addRun]

/-- A program covers what the chunk that it is working on does, also behind one more run. -/
theorem isCovered_of_covers {p : Program} {c : Chunk}
    (hcovers : ∀ address, c.covers address = true → p.isCovered address = true) (r : Run) (jump : Option UInt32) :
    ∀ address, (c.addRun r).covers address = true → (p.addRun r jump).isCovered address = true := by
  intro address
  rw [Chunk.covers_addRun, isCovered_addRun, Bool.or_eq_true, Bool.or_eq_true]
  exact Or.imp_left (hcovers address)

/-- What is left when covered addresses are dropped from the front of a queue begins with one that is not covered. -/
theorem isCovered_of_dropWhile {p : Program} {queue rest : List UInt32} {start : UInt32}
    (h : queue.dropWhile p.isCovered = start :: rest) : p.isCovered start = false := by
  have := List.head?_dropWhile_not p.isCovered queue
  rw [h] at this
  simpa using this

/-- What each new run of a chunk keeps is kept by all of its runs. -/
theorem addRuns_induction {M : Program → Chunk → Prop}
    (hrun : ∀ p c start room r jump, p.isCovered start = false →
      (Run.new p c start).finish image limits p c room = .ok (r, jump) → M p c → M (p.addRun r jump) (c.addRun r))
    {budget : Nat} {queue : List UInt32} {p p' : Program} {c c' : Chunk}
    (h : addRuns image limits budget queue p c = .ok (p', c')) (hM : M p c) : M p' c' := by
  induction budget generalizing queue p c with
  | zero =>
    cases h
    exact hM
  | succ budget ih =>
    rw [addRuns] at h
    cases hqueue : queue.dropWhile p.isCovered with
    | nil =>
      rw [hqueue] at h
      cases h
      exact hM
    | cons start rest =>
      simp only [hqueue] at h
      split at h
      · cases h
      · rename_i r jump hfinish
        exact ih h (hrun p c start _ r jump (isCovered_of_dropWhile hqueue) hfinish hM)

/-- The finished chunks are left alone while another is built. -/
theorem addRuns_chunks {budget : Nat} {queue : List UInt32} {p p' : Program} {c c' : Chunk}
    (h : addRuns image limits budget queue p c = .ok (p', c')) : p'.chunks = p.chunks :=
  addRuns_induction (M := fun q _ => q.chunks = p.chunks) (fun _ _ _ _ _ _ _ _ hq => hq) h rfl

/-- The runs added to a chunk keep its structure, its entry and its number. -/
private theorem addRuns_eq_ok {budget : Nat} {queue : List UInt32} {p p' : Program} {c c' : Chunk}
    (hcovers : ∀ address, c.covers address = true → p.isCovered address = true) (hentered : c.Entered)
    (hspliced : c.Spliced image) (h : addRuns image limits budget queue p c = .ok (p', c')) :
    c'.Entered ∧ c'.Spliced image ∧ c'.id = c.id ∧ p'.resolved = p.resolved := by
  have hkept := addRuns_induction (M := fun q d => (∀ address, d.covers address = true → q.isCovered address = true) ∧
    d.Entered ∧ d.Spliced image ∧ d.id = c.id ∧ q.resolved = p.resolved) ?_ h ⟨hcovers, hentered, hspliced, rfl, rfl⟩
  · exact hkept.2
  rintro q d start room r jump hstart hfinish ⟨hcovers, hentered, hspliced, hrest⟩
  have hcomplete := (complete_of_new hcovers hstart hfinish).2
  exact ⟨isCovered_of_covers hcovers r jump, hentered.addRun r, hspliced.addRun hcomplete, hrest⟩

/-- A chunk at an address that nothing covers begins there. -/
private theorem addRuns_new {budget : Nat} {p p' : Program} {id entry : UInt32} {c : Chunk} (hbudget : 0 < budget)
    (hentry : p.isCovered entry = false) (h : addRuns image limits budget [entry] p (.new id entry) = .ok (p', c)) :
    c.Entered ∧ c.Spliced image ∧ c.id = id ∧ p'.resolved = p.resolved := by
  obtain ⟨budget, rfl⟩ := Nat.exists_eq_succ_of_ne_zero (Nat.ne_of_gt hbudget)
  have hcovers : ∀ address, (Chunk.new id entry).covers address = true → p.isCovered address = true := by
    intro address hnew
    cases hnew
  rw [addRuns, List.dropWhile_cons_of_neg (by simp [hentry])] at h
  dsimp only at h
  cases hfinish : (Run.new p (.new id entry) entry).finish image limits p (.new id entry)
      (addressCount - entry.toNat) with
  | error e => simp [hfinish] at h
  | ok result =>
    obtain ⟨r, jump⟩ := result
    simp only [hfinish] at h
    obtain ⟨hstart, hcomplete⟩ := complete_of_new hcovers hentry hfinish
    have hentered : ((Chunk.new id entry).addRun r).Entered := by
      have hbegins := hcomplete.isRun.begins
      rw [Run.range, hstart] at hbegins
      exact hbegins
    have hrest := addRuns_eq_ok (isCovered_of_covers hcovers r jump) hentered
      ((Chunk.spliced_new id entry).addRun hcomplete) h
    exact hrest

/-! ### Programs -/

/-- The number of a new chunk does not wrap, since there are no more chunks than addresses. -/
private theorem numbered_append {p : Program} {c : Chunk} (hp : p.WellBuilt image)
    (hroom : p.chunks.length < UInt32.size)
    (hid : c.id = UInt32.ofNat p.chunks.length) (hentered : c.Entered) (hspliced : c.Spliced image) :
    ∀ (position : Nat) (d : Chunk), (p.chunks ++ [c])[position]? = some d →
      d.id.toNat = position ∧ d.Entered ∧ d.Spliced image := by
  intro position d hd
  rcases Nat.lt_trichotomy position p.chunks.length with hlt | rfl | hgt
  · rw [List.getElem?_append_left hlt] at hd
    exact hp.chunks position d hd
  · rw [List.getElem?_concat_length, Option.some.injEq] at hd
    subst hd
    exact ⟨by rw [hid, UInt32.toNat_ofNat_of_lt' hroom], hentered, hspliced⟩
  · rw [List.getElem?_eq_none (by simp; omega)] at hd
    cases hd

/-- What each new chunk keeps is kept by discovery, which adds a chunk only within the limit on their number. -/
theorem discover_induction_within {M : Program → Prop}
    (hstart : ∀ pending, M { pending }) (hend : ∀ p, M p → M { p with pending := [] })
    (hchunk : ∀ p p' entry rest c, p.chunks.length < addressCount → p.chunks.length < limits.maxChunks.toNat →
      p.isCovered entry = false →
      addRuns image limits addressCount [entry] { p with pending := rest }
        (.new (UInt32.ofNat p.chunks.length) entry) = .ok (p', c) →
      M p → M { p' with chunks := p'.chunks ++ [c] })
    {entries : List UInt32} {p : Program} (h : discover image entries limits = .ok p) : M p := by
  -- Each round spends one of the budget for one chunk, so that the number of a chunk always fits.
  suffices hall : ∀ budget p p', (p.chunks.length + budget ≤ addressCount) → M p →
      addChunks image limits budget p = .ok p' → M p' from
    hall _ _ _ (by simp) (hstart _) h
  intro budget
  induction budget with
  | zero =>
    intro p p' _ hM h
    cases h
    exact hM
  | succ budget ih =>
    intro p p' hroom hM h
    rw [addChunks] at h
    cases hpending : p.pending.dropWhile p.isCovered with
    | nil =>
      rw [hpending] at h
      cases h
      exact hend p hM
    | cons entry rest =>
      simp only [hpending] at h
      split at h
      · cases h
      rename_i hlimit
      split at h
      · cases h
      · rename_i p₁ c hruns
        have hchunks := addRuns_chunks hruns
        have hentry := isCovered_of_dropWhile hpending
        refine ih _ _ ?_ (hchunk p p₁ entry rest c (by omega) (Nat.lt_of_not_le hlimit) hentry hruns hM) h
        simp only [hchunks, List.length_append, List.length_singleton]
        omega

/-- What each new chunk keeps is kept by discovery. -/
theorem discover_induction {M : Program → Prop}
    (hstart : ∀ pending, M { pending }) (hend : ∀ p, M p → M { p with pending := [] })
    (hchunk : ∀ p p' entry rest c, p.chunks.length < addressCount → p.isCovered entry = false →
      addRuns image limits addressCount [entry] { p with pending := rest }
        (.new (UInt32.ofNat p.chunks.length) entry) = .ok (p', c) →
      M p → M { p' with chunks := p'.chunks ++ [c] })
    {entries : List UInt32} {p : Program} (h : discover image entries limits = .ok p) : M p :=
  discover_induction_within hstart hend (fun p p' entry rest c hroom _ => hchunk p p' entry rest c hroom) h

/-- Discovered programs are well built. -/
theorem wellBuilt_of_discover {entries : List UInt32} {p : Program} (h : discover image entries limits = .ok p) :
    p.WellBuilt image := by
  refine discover_induction (fun _ => ⟨by simp, rfl⟩) (fun q hq => ⟨hq.chunks, hq.unresolved⟩) ?_ h
  intro q q' entry rest c hroom hentry hruns hq
  have hentry : { q with pending := rest }.isCovered entry = false := hentry
  obtain ⟨hentered, hspliced, hid, hresolved⟩ := addRuns_new (by decide) hentry hruns
  have hchunks : q'.chunks = q.chunks := (addRuns_chunks hruns :)
  exact ⟨hchunks ▸ numbered_append hq hroom hid hentered hspliced, hresolved.trans hq.unresolved⟩

/-! ### Straight-line flow -/

/-- An instruction of a run that neither jumps nor returns is not the last one. -/
private theorem next_of_isRun {range : AddressRange} {run : List Instruction} (h : IsRun image range run)
    {index : Nat}
    {i : Instruction} (hi : run[index]? = some i) (hends : ¬ (i.mnemonic = .jump ∨ i.mnemonic = .ret)) :
    ∃ j, run[index + 1]? = some j ∧ j.address = i.nextAddress := by
  obtain ⟨hindex, rfl⟩ := List.getElem?_eq_some_iff.1 hi
  have hnext : index + 1 < run.length := by
    by_contra hlast
    have hlast : run.getLast? = some run[index] := by
      rw [List.getLast?_eq_getElem?, show run.length - 1 = index by omega, hi]
    exact hends (h.transfers _ hlast)
  exact ⟨run[index + 1], List.getElem?_eq_getElem hnext, (h.linked.getElem index hnext).1⟩

/-- Runs one after the other flow on within each of them only. -/
theorem next_of_runs {ranges : List AddressRange} {runs : List (List Instruction)}
    (h : List.Forall₂ (IsRun image) ranges runs) {index : Nat} {i : Instruction} (hi : runs.flatten[index]? = some i)
    (hends : ¬ (i.mnemonic = .jump ∨ i.mnemonic = .ret)) :
    ∃ j, runs.flatten[index + 1]? = some j ∧ j.address = i.nextAddress := by
  induction h generalizing index with
  | nil => simp at hi
  | @cons range run ranges runs hrun _ ih =>
    rw [List.flatten_cons] at hi ⊢
    by_cases hindex : index < run.length
    · rw [List.getElem?_append_left hindex] at hi
      obtain ⟨j, hj, haddress⟩ := next_of_isRun hrun hi hends
      exact ⟨j, by rw [List.getElem?_append_left (List.getElem?_eq_some_iff.1 hj).1, hj], haddress⟩
    · rw [List.getElem?_append_right (by omega)] at hi
      obtain ⟨j, hj, haddress⟩ := ih hi
      refine ⟨j, ?_, haddress⟩
      rw [List.getElem?_append_right (by omega), show index + 1 - run.length = index - run.length + 1 by omega, hj]

/-- A discovered chunk begins at its entry and is the concatenation of one run for each of its ranges, and from every
instruction that neither jumps nor returns control goes on to the next one in the chunk. -/
theorem straightLine_of_discover {entries : List UInt32} {p : Program} {c : Chunk}
    (h : discover image entries limits = .ok p) (hc : c ∈ p.chunks) :
    c.instructions.head?.map Instruction.address = some c.entry ∧
      (∃ runs : List (List Instruction), c.instructions = runs.flatten ∧ List.Forall₂ (IsRun image) c.ranges runs) ∧
      ∀ index i, c.instructions[index]? = some i → i.mnemonic ≠ .jump → i.mnemonic ≠ .ret →
        ∃ j, c.instructions[index + 1]? = some j ∧ j.address = i.nextAddress := by
  obtain ⟨position, hposition⟩ := List.getElem?_of_mem hc
  obtain ⟨-, hentered, hspliced⟩ := (wellBuilt_of_discover h).chunks position c hposition
  obtain ⟨runs, hruns, hranges⟩ := hspliced.runs
  refine ⟨hentered, ⟨runs, hruns, hranges⟩, fun index i hi hjump hret => ?_⟩
  rw [hruns] at hi ⊢
  exact next_of_runs hranges hi fun hends => hends.elim hjump hret

/-- A loop that is entered in its middle, calls its last instruction through a pointer and branches back to its
start. -/
def rotated : Image :=
  .flat 0x1000 [0x48, 0x90, 0x90, 0xff, 0x15, 0x0c, 0x10, 0x00, 0x00, 0x74, 0xf5, 0xc3, 0x0b, 0x10, 0x00, 0x00]

/-- The chunk of the loop has two runs, of which the second ends with a jump of no bytes to the first. -/
theorem straightLine_rotated : ∃ p c, discover rotated [0x1003] {} = .ok p ∧ c ∈ p.chunks ∧
    c.ranges = [⟨0x1003, 0x100c⟩, ⟨0x1000, 0x1003⟩] ∧ c.instructions.getLast? = some (.fallThrough 0x1003) ∧
    c.instructions.head?.bind Instruction.relativeTarget? = some 0x100b ∧
    c.instructions.head?.map Instruction.address = some c.entry ∧
    (∃ runs : List (List Instruction), c.instructions = runs.flatten ∧ List.Forall₂ (IsRun rotated) c.ranges runs) ∧
    ∀ index i, c.instructions[index]? = some i → i.mnemonic ≠ .jump → i.mnemonic ≠ .ret →
      ∃ j, c.instructions[index + 1]? = some j ∧ j.address = i.nextAddress := by
  obtain ⟨p, hp, c, hc, hranges, hlast, hcall⟩ : ∃ p, discover rotated [0x1003] {} = .ok p ∧ ∃ c ∈ p.chunks,
      c.ranges = [⟨0x1003, 0x100c⟩, ⟨0x1000, 0x1003⟩] ∧ c.instructions.getLast? = some (.fallThrough 0x1003) ∧
        c.instructions.head?.bind Instruction.relativeTarget? = some 0x100b :=
    exists_of_any_toOption (by decide +kernel)
  exact ⟨p, c, hp, hc, hranges, hlast, hcall, straightLine_of_discover hp hc⟩

end Program

end Ia32Wasm
