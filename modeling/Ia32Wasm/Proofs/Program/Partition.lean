import Ia32Wasm.Proofs.Program.Lookup

/-!
# How the instructions of a chunk share its addresses

A run holds each address of its range once, so an address of a chunk lies in as many instructions as the chunk has
ranges around it.  Ranges overlap where an instruction begins in front of another run and reaches over its start,
since a run looks for code that its chunk holds only between two instructions.

* `IsRun.path` is a run without the jump of no bytes at its end, `IsRun.countP_holds` what it holds.
* `Chunk.Spliced.countP_holds` adds up the runs of a chunk, `Chunk.Spliced.partition_iff` says when they are disjoint.
-/

namespace Ia32Wasm

open X86 (Instruction)

/-- The address is one of those the instruction occupies. -/
def X86.Instruction.holds (i : Instruction) (address : UInt32) : Bool :=
  i.address ≤ address && address < i.nextAddress

/-- The instruction begins in front of the address and reaches over it. -/
def X86.Instruction.Straddles (i : Instruction) (address : UInt32) : Prop :=
  i.address < address ∧ address < i.nextAddress

instance (i : Instruction) (address : UInt32) : Decidable (i.Straddles address) :=
  inferInstanceAs (Decidable (_ ∧ _))

variable {image : Image} {range : AddressRange} {run : List Instruction}

@[simp] theorem X86.Instruction.holds_iff {i : Instruction} {address : UInt32} :
    i.holds address = true ↔ i.address ≤ address ∧ address < i.nextAddress := by
  simp [Instruction.holds]

@[simp] theorem AddressRange.contains_iff {r : AddressRange} {address : UInt32} :
    r.contains address = true ↔ r.start ≤ address ∧ address < r.stop := by
  simp [AddressRange.contains]

/-- A jump of no bytes holds no address. -/
theorem X86.Instruction.holds_fallThrough (target address : UInt32) :
    (Instruction.fallThrough target).holds address = false := by
  rw [← Bool.not_eq_true, Instruction.holds_iff]
  rintro ⟨hle, hlt⟩
  exact UInt32.lt_irrefl _ (UInt32.lt_of_le_of_lt hle hlt)

private theorem holds_address_of_discovered {i : Instruction} (h : Discovered image i) : i.holds i.address = true :=
  Instruction.holds_iff.2 ⟨UInt32.le_refl _, lt_of_discovered h⟩

/-! ### Runs -/

private theorem path_of_linked {P : Instruction → Prop} {l : List Instruction} {start stop : UInt32}
    (hlinked : l.IsChain fun i j => j.address = i.nextAddress ∧ i.address < j.address)
    (hbegins : l.head?.map Instruction.address = some start)
    (hends : l.getLast?.map Instruction.nextAddress = some stop) (hP : ∀ i ∈ l, P i) : Path P start l stop := by
  induction l generalizing start with
  | nil => cases hbegins
  | cons i rest ih =>
    obtain rfl : i.address = start := by simpa using hbegins
    have hi : P i := hP i List.mem_cons_self
    cases rest with
    | nil =>
      obtain rfl : i.nextAddress = stop := by simpa using hends
      exact .cons hi (.nil _)
    | cons j rest =>
      obtain ⟨⟨hj, -⟩, hrest⟩ := List.isChain_cons_cons.1 hlinked
      refine .cons hi (ih hrest ?_ ?_ fun k hk => hP k (List.mem_cons_of_mem i hk))
      · rw [List.head?_cons, Option.map_some, hj]
      · rwa [List.getLast?_cons_cons] at hends

/-- The instructions of the image in a run lie back to back over its range. -/
theorem IsRun.path (h : IsRun image range run) :
    ∃ real, real ≠ [] ∧ Path (Discovered image) range.start real range.stop ∧
      (run = real ∨ run = real ++ [.fallThrough range.stop]) := by
  obtain ⟨real, hne, hreal, hrun⟩ := h.read
  refine ⟨real, hne, ?_, hrun⟩
  rcases hrun with rfl | rfl
  · exact path_of_linked h.linked h.begins h.ends hreal
  · obtain ⟨hlinked, -, hmeets⟩ := List.isChain_append.1 h.linked
    refine path_of_linked hlinked ?_ ?_ hreal
    · rw [← h.begins, List.head?_append_of_ne_nil _ hne]
    · -- The jump of no bytes stands where the last instruction of the image ends.
      obtain ⟨last, hlast⟩ := Option.ne_none_iff_exists'.1 (mt List.getLast?_eq_none_iff.1 hne)
      have hstop := (hmeets last hlast _ rfl).1
      rw [hlast, Option.map_some, ← hstop]
      rfl

private theorem IsRun.exists_first (h : IsRun image range run) :
    ∃ i ∈ run, Discovered image i ∧ i.address = range.start := by
  obtain ⟨start, stop⟩ := range
  obtain ⟨real, hne, hpath, hrun⟩ := h.path
  cases hpath with
  | nil => exact absurd rfl hne
  | @cons i rest _ hi _ =>
    refine ⟨i, ?_, hi, rfl⟩
    rcases hrun with rfl | rfl <;> simp

private theorem countP_holds_of_path {l : List Instruction} {start stop : UInt32}
    (h : Path (Discovered image) start l stop) (address : UInt32) :
    l.countP (·.holds address) = if start ≤ address ∧ address < stop then 1 else 0 := by
  induction h with
  | nil start =>
    have : ¬ (start ≤ address ∧ address < start) := by
      rintro ⟨hle, hlt⟩
      exact UInt32.lt_irrefl _ (UInt32.lt_of_le_of_lt hle hlt)
    rw [List.countP_nil, if_neg this]
  | @cons i rest stop hi hrest ih =>
    have hlt := UInt32.lt_iff_toNat_lt.1 (lt_of_discovered hi)
    have hle := UInt32.le_iff_toNat_le.1 (hrest.le fun _ => lt_of_discovered)
    rw [List.countP_cons, ih]
    simp only [Instruction.holds_iff, UInt32.lt_iff_toNat_lt, UInt32.le_iff_toNat_le]
    split_ifs <;> omega

/-- A run holds every address of its range once and no other. -/
theorem IsRun.countP_holds (h : IsRun image range run) (address : UInt32) :
    run.countP (·.holds address) = if range.contains address then 1 else 0 := by
  obtain ⟨real, -, hpath, hrun⟩ := h.path
  have hcount := countP_holds_of_path hpath address
  rcases hrun with rfl | rfl
  · simpa only [AddressRange.contains_iff] using hcount
  · simpa only [AddressRange.contains_iff, List.countP_append, List.countP_singleton, Instruction.holds_fallThrough,
      Bool.false_eq_true, if_false, Nat.add_zero] using hcount

private theorem IsRun.discovered_of_holds (h : IsRun image range run) {i : Instruction} {address : UInt32}
    (hi : i ∈ run)
    (hholds : i.holds address = true) : Discovered image i := by
  obtain ⟨real, -, hreal, rfl | rfl⟩ := h.read
  · exact hreal i hi
  · rcases List.mem_append.1 hi with hi | hi
    · exact hreal i hi
    · rw [List.mem_singleton.1 hi, Instruction.holds_fallThrough] at hholds
      cases hholds

/-- Each address of a run is in one of its instructions. -/
theorem IsRun.exists_holds (h : IsRun image range run) {address : UInt32} (haddress : range.contains address = true) :
    ∃ i ∈ run, Discovered image i ∧ i.holds address = true := by
  have hcount := h.countP_holds address
  rw [if_pos haddress] at hcount
  obtain ⟨i, hi, hholds⟩ := List.countP_pos_iff.1 (by omega : 0 < run.countP (·.holds address))
  exact ⟨i, hi, h.discovered_of_holds hi hholds, hholds⟩

theorem IsRun.contains_start (h : IsRun image range run) : range.contains range.start = true := by
  obtain ⟨i, hi, hdiscovered, haddress⟩ := h.exists_first
  have hcount := h.countP_holds range.start
  have hholds : i.holds range.start = true := haddress ▸ holds_address_of_discovered hdiscovered
  have hpos : 0 < run.countP (·.holds range.start) := List.countP_pos_iff.2 ⟨i, hi, hholds⟩
  split_ifs at hcount with hstart
  · exact hstart
  · omega

/-! ### Chunks -/

private theorem exists_isRun_of_mem {ranges : List AddressRange} {runs : List (List Instruction)}
    (h : List.Forall₂ (IsRun image) ranges runs) {r : AddressRange} (hr : r ∈ ranges) :
    ∃ run ∈ runs, IsRun image r run := by
  induction h with
  | nil => cases hr
  | cons hrun _ ih =>
    rcases List.mem_cons.1 hr with rfl | hr
    · exact ⟨_, List.mem_cons_self, hrun⟩
    · obtain ⟨run, hmem, hisRun⟩ := ih hr
      exact ⟨run, List.mem_cons_of_mem _ hmem, hisRun⟩

/-- Two runs with an address in common: the one that begins first has an instruction over the start of the other. -/
private theorem straddles_of_overlap {r s : AddressRange} {front back : List Instruction} (hr : IsRun image r front)
    (hs : IsRun image s back) (hdistinct : ∀ i ∈ front, ∀ j ∈ back, i.isFallThrough = false →
      j.isFallThrough = false →
      i.address ≠ j.address) {address : UInt32} (hstart : r.start ≤ s.start) (hrc : r.contains address = true)
    (hsc : s.contains address = true) : ∃ i ∈ front, i.Straddles s.start := by
  have hbefore : s.start < r.stop :=
    UInt32.lt_of_le_of_lt (AddressRange.contains_iff.1 hsc).1 (AddressRange.contains_iff.1 hrc).2
  have hinside : r.contains s.start = true := AddressRange.contains_iff.2 ⟨hstart, hbefore⟩
  obtain ⟨i, hi, hdi, hholds⟩ := hr.exists_holds hinside
  obtain ⟨j, hj, hdj, haddress⟩ := hs.exists_first
  have hne := hdistinct i hi j hj (isFallThrough_of_discovered hdi) (isFallThrough_of_discovered hdj)
  obtain ⟨hle, hlt⟩ := Instruction.holds_iff.1 hholds
  exact ⟨i, hi, UInt32.lt_of_le_of_ne hle (haddress ▸ hne), hlt⟩

private theorem disjoint_of_aligned {ranges : List AddressRange} {runs : List (List Instruction)}
    (h : List.Forall₂ (IsRun image) ranges runs)
    (hdistinct : runs.flatten.Pairwise fun i j =>
      i.isFallThrough = false → j.isFallThrough = false → i.address ≠ j.address)
    (haligned : ∀ i ∈ runs.flatten, ∀ r ∈ ranges, ¬ i.Straddles r.start) :
    ranges.Pairwise fun r s => ∀ address, ¬ (r.contains address = true ∧ s.contains address = true) := by
  induction h with
  | nil => exact .nil
  | @cons r front ranges runs hr hrest ih =>
    rw [List.flatten_cons] at hdistinct haligned
    obtain ⟨-, hlater, hacross⟩ := List.pairwise_append.1 hdistinct
    refine List.pairwise_cons.2 ⟨?_, ih hlater fun i hi s hs =>
      haligned i (List.mem_append_right _ hi) s (List.mem_cons_of_mem r hs)⟩
    rintro s hs address ⟨hrc, hsc⟩
    obtain ⟨back, hback, hsrun⟩ := exists_isRun_of_mem hrest hs
    have hflat : ∀ j ∈ back, j ∈ runs.flatten := fun j hj => List.mem_flatten.2 ⟨back, hback, hj⟩
    rcases UInt32.le_total r.start s.start with hstart | hstart
    · obtain ⟨i, hi, hover⟩ :=
        straddles_of_overlap hr hsrun (fun i hi j hj => hacross i hi j (hflat j hj)) hstart hrc hsc
      exact haligned i (List.mem_append_left _ hi) s (List.mem_cons_of_mem r hs) hover
    · obtain ⟨j, hj, hover⟩ := straddles_of_overlap hsrun hr
        (fun j hj i hi hjreal hireal => (hacross i hi j (hflat j hj) hireal hjreal).symm) hstart hsc hrc
      exact haligned j (List.mem_append_right _ (hflat j hj)) r List.mem_cons_self hover

private theorem countP_contains_le_one {ranges : List AddressRange}
    (h : ranges.Pairwise fun r s => ∀ address, ¬ (r.contains address = true ∧ s.contains address = true))
    (address : UInt32) : ranges.countP (·.contains address) ≤ 1 := by
  induction h with
  | nil => exact Nat.zero_le 1
  | @cons r ranges hr _ ih =>
    rw [List.countP_cons]
    by_cases hc : r.contains address = true
    · have hnone : ranges.countP (·.contains address) = 0 :=
        List.countP_eq_zero.2 fun s hs hsc => hr s hs address ⟨hc, hsc⟩
      rw [hnone, if_pos hc]
    · rw [if_neg hc]
      exact ih

namespace Chunk.Spliced

variable {c : Chunk}

/-- Each range of a chunk has a run. -/
theorem exists_run (h : c.Spliced image) {r : AddressRange} (hr : r ∈ c.ranges) :
    ∃ run, IsRun image r run ∧ ∀ i ∈ run, i ∈ c.instructions := by
  obtain ⟨runs, hruns, hranges⟩ := h.runs
  obtain ⟨run, hrun, hisRun⟩ := exists_isRun_of_mem hranges hr
  exact ⟨run, hisRun, fun i hi => hruns ▸ List.mem_flatten.2 ⟨run, hrun, hi⟩⟩

/-- An address lies in as many instructions of a chunk as in ranges. -/
theorem countP_holds (h : c.Spliced image) (address : UInt32) :
    c.instructions.countP (·.holds address) = c.ranges.countP (·.contains address) := by
  obtain ⟨runs, hruns, hranges⟩ := h.runs
  rw [hruns]
  generalize c.ranges = ranges at hranges
  clear hruns
  induction hranges with
  | nil => rfl
  | cons hrun _ ih =>
    rw [List.flatten_cons, List.countP_append, List.countP_cons, ih, hrun.countP_holds, Nat.add_comm]

/-- The instructions of a chunk divide its addresses among them just if none reaches over the start of a run. -/
theorem partition_iff (h : c.Spliced image) :
    (∀ address, c.covers address = true → c.instructions.countP (·.holds address) = 1) ↔
      ∀ i ∈ c.instructions, ∀ r ∈ c.ranges, ¬ i.Straddles r.start := by
  constructor
  · rintro honce i hi r hr ⟨hbefore, hafter⟩
    obtain ⟨run, hrun, hmem⟩ := h.exists_run hr
    obtain ⟨j, hj, hdiscovered, haddress⟩ := hrun.exists_first
    have hcovers : c.covers r.start = true := List.any_eq_true.2 ⟨r, hr, hrun.contains_start⟩
    -- Both the instruction over the start and the first one of the run hold it.
    have hone := honce r.start hcovers
    rw [List.countP_eq_length_filter, List.length_eq_one_iff] at hone
    obtain ⟨k, hk⟩ := hone
    have hik : i ∈ [k] := hk ▸ List.mem_filter.2 ⟨hi, Instruction.holds_iff.2 ⟨UInt32.le_of_lt hbefore, hafter⟩⟩
    have hjk : j ∈ [k] := hk ▸ List.mem_filter.2 ⟨hmem j hj, haddress ▸ holds_address_of_discovered hdiscovered⟩
    rw [List.mem_singleton] at hik hjk
    rw [hik, ← hjk, haddress] at hbefore
    exact UInt32.lt_irrefl _ hbefore
  · intro haligned address hcovers
    have hpos : 0 < c.ranges.countP (·.contains address) := List.countP_pos_iff.2 (List.any_eq_true.1 hcovers)
    obtain ⟨runs, hruns, hranges⟩ := h.runs
    have hdisjoint := disjoint_of_aligned hranges (hruns ▸ h.distinct) (hruns ▸ haligned)
    have hle : c.ranges.countP (·.contains address) ≤ 1 := countP_contains_le_one hdisjoint address
    rw [h.countP_holds]
    omega

end Chunk.Spliced

namespace Program

/-- In a discovered chunk an address lies in as many instructions as in ranges, so in at least one if the chunk covers
it; all of them lie in just one instruction if and only if no instruction reaches over the start of a run. -/
theorem countP_holds_of_discover {limits : Limits} {entries : List UInt32} {p : Program} {c : Chunk}
    (h : discover image entries limits = .ok p) (hc : c ∈ p.chunks) :
    (∀ address, c.instructions.countP (·.holds address) = c.ranges.countP (·.contains address)) ∧
      (∀ address, c.covers address = true → 0 < c.instructions.countP (·.holds address)) ∧
      ((∀ address, c.covers address = true → c.instructions.countP (·.holds address) = 1) ↔
        ∀ i ∈ c.instructions, ∀ r ∈ c.ranges, ¬ i.Straddles r.start) := by
  have hspliced := (wellBuilt_of_discover h).spliced hc
  refine ⟨hspliced.countP_holds, fun address hcovers => ?_, hspliced.partition_iff⟩
  rw [hspliced.countP_holds]
  exact List.countP_pos_iff.2 (List.any_eq_true.1 hcovers)

/-- The ranges of the loop do not overlap, so each address is in one instruction. -/
theorem partition_rotated : ∃ p c, discover rotated [0x1003] {} = .ok p ∧ c ∈ p.chunks ∧ c.ranges.length = 2 ∧
    ∀ address, c.covers address = true → c.instructions.countP (·.holds address) = 1 := by
  obtain ⟨p, hp, c, hc, hranges, haligned⟩ : ∃ p, discover rotated [0x1003] {} = .ok p ∧ ∃ c ∈ p.chunks,
      c.ranges.length = 2 ∧ ∀ i ∈ c.instructions, ∀ r ∈ c.ranges, ¬ i.Straddles r.start :=
    exists_of_any_toOption (by decide +kernel)
  exact ⟨p, c, hp, hc, hranges, (countP_holds_of_discover hp hc).2.2.2 haligned⟩

/-- A move whose second byte is an instruction of its own, from which a branch leads back to the move. -/
def overlapping : Image := .flat 0x1000 [0xb0, 0x90, 0x74, 0xfc, 0xc3]

/-- The address of that byte lies in two instructions of the chunk entered there. -/
theorem holds_twice_overlapping : ∃ p c, discover overlapping [0x1001] {} = .ok p ∧ c ∈ p.chunks ∧
    c.covers 0x1001 = true ∧ c.instructions.countP (·.holds 0x1001) = 2 := by
  obtain ⟨p, hp, c, hc, htwice⟩ : ∃ p, discover overlapping [0x1001] {} = .ok p ∧ ∃ c ∈ p.chunks,
      c.covers 0x1001 = true ∧ c.instructions.countP (·.holds 0x1001) = 2 :=
    exists_of_any_toOption (by decide +kernel)
  exact ⟨p, c, hp, hc, htwice⟩

end Program

end Ia32Wasm
