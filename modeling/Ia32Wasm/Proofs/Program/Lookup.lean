import Ia32Wasm.Program.Resolution
import Ia32Wasm.Proofs.Program.Discovery

/-!
# Where a branch leads

What the lookups of resolution find, said without them: the instruction of a chunk that starts at an address, the
first chunk that covers it, the first imported function with a thunk.

* `Leads` is the destination of a target, judged by the chunks alone; `leads_of_resolveTarget` finds it, and in a
  well-built program there is at most one (`Leads.unique`).
* `outline` is what the lookups read of a program.  Programs with the same outline resolve branches alike
  (`resolution?_outline`).
-/

namespace Ia32Wasm

open X86 (Instruction Operand Destination)

/-- The instruction at `index` starts at the address and is not a jump of no bytes. -/
def Chunk.StartsAt (c : Chunk) (address : UInt32) (index : Nat) : Prop :=
  ∃ i, c.instructions[index]? = some i ∧ i.address = address ∧ i.isFallThrough = false

/-- The one instruction that starts at the address is at `index`. -/
def Chunk.OnlyStartsAt (c : Chunk) (address : UInt32) (index : Nat) : Prop :=
  c.StartsAt address index ∧ ∀ other, c.StartsAt address other → other = index

/-- The chunk has the lowest number of those that cover the address. -/
def Program.FirstCovers (p : Program) (address : UInt32) (c : Chunk) : Prop :=
  c ∈ p.chunks ∧ c.covers address = true ∧ ∀ d ∈ p.chunks, d.covers address = true → c.id ≤ d.id

/-- A branch of the chunk `c` to the address leads to an instruction of `c` if one starts there, and else to one of
the first chunk that covers the address. -/
inductive Program.Leads (p : Program) (c : Chunk) (target : UInt32) : Destination → Prop
  | inside {index : Nat} : c.OnlyStartsAt target index → Leads p c target (.inside (UInt32.ofNat index))
  | across {owner : Chunk} {index : Nat} : (∀ other, ¬ c.StartsAt target other) → p.FirstCovers target owner →
    owner.OnlyStartsAt target index → Leads p c target (.across owner.id (UInt32.ofNat index))

/-- The imported functions in order, each with its library. -/
def ImportTable.functions (t : ImportTable) : List (ImportLibrary × ImportEntry) :=
  t.libraries.flatMap fun library => library.entries.map (library, ·)

/-- The first imported function with the thunk has the symbol. -/
def ImportTable.FirstNamed (t : ImportTable) (thunk : UInt32) (symbol : String) : Prop :=
  ∃ before library entry after, t.functions = before ++ (library, entry) :: after ∧ entry.thunk = thunk ∧
    (∀ f ∈ before, f.2.thunk ≠ thunk) ∧ symbol = library.symbol entry

/-! ### Imported functions -/

private theorem symbol?_eq (t : ImportTable) (thunk : UInt32) :
    t.symbol? thunk = (t.functions.find? fun f => f.2.thunk == thunk).map fun f => f.1.symbol f.2 := by
  obtain ⟨libraries⟩ := t
  simp only [ImportTable.symbol?, ImportTable.functions]
  induction libraries with
  | nil => rfl
  | cons library rest ih =>
    rw [List.findSome?_cons, List.flatMap_cons, List.find?_append, List.find?_map, ih]
    simp only [Function.comp_def]
    cases library.entries.find? fun entry => entry.thunk == thunk <;> rfl

/-- A symbol is that of the first entry with the thunk. -/
theorem firstNamed_of_symbol? {t : ImportTable} {thunk : UInt32} {symbol : String}
    (h : t.symbol? thunk = some symbol) : t.FirstNamed thunk symbol := by
  rw [symbol?_eq, Option.map_eq_some_iff] at h
  obtain ⟨⟨library, entry⟩, hfind, rfl⟩ := h
  obtain ⟨hthunk, before, after, hsplit, hbefore⟩ := List.find?_eq_some_iff_append.1 hfind
  exact ⟨before, library, entry, after, hsplit, by simpa using hthunk, fun f hf => by simpa using hbefore f hf, rfl⟩

/-! ### Instructions of a chunk -/

namespace Chunk

variable {image : Image} {c : Chunk} {address : UInt32} {index other : Nat}

private theorem Spliced.startsAt_unique (h : c.Spliced image) (hindex : c.StartsAt address index)
    (hother : c.StartsAt address other) : other = index := by
  obtain ⟨i, hi, hiaddress, hireal⟩ := hindex
  obtain ⟨j, hj, hjaddress, hjreal⟩ := hother
  obtain ⟨hilt, rfl⟩ := List.getElem?_eq_some_iff.1 hi
  obtain ⟨hjlt, rfl⟩ := List.getElem?_eq_some_iff.1 hj
  have hdistinct := List.pairwise_iff_getElem.1 h.distinct
  rcases Nat.lt_trichotomy index other with hlt | heq | hgt
  · exact absurd (hiaddress.trans hjaddress.symm) (hdistinct index other hilt hjlt hlt hireal hjreal)
  · exact heq.symm
  · exact absurd (hjaddress.trans hiaddress.symm) (hdistinct other index hjlt hilt hgt hjreal hireal)

private theorem Spliced.onlyStartsAt (h : c.Spliced image) (hindex : c.StartsAt address index) :
    c.OnlyStartsAt address index :=
  ⟨hindex, fun _ hother => h.startsAt_unique hindex hother⟩

private theorem startsAt_of_indexOf? {found : UInt32} (h : c.indexOf? address = some found) :
    ∃ index, c.StartsAt address index ∧ found = UInt32.ofNat index := by
  obtain ⟨index, hindex, rfl⟩ := Option.map_eq_some_iff.1 h
  obtain ⟨hlt, hmatch, -⟩ := List.findIdx?_eq_some_iff_getElem.1 hindex
  simp only [Bool.and_eq_true, beq_iff_eq, Bool.not_eq_true'] at hmatch
  exact ⟨index, ⟨_, List.getElem?_eq_getElem hlt, hmatch.1, hmatch.2⟩, rfl⟩

/-- Where nothing is found, nothing starts. -/
theorem not_startsAt_of_indexOf? (h : c.indexOf? address = none) : ∀ index, ¬ c.StartsAt address index := by
  rintro index ⟨i, hi, haddress, hreal⟩
  have hnone := List.findIdx?_eq_none_iff.1 (Option.map_eq_none_iff.1 h) i (List.mem_of_getElem? hi)
  simp [haddress, hreal] at hnone

end Chunk

/-! ### Chunks of a program -/

namespace Program

variable {image : Image} {p : Program} {c d : Chunk} {target : UInt32}

theorem WellBuilt.spliced (h : p.WellBuilt image) (hc : c ∈ p.chunks) : c.Spliced image := by
  obtain ⟨position, hposition⟩ := List.getElem?_of_mem hc
  exact (h.chunks position c hposition).2.2

/-- A chunk is at the place that its number says. -/
theorem WellBuilt.getElem?_id (h : p.WellBuilt image) (hc : c ∈ p.chunks) : p.chunks[c.id.toNat]? = some c := by
  obtain ⟨position, hposition⟩ := List.getElem?_of_mem hc
  rw [(h.chunks position c hposition).1, hposition]

/-- Chunks with the same number are the same. -/
theorem WellBuilt.eq_of_id (h : p.WellBuilt image) (hc : c ∈ p.chunks) (hd : d ∈ p.chunks) (hid : c.id = d.id) :
    c = d := by
  have hcd := h.getElem?_id hc
  rw [hid, h.getElem?_id hd] at hcd
  exact (Option.some.inj hcd).symm

/-- Chunks are numbered in order, so the first one found has the lowest number. -/
theorem WellBuilt.firstCovers (h : p.WellBuilt image) (hc : p.chunkCovering? target = some c) :
    p.FirstCovers target c := by
  obtain ⟨hcovers, before, after, hsplit, hbefore⟩ := List.find?_eq_some_iff_append.1 hc
  have hposition : p.chunks[before.length]? = some c := by
    rw [hsplit, List.getElem?_append_right (Nat.le_refl _), Nat.sub_self, List.getElem?_cons_zero]
  refine ⟨List.mem_of_getElem? hposition, hcovers, fun d hd hdcovers => ?_⟩
  obtain ⟨other, hother⟩ := List.getElem?_of_mem hd
  rw [UInt32.le_iff_toNat_le, (h.chunks _ c hposition).1, (h.chunks _ d hother).1]
  by_contra hlt
  rw [hsplit, List.getElem?_append_left (by omega)] at hother
  have := hbefore d (List.mem_of_getElem? hother)
  simp [hdcovers] at this

/-- Only one chunk is the first to cover an address. -/
theorem FirstCovers.unique (h : p.WellBuilt image) (hc : p.FirstCovers target c) (hd : p.FirstCovers target d) :
    c = d :=
  h.eq_of_id hc.1 hd.1 (UInt32.le_antisymm (hc.2.2 d hd.1 hd.2.1) (hd.2.2 c hc.1 hc.2.1))

/-- A branch leads to one destination. -/
theorem Leads.unique (h : p.WellBuilt image) {x y : Destination} (hx : p.Leads c target x) (hy : p.Leads c target y) :
    x = y := by
  cases hx with
  | inside hindex =>
    cases hy with
    | inside hother => rw [hindex.2 _ hother.1]
    | across hnone _ _ => exact absurd hindex.1 (hnone _)
  | across hnone hfirst hindex =>
    cases hy with
    | inside hother => exact absurd hother.1 (hnone _)
    | across _ hfirst' hother =>
      obtain rfl := hfirst.unique h hfirst'
      rw [hindex.2 _ hother.1]

/-- A target is resolved to where the branch leads. -/
theorem leads_of_resolveTarget (h : p.WellBuilt image) (hc : c ∈ p.chunks) {i : Instruction} {r : Resolution}
    (hr : p.resolveTarget c i target = .ok r) : ∃ x, r = .direct x ∧ p.Leads c target x := by
  unfold resolveTarget at hr
  split at hr
  · rename_i found hfound
    cases hr
    obtain ⟨index, hindex, rfl⟩ := Chunk.startsAt_of_indexOf? hfound
    exact ⟨_, rfl, .inside ((h.spliced hc).onlyStartsAt hindex)⟩
  · rename_i hnone
    split at hr
    · cases hr
    · rename_i owner howner
      split at hr
      · cases hr
      · rename_i found hfound
        cases hr
        obtain ⟨index, hindex, rfl⟩ := Chunk.startsAt_of_indexOf? hfound
        have hfirst := h.firstCovers howner
        exact ⟨_, rfl, .across (Chunk.not_startsAt_of_indexOf? hnone) hfirst
          ((h.spliced hfirst.1).onlyStartsAt hindex)⟩

end Program

/-! ### Outlines -/

/-- An instruction without its operation and operands, except that a jump of no bytes remains one. -/
def X86.Instruction.outline (i : Instruction) : Instruction :=
  { i with mnemonic := if i.isFallThrough then .jump else .nop, operands := [] }

/-- A chunk with the outlines of its instructions and without targets. -/
def Chunk.outline (c : Chunk) : Chunk :=
  { c with instructions := c.instructions.map Instruction.outline, targets := .empty }

/-- A program with the outlines of its chunks. -/
def Program.outline (p : Program) : Program := { p with chunks := p.chunks.map Chunk.outline }

theorem X86.Instruction.isFallThrough_outline (i : Instruction) : i.outline.isFallThrough = i.isFallThrough := by
  cases h : i.isFallThrough with
  | false =>
    have hmnemonic : i.outline.mnemonic = .nop := by simp [outline, h]
    simp [isFallThrough, hmnemonic]
  | true =>
    have hmnemonic : i.outline.mnemonic = .jump := by simp [outline, h]
    have hempty : i.outline.isEmpty = true := (Bool.and_eq_true_iff.1 h).2
    simp [isFallThrough, hmnemonic, hempty]

theorem Chunk.indexOf?_outline (c : Chunk) (address : UInt32) : c.outline.indexOf? address = c.indexOf? address := by
  simp only [indexOf?, outline, List.findIdx?_map, Function.comp_def, Instruction.isFallThrough_outline]
  rfl

namespace Program

theorem chunkCovering?_outline (p : Program) (address : UInt32) :
    p.outline.chunkCovering? address = (p.chunkCovering? address).map Chunk.outline := by
  simp only [chunkCovering?, outline, List.find?_map]
  rfl

/-- What an instruction is resolved to depends only on the outline of the program. -/
theorem resolution?_outline (p : Program) (image : Image) (c : Chunk) (i : Instruction) :
    p.outline.resolution? image c.outline i = p.resolution? image c i := by
  have hpointer : ∀ pointer, p.outline.resolvePointer image i pointer = p.resolvePointer image i pointer := by
    intro pointer
    simp only [resolvePointer, chunkCovering?_outline, Option.isSome_map]
  have htarget : ∀ target, p.outline.resolveTarget c.outline i target = p.resolveTarget c i target := by
    intro target
    simp only [resolveTarget, chunkCovering?_outline, Chunk.indexOf?_outline]
    cases c.indexOf? target with
    | some index => rfl
    | none =>
      cases p.chunkCovering? target with
      | none => rfl
      | some owner =>
        simp only [Option.map_some, Chunk.indexOf?_outline]
        rfl
  simp only [resolution?, hpointer, htarget]

end Program

end Ia32Wasm
