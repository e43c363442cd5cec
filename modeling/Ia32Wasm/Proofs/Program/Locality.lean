import Ia32Wasm.Proofs.Program.Search
import Ia32Wasm.Proofs.X86.Online
import Mathlib.Tactic.IntervalCases

/-!
# Discovery reads what it covers

Discovery hands the decoder all bytes up to the end of a section, but what it finds depends on few of them: the bytes
of the instructions that it has covered, and the slots that calls through pointers read.  An image with the same
layout that holds the same bytes there gives the same program.

* In a layout without overlaps the bytes from an address on lie in one section (`bytesAt?_of_sameLayout`), so an
  instruction whose bytes are the same is decoded from both images (`step_congr`).
* A search that ends well holds in the end every instruction that it has read (`mem_of_iterate`), so the searches of
  both images go the same way (`iterate_congr`).
-/

namespace Ia32Wasm

open X86 (Instruction Operand decode)

/-! ### Images with the same layout -/

namespace Image

/-- The place in the buffer of the byte at an address. -/
def offset? (image : Image) (address : UInt32) : Option Nat :=
  (image.section? address).map fun s => s.offset.toNat + (address - s.start).toNat

/-- No address lies in two sections. -/
def Separate (image : Image) : Prop :=
  image.sections.Pairwise fun s t => ∀ address, ¬ (s.contains address = true ∧ t.contains address = true)

/-- The images have the same sections and imports, and buffers of the same size. -/
structure SameLayout (image image' : Image) : Prop where
  sections : image'.sections = image.sections
  imports : image'.imports = image.imports
  length : image'.buffer.length = image.buffer.length

/-- The buffers hold the same byte for an address. -/
def SameAt (image image' : Image) (address : UInt32) : Prop :=
  ∀ offset ∈ image.offset? address, image'.buffer[offset]? = image.buffer[offset]?

instance (image image' : Image) (address : UInt32) : Decidable (image.SameAt image' address) :=
  inferInstanceAs (Decidable (∀ offset ∈ image.offset? address, image'.buffer[offset]? = image.buffer[offset]?))

variable {image image' : Image} {address : UInt32}

/-- Images with the same layout have the same sections. -/
theorem SameLayout.section? (h : image.SameLayout image') (address : UInt32) :
    image'.section? address = image.section? address := by
  rw [Image.section?, Image.section?, h.sections]

private theorem section?_of_contains (h : image.Separate) {s : Section} (hs : s ∈ image.sections)
    (hcontains : s.contains address = true) : image.section? address = some s := by
  have hsome : (image.section? address).isSome := List.find?_isSome.2 ⟨s, hs, hcontains⟩
  obtain ⟨t, ht⟩ := Option.isSome_iff_exists.1 hsome
  have : Std.Symm fun s t : Section => ∀ address, ¬ (s.contains address = true ∧ t.contains address = true) :=
    ⟨fun _ _ hst address hts => hst address hts.symm⟩
  have htcontains := List.find?_some ht
  have hst : s = t := by
    by_contra hne
    exact List.Pairwise.forall h hs (List.mem_of_find?_eq_some ht) hne address ⟨hcontains, htcontains⟩
  rw [ht, hst]

/-- The address so many places behind another. -/
private theorem toNat_add_ofNat {k : Nat} (h : address.toNat + k < UInt32.size) :
    (address + UInt32.ofNat k).toNat = address.toNat + k := by
  rw [UInt32.toNat_add, UInt32.toNat_ofNat_of_lt' (by omega : k < UInt32.size)]
  exact Nat.mod_eq_of_lt h

/-- The bytes from an address on stand in the buffer one after the other, each for its own address. -/
private theorem bytesAt?_eq_some (hseparate : image.Separate) {bytes : List UInt8}
    (h : image.bytesAt? address = some bytes) :
    ∃ first, ∀ k < bytes.length,
      image.offset? (address + UInt32.ofNat k) = some (first + k) ∧ bytes[k]? = image.buffer[first + k]? := by
  obtain ⟨s, hs, h⟩ := Option.bind_eq_some_iff.1 h
  dsimp only at h
  split at h
  · cases h
    have hcontains := List.find?_some hs
    simp only [Section.contains, Bool.and_eq_true, decide_eq_true_eq, UInt32.le_iff_toNat_le,
      UInt32.lt_iff_toNat_lt] at hcontains
    have hlength : (s.stop - address).toNat = s.stop.toNat - address.toNat :=
      UInt32.toNat_sub_of_le _ _ (UInt32.le_iff_toNat_le.2 (by omega))
    have hfirst : (address - s.start).toNat = address.toNat - s.start.toNat :=
      UInt32.toNat_sub_of_le _ _ (UInt32.le_iff_toNat_le.2 hcontains.1)
    have hbound : s.stop.toNat < UInt32.size := s.stop.toNat_lt_size
    refine ⟨s.offset.toNat + (address - s.start).toNat, fun k hk => ?_⟩
    rw [List.length_take, hlength] at hk
    have haddress := toNat_add_ofNat (by omega : address.toNat + k < UInt32.size)
    have hinside : s.contains (address + UInt32.ofNat k) = true := by
      simp only [Section.contains, Bool.and_eq_true, decide_eq_true_eq, UInt32.le_iff_toNat_le,
        UInt32.lt_iff_toNat_lt, haddress]
      omega
    have hoffset : (address + UInt32.ofNat k - s.start).toNat = (address - s.start).toNat + k := by
      rw [UInt32.toNat_sub_of_le _ _ (UInt32.le_iff_toNat_le.2 (by omega)), haddress, hfirst]
      omega
    refine ⟨?_, ?_⟩
    · rw [offset?, section?_of_contains hseparate (List.mem_of_find?_eq_some hs) hinside, Option.map_some, hoffset,
        Nat.add_assoc]
    · rw [List.getElem?_take_of_lt (by omega), List.getElem?_drop]
  · cases h

/-- Both images have as many bytes from an address on. -/
private theorem length_bytesAt?_of_sameLayout (h : image.SameLayout image') (address : UInt32) :
    (image'.bytesAt? address).map List.length = (image.bytesAt? address).map List.length := by
  unfold bytesAt?
  rw [h.section?]
  cases image.section? address with
  | none => rfl
  | some s =>
    simp only [Option.bind_some, h.length]
    split <;> simp [h.length]

/-- Where the images hold the same bytes from an address on, those bytes are read from both. -/
theorem bytesAt?_of_sameLayout (hseparate : image.Separate) (hlayout : image.SameLayout image') {bytes : List UInt8}
    (h : image.bytesAt? address = some bytes) :
    ∃ bytes', image'.bytesAt? address = some bytes' ∧ bytes'.length = bytes.length ∧
      ∀ n ≤ bytes.length, (∀ k < n, image.SameAt image' (address + UInt32.ofNat k)) →
      bytes'.take n = bytes.take n := by
  have hlength := length_bytesAt?_of_sameLayout hlayout address
  rw [h, Option.map_some, Option.map_eq_some_iff] at hlength
  obtain ⟨bytes', hbytes', hlength⟩ := hlength
  have hseparate' : image'.Separate := by rwa [Separate, hlayout.sections]
  obtain ⟨first, hfirst⟩ := bytesAt?_eq_some hseparate h
  obtain ⟨first', hfirst'⟩ := bytesAt?_eq_some hseparate' hbytes'
  refine ⟨bytes', hbytes', hlength, fun n hn hsame => List.ext_getElem? fun k => ?_⟩
  by_cases hk : k < n
  · obtain ⟨hoffset, hget⟩ := hfirst k (by omega)
    obtain ⟨hoffset', hget'⟩ := hfirst' k (by omega)
    have heq : first' + k = first + k := by
      rw [offset?, hlayout.section?, ← offset?, hoffset, Option.some.injEq] at hoffset'
      exact hoffset'.symm
    rw [List.getElem?_take_of_lt hk, List.getElem?_take_of_lt hk, hget, hget', heq]
    exact hsame k hk _ hoffset
  · rw [List.getElem?_take_eq_none (by omega), List.getElem?_take_eq_none (by omega)]

private theorem word?_eq_none_iff :
    image.word? address = none ↔ ∀ n ∈ (image.bytesAt? address).map List.length, n < 4 := by
  unfold word?
  split
  · rename_i h
    simp [h]
  · rename_i hshort
    cases h : image.bytesAt? address with
    | none => simp
    | some bytes =>
      simp only [Option.map_some, Option.mem_some, forall_eq', true_iff]
      by_contra hlong
      match bytes, hlong with
      | b₀ :: b₁ :: b₂ :: b₃ :: rest, _ => exact hshort b₀ b₁ b₂ b₃ rest h
      | [], hlong | [_], hlong | [_, _], hlong | [_, _, _], hlong => simp at hlong

/-- Where the images hold the same bytes in a slot, the same word is read from both. -/
private theorem word?_of_sameLayout (hseparate : image.Separate) (hlayout : image.SameLayout image')
    (h : (image.word? address).isSome = true → ∀ k < 4, image.SameAt image' (address + UInt32.ofNat k)) :
    image'.word? address = image.word? address := by
  cases hword : image.word? address with
  | none => rwa [word?_eq_none_iff, length_bytesAt?_of_sameLayout hlayout, ← word?_eq_none_iff]
  | some value =>
    have hsame := h (by rw [hword]; rfl)
    rw [← hword]
    unfold word? at hword ⊢
    split at hword
    · rename_i b₀ b₁ b₂ b₃ rest hbytes
      obtain ⟨bytes', hbytes', -, htake⟩ := bytesAt?_of_sameLayout hseparate hlayout hbytes
      have hfour := htake 4 (by simp) hsame
      match bytes', hfour with
      | c₀ :: c₁ :: c₂ :: c₃ :: rest', hfour =>
        simp only [List.take_succ_cons, List.take_zero, List.cons.injEq, and_true] at hfour
        obtain ⟨rfl, rfl, rfl, rfl⟩ := hfour
        rw [hbytes']
      | [], hfour | [_], hfour | [_, _], hfour | [_, _, _], hfour => simp at hfour
    · cases hword

end Image

/-! ### Instructions read from both images -/

/-- The image `image'` has what is read for the instruction `d`: its own bytes, and the slot that it calls through. -/
structure ReadsSame (image image' : Image) (d : Instruction) : Prop where
  own : ∀ address, d.holds address = true → image.SameAt image' address
  slot : d.mnemonic = .call → ∀ pointer, d.operands.head?.bind Operand.pointer? = some pointer →
    (image.word? pointer).isSome = true → ∀ k < 4, image.SameAt image' (pointer + UInt32.ofNat k)

/-- The instruction `i` stands in a run for the decoded instruction `d`. -/
structure StandsFor (i d : Instruction) : Prop where
  address : i.address = d.address
  nextAddress : i.nextAddress = d.nextAddress
  mnemonic : i.mnemonic = d.mnemonic

theorem StandsFor.refl (d : Instruction) : StandsFor d d := ⟨rfl, rfl, rfl⟩

/-- The run that a step has come to. -/
def Progress.run : Progress → Run
  | .more r => r
  | .done r _ => r

/-- An instruction that is visited stands in the run. -/
private theorem Run.exists_standsFor (r : Run) (image : Image) (covered : List AddressRange) (d : Instruction) :
    ∃ i, StandsFor i d ∧ (r.visit image covered d).run.read = i :: r.read := by
  have hcall : ∃ i, StandsFor i d ∧ (r.pushCall image covered d).read = i :: r.read := by
    unfold Run.pushCall
    split
    · exact ⟨d, .refl d, rfl⟩
    · split
      · rename_i target _
        exact ⟨{ d with operands := [.imm (target - d.nextAddress).toInt32.toInt64 .bits32] }, ⟨rfl, rfl, rfl⟩, rfl⟩
      · exact ⟨d, .refl d, rfl⟩
  have htarget : ∀ target, ((r.addTarget covered target).push d).read = d :: r.read := by
    intro target
    unfold Run.addTarget
    split <;> rfl
  unfold Run.visit
  split
  · exact ⟨d, .refl d, rfl⟩
  · exact ⟨d, .refl d, rfl⟩
  · exact hcall
  · split
    · exact ⟨d, .refl d, htarget _⟩
    · exact ⟨d, .refl d, rfl⟩
  · split
    · exact ⟨d, .refl d, htarget _⟩
    · exact ⟨d, .refl d, rfl⟩
  · exact ⟨d, .refl d, rfl⟩

section

variable {image image' : Image} (hseparate : image.Separate) (hlayout : image.SameLayout image')

include hseparate hlayout

/-- An instruction whose bytes are the same is decoded from both images. -/
private theorem decode_of_readsSame {bytes : List UInt8} {address : UInt32} {d : Instruction} {n : Nat}
    (hbytes : image.bytesAt? address = some bytes) (hdecode : decode bytes address = .ok (d, n))
    (hsame : ReadsSame image image' d) :
    ∃ bytes', image'.bytesAt? address = some bytes' ∧ decode bytes' address = .ok (d, n) := by
  obtain ⟨haddress, hnext, -, -, hle, -⟩ := X86.decode_eq_ok hdecode
  obtain ⟨bytes', hbytes', -, htake⟩ := Image.bytesAt?_of_sameLayout hseparate hlayout hbytes
  have hroom : address.toNat + bytes.length < UInt32.size := length_bytesAt?_lt hbytes
  have hown : ∀ k < n, image.SameAt image' (address + UInt32.ofNat k) := by
    intro k hk
    refine hsame.own _ (Instruction.holds_iff.2 ?_)
    rw [haddress, hnext, UInt32.le_iff_toNat_le, UInt32.lt_iff_toNat_lt, Image.toNat_add_ofNat (by omega),
      Image.toNat_add_ofNat (by omega)]
    omega
  refine ⟨bytes', hbytes', ?_⟩
  have hsame := htake n hle hown
  rcases X86.exists_deciding_front bytes address with htruncated | ⟨front, back, rfl, hfront, hlength⟩
  · rw [hdecode] at htruncated
    cases htruncated
  · obtain rfl := hlength d n hdecode
    rw [← List.take_append_drop front.length bytes', hsame, List.take_left, hfront, hdecode]

/-- A call through a pointer leads to the same code in both images. -/
private theorem codePointer?_of_readsSame {d : Instruction} (hcall : d.mnemonic = .call)
    (hsame : ReadsSame image image' d) :
    codePointer? image' d = codePointer? image d := by
  unfold codePointer?
  cases hpointer : d.operands.head?.bind Operand.pointer? with
  | none => rfl
  | some pointer =>
    have hword := Image.word?_of_sameLayout hseparate hlayout (hsame.slot hcall pointer hpointer)
    simp only [Option.bind_eq_bind, Option.bind_some, hword, hlayout.imports, hlayout.section?]

private theorem Run.visit_congr {d : Instruction} (r : Run) (covered : List AddressRange)
    (hsame : ReadsSame image image' d) :
    r.visit image' covered d = r.visit image covered d := by
  unfold Run.visit
  split
  case h_3 hcall => rw [Run.pushCall, codePointer?_of_readsSame hseparate hlayout hcall hsame, Run.pushCall]
  all_goals rfl

/-- A step of a run that reads the same from both images is the same. -/
theorem Run.step_congr {r : Run} {limits : Limits} {p : Program} {c : Chunk} {progress : Progress}
    (h : r.step image limits p c = .ok progress)
    (hsame : ∀ d i, Decoded image d → StandsFor i d → progress.run.read = i :: r.read → ReadsSame image image' d) :
    r.step image' limits p c = .ok progress := by
  unfold Run.step at h ⊢
  split at h
  · rename_i hmet
    rw [if_pos hmet, h]
  · rename_i hmet
    rw [if_neg hmet]
    split at h
    · cases h
    · rename_i hroom
      rw [if_neg hroom]
      split at h
      · cases h
      · rename_i bytes hbytes
        split at h
        · cases h
        · rename_i d n hdecode
          cases h
          obtain ⟨i, hi, hread⟩ := r.exists_standsFor image p.covered d
          have hd := hsame d i (decoded_of_bytesAt? hbytes hdecode).2 hi hread
          obtain ⟨bytes', hbytes', hdecode'⟩ := decode_of_readsSame hseparate hlayout hbytes hdecode hd
          simp only [hbytes', hdecode', Run.visit_congr hseparate hlayout r p.covered hd]

end

/-! ### Two searches -/

/-- The instruction stands in a chunk of the program. -/
def Program.Holds (p : Program) (i : Instruction) : Prop := ∃ c ∈ p.chunks, i ∈ c.instructions

namespace Search

/-- The instruction has been read, and the search has not failed. -/
def Holds (i : Instruction) : Search → Prop
  | .entries p => p.Holds i
  | .starts _ p c => p.Holds i ∨ i ∈ c.instructions
  | .running r _ p c => p.Holds i ∨ i ∈ c.instructions ∨ i ∈ r.read
  | .stopped (.ok p) => p.Holds i
  | .stopped (.error _) => False

variable {image image' : Image} {limits : Limits} {p : Program} {c : Chunk} {i : Instruction}

/-- A search that has stopped keeps its result. -/
theorem iterate_stopped (n : Nat) (result : Except DiscoveryError Program) :
    (Search.step image limits)^[n] (.stopped result) = .stopped result :=
  Function.iterate_fixed rfl n

/-- What has been read stays unless the search fails. -/
theorem Holds.step {s : Search} (h : s.Holds i) (hok : ∀ e, s.step image limits ≠ .stopped (.error e)) :
    (s.step image limits).Holds i := by
  cases s with
  | entries p =>
    rw [Search.step] at hok ⊢
    split
    · exact h
    · split
      · exact h
      · split
        · rename_i _ _ hpending hcovered hlimit
          simp [hpending, hcovered, hlimit] at hok
        · exact .inl h
  | starts queue p c =>
    cases queue with
    | nil =>
      rcases h with ⟨d, hd, hi⟩ | hi
      · exact ⟨d, List.mem_append_left _ hd, hi⟩
      · exact ⟨c, List.mem_append_right _ List.mem_cons_self, hi⟩
    | cons first rest =>
      rw [Search.step]
      split
      · exact h
      · exact h.imp_right .inl
  | running r queue p c =>
    have hturns := Run.turns_of_step image limits r queue p c
    generalize Search.step image limits (.running r queue p c) = s' at hturns hok
    cases hturns with
    | fails e => exact absurd rfl (hok e)
    | goesOn hi _ _ =>
      rw [Holds, hi.read]
      exact h.imp_right (Or.imp_right (List.mem_cons_of_mem _))
    | meets _ _ =>
      refine h.imp_right fun h => List.mem_append.2 (h.imp_right fun hi => ?_)
      exact List.mem_reverse.2 (List.mem_cons_of_mem _ hi)
    | ends hi _ _ =>
      refine h.imp_right fun h => List.mem_append.2 (h.imp_right fun hmem => ?_)
      rw [List.mem_reverse, hi.read]
      exact List.mem_cons_of_mem _ hmem
  | stopped result => exact h

/-- A search that ends with a program holds there what it has read. -/
theorem mem_of_iterate {n : Nat} {s : Search} (h : (Search.step image limits)^[n] s = .stopped (.ok p))
    (hi : s.Holds i) : p.Holds i := by
  induction n generalizing s with
  | zero =>
    rw [Function.iterate_zero_apply] at h
    rwa [h] at hi
  | succ n ih =>
    rw [Function.iterate_succ_apply] at h
    refine ih h (hi.step fun e he => ?_)
    rw [he, iterate_stopped] at h
    cases h

/-- The second image takes a search to the same program if it has what was read for the instructions of the
program. -/
theorem iterate_congr (hseparate : image.Separate) (hlayout : image.SameLayout image') {n : Nat} {s : Search}
    (h : (Search.step image limits)^[n] s = .stopped (.ok p))
    (hsame : ∀ d i, Decoded image d → StandsFor i d → p.Holds i → ReadsSame image image' d) :
    (Search.step image' limits)^[n] s = .stopped (.ok p) := by
  induction n generalizing s with
  | zero => exact h
  | succ n ih =>
    rw [Function.iterate_succ_apply] at h ⊢
    have hstep : s.step image' limits = s.step image limits := by
      cases s with
      | entries | stopped => rfl
      | starts queue _ _ => cases queue <;> rfl
      | running r queue p₁ c =>
        cases hprogress : r.step image limits p₁ c with
        | error e =>
          rw [Search.step, hprogress, iterate_stopped] at h
          cases h
        | ok progress =>
          have hcongr : r.step image' limits p₁ c = .ok progress := by
            refine Run.step_congr hseparate hlayout hprogress fun d i hd hi hread => ?_
            refine hsame d i hd hi (mem_of_iterate h ?_)
            rw [Search.step, hprogress]
            have hmem : i ∈ progress.run.read := hread ▸ List.mem_cons_self
            cases progress with
            | more r' => exact .inr (.inr hmem)
            | done r' jump => exact .inr (List.mem_append_right _ (List.mem_reverse.2 hmem))
          rw [Search.step, Search.step, hcongr, hprogress]
    rw [hstep]
    exact ih h

/-- A search stops in one way only. -/
theorem stopped_unique {n m : Nat} {s : Search} {a b : Except DiscoveryError Program}
    (ha : (Search.step image limits)^[n] s = .stopped a) (hb : (Search.step image limits)^[m] s = .stopped b) :
    a = b := by
  have hmore : ∀ k, (Search.step image limits)^[k + n] s = .stopped a := fun k => by
    rw [Function.iterate_add_apply, ha, iterate_stopped]
  have hmore' : ∀ k, (Search.step image limits)^[k + m] s = .stopped b := fun k => by
    rw [Function.iterate_add_apply, hb, iterate_stopped]
  have heq := (hmore m).symm.trans (Nat.add_comm n m ▸ hmore' n)
  exact Search.stopped.inj heq

end Search

/-! ### Discovered programs -/

namespace Program

variable {image image' : Image} {limits : Limits} {entries : List UInt32} {p : Program} {c : Chunk}

private theorem isCovered_of_mem_chunks (h : discover image entries limits = .ok p) (hc : c ∈ p.chunks)
    {address : UInt32}
    (haddress : c.covers address = true) : p.isCovered address = true := by
  revert c
  refine discover_induction (M := fun p => ∀ {c}, c ∈ p.chunks → c.covers address = true → p.isCovered address = true)
    (by simp) (fun _ hq => hq) ?_ h
  intro q q' entry rest c _ _ hruns hq d hd haddress
  have hkept := addRuns_induction (M := fun q₁ c₁ => (q.isCovered address = true → q₁.isCovered address = true) ∧
    (c₁.covers address = true → q₁.isCovered address = true)) ?_ hruns ⟨id, by simp⟩
  · have hchunks : q'.chunks = q.chunks := (addRuns_chunks hruns :)
    simp only [hchunks, List.mem_append, List.mem_singleton] at hd
    rcases hd with hd | rfl
    · exact hkept.1 (hq hd haddress)
    · exact hkept.2 haddress
  · rintro q₁ c₁ start room r jump - - ⟨hold, hnew⟩
    rw [isCovered_addRun, Chunk.covers_addRun, Bool.or_eq_true, Bool.or_eq_true]
    exact ⟨fun hx => .inl (hold hx), Or.imp_left hnew⟩

/-- A call of the program goes through the slot at `pointer`. -/
def CallsThrough (image : Image) (p : Program) (pointer : UInt32) : Prop :=
  ∃ c ∈ p.chunks, ∃ i ∈ c.instructions, i.mnemonic = .call ∧
    ∃ d, Decoded image d ∧ d.address = i.address ∧ d.operands.head?.bind Operand.pointer? = some pointer

/-- Discovery depends on the bytes that it covers and on the slots that covered calls read, and on no others: an image
with the same layout that holds the same bytes there gives the same program. -/
theorem discover_congr (hseparate : image.Separate) (h : discover image entries limits = .ok p)
    (hlayout : image.SameLayout image') (hcovered : ∀ address, p.isCovered address = true →
      image.SameAt image' address)
    (hslots : ∀ pointer, p.CallsThrough image pointer → (image.word? pointer).isSome = true →
      ∀ k < 4, image.SameAt image' (pointer + UInt32.ofNat k)) :
    discover image' entries limits = .ok p := by
  obtain ⟨n, hn⟩ := Search.reaches_discover image entries limits
  obtain ⟨m, hm⟩ := Search.reaches_discover image' entries limits
  rw [h] at hn
  refine Search.stopped_unique hm (Search.iterate_congr hseparate hlayout hn ?_)
  rintro d i hd hi ⟨c, hc, hmem⟩
  refine ⟨fun address haddress => hcovered address (isCovered_of_mem_chunks h hc ?_),
    fun hcall pointer hpointer => ?_⟩
  · have hholds : i.holds address = true := by
      rw [Instruction.holds_iff, hi.address, hi.nextAddress, ← Instruction.holds_iff]
      exact haddress
    have hcount := ((wellBuilt_of_discover h).spliced hc).countP_holds address
    have hpos : 0 < c.instructions.countP (·.holds address) := List.countP_pos_iff.2 ⟨i, hmem, hholds⟩
    rw [hcount] at hpos
    exact List.any_eq_true.2 (List.countP_pos_iff.1 hpos)
  · exact hslots pointer ⟨c, hc, i, hmem, hi.mnemonic.trans hcall, d, hd, hi.address.symm, hpointer⟩

/-- A function that calls another through a slot in a second section, between bytes that nothing reads. -/
def sheltered (a b c d : UInt8) : Image where
  buffer := [0xff, 0x15, 0x00, 0x20, 0x00, 0x00, 0xc3, a, 0x90, 0xc3, b, 0x08, 0x10, 0x00, 0x00, c, d]
  sections := [⟨0x1000, 0x100b, 0⟩, ⟨0x2000, 0x2006, 11⟩]
  entry := 0x1000

private theorem separate_sheltered : (sheltered 0xcc 0xaa 0x55 0x66).Separate := by
  refine List.pairwise_pair.2 fun address => ?_
  simp only [Section.contains, Bool.and_eq_true, decide_eq_true_eq, UInt32.le_iff_toNat_le, UInt32.lt_iff_toNat_lt]
  rintro ⟨⟨-, hlt⟩, hle, -⟩
  exact absurd (Nat.lt_of_le_of_lt hle hlt) (by decide)

/-- The call is the only one, and its slot is at the start of the second section. -/
private theorem pointer_sheltered {d : Instruction} {pointer : UInt32}
    (hd : Decoded (sheltered 0xcc 0xaa 0x55 0x66) d)
    (haddress : d.address = 0x1000) (h : d.operands.head?.bind Operand.pointer? = some pointer) :
    pointer = 0x2000 := by
  obtain ⟨bytes, n, hbytes, hdecode, -⟩ := hd
  rw [haddress] at hbytes hdecode
  have hfound : (((sheltered 0xcc 0xaa 0x55 0x66).bytesAt? 0x1000).bind fun bytes =>
    (decode bytes 0x1000).toOption).all
      (fun r => r.1.operands.head?.bind Operand.pointer? = some 0x2000) = true := by
    decide +kernel
  rw [hbytes, Option.bind_some, hdecode] at hfound
  have hpointer : d.operands.head?.bind Operand.pointer? = some 0x2000 := of_decide_eq_true hfound
  rw [hpointer, Option.some.injEq] at h
  exact h.symm

/-- Bytes that no instruction and no slot holds can be anything. -/
theorem discover_sheltered : ∃ p, discover (sheltered 0xcc 0xaa 0x55 0x66) [0x1000] {} = .ok p ∧
    p.covered = [⟨0x1000, 0x1007⟩, ⟨0x1008, 0x100a⟩] ∧
    discover (sheltered 0x00 0xbb 0x77 0x88) [0x1000] {} = .ok p := by
  obtain ⟨p, hp, hcovered, hcalls⟩ : ∃ p, discover (sheltered 0xcc 0xaa 0x55 0x66) [0x1000] {} = .ok p ∧
      p.covered = [⟨0x1000, 0x1007⟩, ⟨0x1008, 0x100a⟩] ∧
        ∀ c ∈ p.chunks, ∀ i ∈ c.instructions, i.mnemonic = .call → i.address = 0x1000 :=
    exists_of_any_toOption (by decide +kernel)
  refine ⟨p, hp, hcovered, discover_congr separate_sheltered hp ⟨rfl, rfl, rfl⟩ (fun address haddress => ?_) ?_⟩
  · have hin : (0x1000 ≤ address.toNat ∧ address.toNat < 0x1007) ∨
        (0x1008 ≤ address.toNat ∧ address.toNat < 0x100a) := by
      rw [isCovered, hcovered] at haddress
      simpa [isIn, UInt32.le_iff_toNat_le, UInt32.lt_iff_toNat_lt] using haddress
    rw [← UInt32.ofNat_toNat (x := address)]
    generalize address.toNat = n at hin
    rcases hin with ⟨hle, hlt⟩ | ⟨hle, hlt⟩ <;> interval_cases n <;> decide
  · rintro pointer ⟨c, hc, i, hi, hcall, d, hd, haddress, hpointer⟩ - k hk
    rw [pointer_sheltered hd (haddress.trans (hcalls c hc i hi hcall)) hpointer]
    interval_cases k <;> decide

end Program

end Ia32Wasm
