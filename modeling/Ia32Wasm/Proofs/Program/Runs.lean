import Ia32Wasm.Program.Discovery
import Ia32Wasm.Proofs.X86.Forms
import Ia32Wasm.Proofs.X86.Targets
import Mathlib.Data.List.Chain

/-!
# Runs of instructions

A run holds the instructions that lie back to back from its start on, as the image has them, up to the first jump or
return, or up to code that its chunk already holds; there a jump of no bytes ends it.  A call through a pointer to
code has become a direct call.

* No instruction reaches past the last address, so the addresses of a run ascend (`lt_of_decoded`).
* `Path` is the invariant of a run part way through, `Run.Complete` what it has become at the end.
-/

namespace Ia32Wasm

open X86 (Instruction Operand decode)

/-- The image holds the instruction at its address, and the instruction does not wrap around. -/
def Decoded (image : Image) (i : Instruction) : Prop :=
  ∃ bytes length, image.bytesAt? i.address = some bytes ∧ decode bytes i.address = .ok (i, length) ∧
    0 < length ∧ i.nextAddress.toNat = i.address.toNat + length

/-- The first operand is a slot at a constant address that holds `value`, which lies in a section and is not the thunk
of an import. -/
def PointsToCode (image : Image) (i : Instruction) (value : UInt32) : Prop :=
  ∃ op pointer, i.operands.head? = some op ∧ op.pointer? = some pointer ∧ image.word? pointer = some value ∧
    image.imports.isThunk value = false ∧ (image.section? value).isSome = true

/-- The instruction is what the image holds at its address, but a call through a pointer to code has become a direct
call. -/
inductive Discovered (image : Image) (i : Instruction) : Prop
  | same : Decoded image i → (i.mnemonic = .call → ∀ value, ¬ PointsToCode image i value) → Discovered image i
  | direct {d : Instruction} {value : UInt32} {displacement : Int64} : Decoded image d → d.mnemonic = .call →
    PointsToCode image d value → i = { d with operands := [.imm displacement .bits32] } →
    i.relativeTarget? = some value → Discovered image i

/-- The instructions are a run over the range. -/
structure IsRun (image : Image) (range : AddressRange) (run : List Instruction) : Prop where
  begins : run.head?.map Instruction.address = some range.start
  linked : run.IsChain fun i j => j.address = i.nextAddress ∧ i.address < j.address
  ends : run.getLast?.map Instruction.nextAddress = some range.stop
  transfers : ∀ i ∈ run.getLast?, i.mnemonic = .jump ∨ i.mnemonic = .ret
  straight : ∀ i ∈ run.dropLast, i.mnemonic ≠ .jump ∧ i.mnemonic ≠ .ret
  read : ∃ real, real ≠ [] ∧ (∀ i ∈ real, Discovered image i) ∧ (run = real ∨ run = real ++ [.fallThrough range.stop])

/-! ### Instructions of the image -/

/-- A pointer is followed exactly if it points to code. -/
theorem codePointer?_eq_some_iff {image : Image} {i : Instruction} {value : UInt32} :
    codePointer? image i = some value ↔ PointsToCode image i value := by
  have hguard : ∀ v, (if (image.imports.isThunk v || (image.section? v).isNone) = true then none else some v) =
      some value ↔ v = value ∧ image.imports.isThunk value = false ∧ (image.section? value).isSome = true := by
    intro v
    by_cases h : (image.imports.isThunk v || (image.section? v).isNone) = true
    · rw [if_pos h]
      constructor
      · intro hnone
        cases hnone
      · rintro ⟨rfl, h₁, h₂⟩
        cases hs : image.section? v <;> simp_all
    · rw [if_neg h, Option.some.injEq]
      constructor
      · rintro rfl
        cases hs : image.section? v <;> simp_all
      · exact And.left
  simp only [codePointer?, Option.bind_eq_bind, Option.bind_eq_some_iff, hguard, PointsToCode]
  constructor
  · rintro ⟨pointer, ⟨op, hop, hpointer⟩, v, hword, rfl, hthunk, hsection⟩
    exact ⟨op, pointer, hop, hpointer, hword, hthunk, hsection⟩
  · rintro ⟨op, pointer, hop, hpointer, hword, hthunk, hsection⟩
    exact ⟨pointer, ⟨op, hop, hpointer⟩, value, hword, rfl, hthunk, hsection⟩

/-- The bytes of an image end inside the address space. -/
theorem length_bytesAt?_lt {image : Image} {address : UInt32} {bytes : List UInt8}
    (h : image.bytesAt? address = some bytes) : address.toNat + bytes.length < UInt32.size := by
  unfold Image.bytesAt? at h
  obtain ⟨s, hs, h⟩ := Option.bind_eq_some_iff.1 h
  have hcontains := List.find?_some hs
  simp only [Section.contains, Bool.and_eq_true, decide_eq_true_eq] at hcontains
  dsimp only at h
  split at h
  · cases h
    have hstop : (s.stop - address).toNat = s.stop.toNat - address.toNat :=
      UInt32.toNat_sub_of_le _ _ (UInt32.le_of_lt hcontains.2)
    have hlt : address.toNat < s.stop.toNat := UInt32.lt_iff_toNat_lt.1 hcontains.2
    have hbound : s.stop.toNat < UInt32.size := s.stop.toNat_lt_size
    rw [List.length_take, hstop]
    omega
  · cases h

/-- An instruction that is decoded at an address of the image is there. -/
theorem decoded_of_bytesAt? {image : Image} {address : UInt32} {bytes : List UInt8} {i : Instruction} {length : Nat}
    (hbytes : image.bytesAt? address = some bytes) (h : decode bytes address = .ok (i, length)) :
    i.address = address ∧ Decoded image i := by
  obtain ⟨haddress, hnext, hpos, -, hle, -⟩ := X86.decode_eq_ok h
  subst haddress
  have hlt := length_bytesAt?_lt hbytes
  refine ⟨rfl, bytes, length, hbytes, h, hpos, ?_⟩
  have hlength : (UInt32.ofNat length).toNat = length := UInt32.toNat_ofNat_of_lt' (by omega : length < UInt32.size)
  rw [hnext, UInt32.toNat_add, hlength, Nat.mod_eq_of_lt (show _ < UInt32.size by omega)]

/-- A decoded instruction has at least one byte. -/
theorem lt_of_decoded {image : Image} {i : Instruction} (h : Decoded image i) : i.address < i.nextAddress := by
  obtain ⟨-, length, -, -, hpos, hnext⟩ := h
  exact UInt32.lt_iff_toNat_lt.2 (by omega)

theorem lt_of_discovered {image : Image} {i : Instruction} (h : Discovered image i) : i.address < i.nextAddress := by
  cases h with
  | same hd _ => exact lt_of_decoded hd
  | @direct d _ _ hd _ _ hi _ =>
    have hlt : d.address < d.nextAddress := lt_of_decoded hd
    rw [hi]
    exact hlt

/-- Discovered instructions name registers that there are. -/
theorem numbered_of_discovered {image : Image} {i : Instruction} (h : Discovered image i) :
    ∀ op ∈ i.operands, op.Numbered := by
  cases h with
  | same hd _ =>
    obtain ⟨_, _, -, hdecode, -⟩ := hd
    exact (X86.decode_eq_ok hdecode).2.2.2.2.2.1
  | direct _ _ _ hi _ =>
    rw [hi]
    exact List.forall_mem_singleton.2 trivial

/-- A conditional jump of the image has a target. -/
theorem relativeTarget?_of_discovered {image : Image} {i : Instruction} (h : Discovered image i)
    (hjump : i.mnemonic.isConditionalJump = true) : ∃ target, i.relativeTarget? = some target := by
  cases h with
  | same hd _ =>
    obtain ⟨_, _, -, hdecode, -⟩ := hd
    obtain ⟨value, size, hops⟩ := (X86.decode_eq_ok hdecode).2.2.2.2.2.2 hjump
    exact ⟨_, Instruction.relativeTarget?_eq_some_iff.2
      ⟨X86.Mnemonic.isBranch_of_isConditionalJump hjump, _, value, hops, rfl, rfl⟩⟩
  | direct _ _ _ _ htarget => exact ⟨_, htarget⟩

theorem isEmpty_of_discovered {image : Image} {i : Instruction} (h : Discovered image i) : i.isEmpty = false := by
  have hlt := lt_of_discovered h
  have hlength : i.nextAddress - i.address ≠ 0 := by
    intro hzero
    have hsub := UInt32.toNat_sub_of_le _ _ (UInt32.le_of_lt hlt)
    have := UInt32.lt_iff_toNat_lt.1 hlt
    rw [hzero, UInt32.toNat_zero] at hsub
    omega
  simp [Instruction.isEmpty, Instruction.length, hlength]

/-- Discovered instructions are no jumps of no bytes. -/
theorem isFallThrough_of_discovered {image : Image} {i : Instruction} (h : Discovered image i) :
    i.isFallThrough = false := by
  rw [Instruction.isFallThrough, isEmpty_of_discovered h, Bool.and_false]

/-- Discovery keeps instructions in one of their forms: a call through a pointer into code becomes a call by a
displacement. -/
theorem formed_of_discovered {image : Image} {i : Instruction} (h : Discovered image i) : i.Formed := by
  cases h with
  | same hd _ =>
    obtain ⟨_, _, -, hdecode, -⟩ := hd
    exact X86.formed_of_decode hdecode
  | @direct d _ displacement _ hcall _ hi _ =>
    have hmnemonic : i.mnemonic = .call := by
      rw [hi]
      exact hcall
    refine ⟨[.value], by simp [hmnemonic, X86.Mnemonic.forms], ?_⟩
    rw [hi]
    exact .cons (.inr ⟨displacement, .bits32, rfl, by simp⟩) .nil

theorem formed_fallThrough (address : UInt32) : (Instruction.fallThrough address).Formed :=
  ⟨[.value], by simp [Instruction.fallThrough, X86.Mnemonic.forms], .cons (.inr ⟨0, .bits32, rfl, by simp⟩) .nil⟩

/-! ### Paths -/

/-- The instructions lie back to back from `start` to `stop`. -/
inductive Path (P : Instruction → Prop) : UInt32 → List Instruction → UInt32 → Prop
  | nil (address : UInt32) : Path P address [] address
  | cons {i : Instruction} {rest : List Instruction} {stop : UInt32} :
    P i → Path P i.nextAddress rest stop → Path P i.address (i :: rest) stop

section Path

variable {P : Instruction → Prop} {start stop : UInt32} {l : List Instruction} {x : Instruction}

private theorem Path.snoc (h : Path P start l stop) (hx : P x) (haddress : x.address = stop) :
    Path P start (l ++ [x]) x.nextAddress := by
  induction h with
  | nil => exact haddress ▸ .cons hx (.nil _)
  | cons hi _ ih => exact .cons hi (ih haddress)

theorem Path.imp {Q : Instruction → Prop} (h : Path P start l stop) (hPQ : ∀ i, P i → Q i) : Path Q start l stop := by
  induction h with
  | nil => exact .nil _
  | cons hi _ ih => exact .cons (hPQ _ hi) ih

private theorem Path.eq_of_nil (h : Path P start [] stop) : stop = start := by
  cases h
  rfl

private theorem Path.forall_mem (h : Path P start l stop) : ∀ i ∈ l, P i := by
  induction h with
  | nil => simp
  | cons hi _ ih => exact List.forall_mem_cons.2 ⟨hi, ih⟩

theorem Path.begins (h : Path P start l stop) (haddress : x.address = stop) :
    (l ++ [x]).head?.map Instruction.address = some start := by
  cases h with
  | nil => simp [haddress]
  | cons _ _ => rfl

variable (hP : ∀ i, P i → i.address < i.nextAddress)
include hP

/-- The instructions of a path follow each other. -/
theorem Path.linked (h : Path P start l stop) (haddress : x.address = stop) :
    (l ++ [x]).IsChain fun i j => j.address = i.nextAddress ∧ i.address < j.address := by
  induction h with
  | nil => exact List.isChain_singleton x
  | @cons i rest stop hi hrest ih =>
    have hbegins := hrest.begins haddress
    cases hl : rest ++ [x] with
    | nil => simp at hl
    | cons j _ =>
      rw [hl, List.head?_cons, Option.map_some, Option.some.injEq] at hbegins
      rw [List.cons_append, hl, List.isChain_cons_cons, ← hl]
      exact ⟨⟨hbegins, hbegins ▸ hP i hi⟩, ih haddress⟩

theorem Path.le (h : Path P start l stop) : start ≤ stop := by
  induction h with
  | nil => exact UInt32.le_refl _
  | cons hi _ ih => exact UInt32.le_trans (UInt32.le_of_lt (hP _ hi)) ih

private theorem Path.bounds (h : Path P start l stop) : ∀ i ∈ l, start ≤ i.address ∧ i.nextAddress ≤ stop := by
  induction h with
  | nil => simp
  | @cons i rest stop hi hrest ih =>
    refine List.forall_mem_cons.2 ⟨⟨UInt32.le_refl _, hrest.le hP⟩, fun j hj => ?_⟩
    exact ⟨UInt32.le_trans (UInt32.le_of_lt (hP i hi)) (ih j hj).1, (ih j hj).2⟩

end Path

/-! ### Steps -/

namespace Run

/-- The run `r'` is `r` with the instruction `i`, which the image holds where `r` has come to. -/
structure Advances (image : Image) (r : Run) (i : Instruction) (r' : Run) : Prop where
  discovered : Discovered image i
  address : i.address = r.cursor
  start : r'.start = r.start
  cursor : r'.cursor = i.nextAddress
  read : r'.read = i :: r.read
  held : r'.held = r.held + 1

variable {image : Image} {limits : Limits} {program : Program} {chunk : Chunk} {covered : List AddressRange}

private theorem advances_pushCall {r : Run} {d : Instruction} (hd : Decoded image d) (haddress : d.address = r.cursor)
    (hcall : d.mnemonic = .call) :
    ∃ i, i.mnemonic = .call ∧ r.Advances image i (r.pushCall image covered d) := by
  unfold pushCall
  cases htarget : d.relativeTarget? with
  | some target =>
    refine ⟨d, hcall, .same hd ?_, haddress, rfl, rfl, rfl, rfl⟩
    rintro - value ⟨op, pointer, hop, hpointer, -⟩
    have hnone := Instruction.pointer?_of_relativeTarget? htarget
    rw [hop, Option.bind_some, hpointer] at hnone
    cases hnone
  | none =>
    cases hpointer : codePointer? image d with
    | none =>
      refine ⟨d, hcall, .same hd fun _ value hvalue => ?_, haddress, rfl, rfl, rfl, rfl⟩
      rw [codePointer?_eq_some_iff.2 hvalue] at hpointer
      cases hpointer
    | some value =>
      have hbranch : d.mnemonic.isBranch = true := by rw [hcall]; rfl
      refine ⟨{ d with operands := [.imm (value - d.nextAddress).toInt32.toInt64 .bits32] }, hcall, ?_, haddress, rfl,
        rfl, rfl, rfl⟩
      exact .direct hd hcall (codePointer?_eq_some_iff.1 hpointer) rfl
        (Instruction.relativeTarget?_distance hbranch value)

private theorem fields_addTarget (covered : List AddressRange) (r : Run) (target : UInt32) :
    (r.addTarget covered target).start = r.start ∧ (r.addTarget covered target).read = r.read ∧
      (r.addTarget covered target).held = r.held := by
  unfold addTarget
  split <;> exact ⟨rfl, rfl, rfl⟩

/-- A jump or a return completes a run, after every other instruction it goes on. -/
theorem visit_cases {r : Run} {d : Instruction} (hd : Decoded image d) (haddress : d.address = r.cursor) :
    (∃ i r' jump, r.visit image covered d = .done r' jump ∧ r.Advances image i r' ∧ i.mnemonic.endsRun = true) ∨
      ∃ i r', r.visit image covered d = .more r' ∧ r.Advances image i r' ∧ i.mnemonic.endsRun = false := by
  by_cases hcall : d.mnemonic = .call
  · obtain ⟨i, hi, hadvances⟩ : ∃ i, i.mnemonic = .call ∧ r.Advances image i (r.pushCall image covered d) :=
      advances_pushCall hd haddress hcall
    exact .inr ⟨i, _, by simp only [visit, hcall], hadvances, by rw [hi]; rfl⟩
  -- All other instructions stand in the run as they were decoded.
  have hsame : ∀ r' : Run, r'.start = r.start → r'.cursor = d.nextAddress → r'.read = d :: r.read →
      r'.held = r.held + 1 → r.Advances image d r' := fun r' hstart hcursor hread hheld =>
    ⟨.same hd fun h => absurd h hcall, haddress, hstart, hcursor, hread, hheld⟩
  cases hends : d.mnemonic.endsRun with
  | true =>
    left
    rcases X86.Mnemonic.endsRun_iff.1 hends with hm | hm
    · exact ⟨d, r.push d, d.relativeTarget?, by simp only [visit, hm], hsame _ rfl rfl rfl rfl, hends⟩
    · exact ⟨d, r.push d, none, by simp only [visit, hm], hsame _ rfl rfl rfl rfl, hends⟩
  | false =>
    right
    have hgoes : ∃ r', r.visit image covered d = .more r' ∧ r'.start = r.start ∧ r'.cursor = d.nextAddress ∧
        r'.read = d :: r.read ∧ r'.held = r.held + 1 := by
      unfold visit
      split
      · simp_all [X86.Mnemonic.endsRun]
      · simp_all [X86.Mnemonic.endsRun]
      · contradiction
      all_goals first
        | exact ⟨_, rfl, rfl, rfl, rfl, rfl⟩
        | split
          · obtain ⟨hstart, hread, hheld⟩ := fields_addTarget covered r ‹UInt32›
            exact ⟨_, rfl, hstart, rfl, congrArg (d :: ·) hread, congrArg (· + 1) hheld⟩
          · exact ⟨_, rfl, rfl, rfl, rfl, rfl⟩
    obtain ⟨r', hr', hstart, hcursor, hread, hheld⟩ := hgoes
    exact ⟨d, r', hr', hsame r' hstart hcursor hread hheld, hends⟩

/-- Unless it has come to code that its chunk holds, a run takes a step over the instruction it has come to, and its
chunk has room for it. -/
theorem step_eq_ok {r : Run} {progress : Progress} (h : r.step image limits program chunk = .ok progress) :
    (r.cursor ≠ r.start ∧ chunk.covers r.cursor = true ∧ progress = .done (r.push (.fallThrough r.cursor)) none) ∨
      ((r.cursor = r.start ∨ chunk.covers r.cursor = false) ∧ r.held < limits.maxChunkInstructions.toNat ∧
        ∃ d, Decoded image d ∧ d.address = r.cursor ∧ progress = r.visit image program.covered d) := by
  unfold step at h
  split at h
  · rename_i hmet
    cases h
    exact .inl ⟨hmet.1, hmet.2, rfl⟩
  · rename_i hmet
    have hfresh : r.cursor = r.start ∨ chunk.covers r.cursor = false := by
      rw [not_and_or, not_not, Bool.not_eq_true] at hmet
      exact hmet
    split at h
    · cases h
    · rename_i hroom
      split at h
      · cases h
      · rename_i bytes hbytes
        split at h
        · cases h
        · rename_i d length hd
          cases h
          obtain ⟨haddress, hdecoded⟩ := decoded_of_bytesAt? hbytes hd
          exact .inr ⟨hfresh, Nat.lt_of_not_le hroom, d, hdecoded, haddress, rfl⟩

/-! ### Whole runs -/

/-- An instruction that a run goes on after, at an address that its chunk does not hold. -/
def Passed (image : Image) (chunk : Chunk) (i : Instruction) : Prop :=
  Discovered image i ∧ i.mnemonic.endsRun = false ∧ chunk.covers i.address = false

/-- A run that is complete: it is a run over its range, and its instructions are new to its chunk. -/
structure Complete (image : Image) (chunk : Chunk) (r : Run) : Prop where
  isRun : IsRun image r.range r.read.reverse
  inside : ∀ i ∈ r.read.reverse, i.isFallThrough = false → r.range.contains i.address = true
  fresh : ∀ i ∈ r.read.reverse, i.isFallThrough = false → chunk.covers i.address = false

private theorem lt_of_passed (i : Instruction) (h : Passed image chunk i) : i.address < i.nextAddress :=
  lt_of_discovered h.1

private theorem straight_of_passed {l : List Instruction} {start stop : UInt32}
    (h : Path (Passed image chunk) start l stop) : ∀ i ∈ l, i.mnemonic ≠ .jump ∧ i.mnemonic ≠ .ret := by
  intro i hi
  have hends := (h.forall_mem i hi).2.1
  constructor <;> intro hm <;> simp [hm, X86.Mnemonic.endsRun] at hends

private theorem isRun_snoc {l : List Instruction} {start stop : UInt32} {last : Instruction}
    (h : Path (Passed image chunk) start l stop) (haddress : last.address = stop)
    (hends : last.mnemonic.endsRun = true)
    (hread : ∃ real, real ≠ [] ∧ (∀ i ∈ real, Discovered image i) ∧
      (l ++ [last] = real ∨ l ++ [last] = real ++ [.fallThrough last.nextAddress])) :
    IsRun image ⟨start, last.nextAddress⟩ (l ++ [last]) where
  begins := h.begins haddress
  linked := h.linked lt_of_passed haddress
  ends := by simp
  transfers := by
    intro i hi
    rw [List.getLast?_concat, Option.mem_some] at hi
    exact hi ▸ X86.Mnemonic.endsRun_iff.1 hends
  straight := by
    rw [List.dropLast_concat]
    exact straight_of_passed h
  read := hread

private theorem contains_of_bounds {start stop : UInt32} {i : Instruction} (hlt : i.address < i.nextAddress)
    (h : start ≤ i.address ∧ i.nextAddress ≤ stop) : (AddressRange.mk start stop).contains i.address = true := by
  simp only [AddressRange.contains, Bool.and_eq_true, decide_eq_true_eq]
  exact ⟨h.1, UInt32.lt_of_lt_of_le hlt h.2⟩

/-- A run that meets code of its chunk is complete with a jump of no bytes to it. -/
private theorem complete_of_meeting {r : Run} (h : Path (Passed image chunk) r.start r.read.reverse r.cursor)
    (hmoved : r.cursor ≠ r.start) : (r.push (.fallThrough r.cursor)).Complete image chunk := by
  have hbounds := h.bounds lt_of_passed
  have hread : (r.push (.fallThrough r.cursor)).read.reverse = r.read.reverse ++ [.fallThrough r.cursor] := by
    simp [push]
  -- Only an instruction of the image takes a run away from its start.
  have hreal : r.read.reverse ≠ [] := by
    intro hnil
    rw [hnil] at h
    exact hmoved h.eq_of_nil
  have hpassed : ∀ i ∈ (r.push (.fallThrough r.cursor)).read.reverse, i.isFallThrough = false →
      i ∈ r.read.reverse := by
    intro i hi hsynthetic
    rw [hread, List.mem_append, List.mem_singleton] at hi
    rcases hi with hi | rfl
    · exact hi
    · simp at hsynthetic
  refine ⟨?_, fun i hi hsynthetic => ?_, fun i hi hsynthetic => ?_⟩
  · rw [hread]
    exact isRun_snoc h rfl rfl ⟨_, hreal, fun i hi => (h.forall_mem i hi).1, .inr rfl⟩
  · have hi := hpassed i hi hsynthetic
    exact contains_of_bounds (lt_of_passed i (h.forall_mem i hi)) (hbounds i hi)
  · exact (h.forall_mem i (hpassed i hi hsynthetic)).2.2

/-- A run is complete with a jump or a return. -/
private theorem complete_of_ending {r r' : Run} {i : Instruction}
    (h : Path (Passed image chunk) r.start r.read.reverse r.cursor) (hi : r.Advances image i r')
    (hends : i.mnemonic.endsRun = true) (hfresh : chunk.covers r.cursor = false) : r'.Complete image chunk := by
  have hread : r'.read.reverse = r.read.reverse ++ [i] := by
    rw [hi.read, List.reverse_cons]
  have hrange : r'.range = ⟨r.start, i.nextAddress⟩ := by
    rw [range, hi.start, hi.cursor]
  -- The last instruction is known too, so the whole run is a path of instructions of the image.
  have hwhole : Path (Discovered image) r.start (r.read.reverse ++ [i]) i.nextAddress :=
    (h.imp fun _ hj => hj.1).snoc hi.discovered hi.address
  refine ⟨?_, fun j hj _ => ?_, fun j hj _ => ?_⟩
  · rw [hread, hrange]
    exact isRun_snoc h hi.address hends ⟨_, by simp, hwhole.forall_mem, .inl rfl⟩
  · rw [hread] at hj
    rw [hrange]
    exact contains_of_bounds (lt_of_discovered (hwhole.forall_mem j hj))
      (hwhole.bounds (fun _ => lt_of_discovered) j hj)
  · rw [hread, List.mem_append, List.mem_singleton] at hj
    rcases hj with hj | rfl
    · exact (h.forall_mem j hj).2.2
    · rw [hi.address, hfresh]

/-- A run that ends is complete. -/
theorem complete_of_finish {room : Nat} {r r' : Run} {jump : Option UInt32} (hnew : chunk.covers r.start = false)
    (hpath : Path (Passed image chunk) r.start r.read.reverse r.cursor)
    (h : r.finish image limits program chunk room = .ok (r', jump)) :
    r'.start = r.start ∧ r'.Complete image chunk := by
  induction room generalizing r with
  | zero => cases h
  | succ room ih =>
    rw [finish] at h
    cases hstep : r.step image limits program chunk with
    | error e => simp [hstep] at h
    | ok progress =>
      rw [hstep] at h
      rcases step_eq_ok hstep with ⟨hmoved, -, rfl⟩ | ⟨hfresh, -, d, hd, haddress, rfl⟩
      · cases h
        exact ⟨rfl, complete_of_meeting hpath hmoved⟩
      have hfresh : chunk.covers r.cursor = false := hfresh.elim (fun hstart => hstart ▸ hnew) id
      rcases visit_cases hd haddress with ⟨i, r₁, jump', hvisit, hi, hends⟩ | ⟨i, r₁, hvisit, hi, hends⟩
      · rw [hvisit] at h
        cases h
        exact ⟨hi.start, complete_of_ending hpath hi hends hfresh⟩
      · rw [hvisit] at h
        have hnext : Path (Passed image chunk) r₁.start r₁.read.reverse r₁.cursor := by
          rw [hi.start, hi.cursor, hi.read, List.reverse_cons]
          exact hpath.snoc ⟨hi.discovered, hends, hi.address ▸ hfresh⟩ hi.address
        have hgoes := ih (hi.start ▸ hnew) hnext h
        exact ⟨hgoes.1.trans hi.start, hgoes.2⟩

end Run

end Ia32Wasm
