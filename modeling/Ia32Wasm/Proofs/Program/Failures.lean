import Ia32Wasm.Proofs.Program.Closure
import Ia32Wasm.Proofs.Program.Resolution

/-!
# How resolution fails

Discovered programs are closed, so every target that a branch names is covered, and discovery has made every call
through a pointer to code direct.  What is left to go wrong is a target in the middle of an instruction and a pointer
that is no import.

* `stage_of_resolve_error`: the error is that of an instruction judged in the program as it was discovered, and the
  instructions in front of it are resolved.
* `unresolvable_of_error` sorts the errors of an instruction by its form.
-/

namespace Ia32Wasm

open X86 (Instruction Mnemonic Operand)

/-- How an instruction of the chunk `c` of a discovered program fails to be resolved: it branches to an address at
which no instruction starts, neither of its own chunk nor of the first that covers the address; it jumps through a
pointer to code; or it jumps or calls through a pointer that cannot be read or is neither an import nor code.  A
pointer of a call that can be read is outside of all sections then. -/
inductive Program.Unresolvable (p : Program) (image : Image) (c : Chunk) (i : Instruction) : ResolutionError → Prop
  | misaligned {target : UInt32} {owner : Chunk} : i.relativeTarget? = some target →
    (∀ index, ¬ c.StartsAt target index) → p.FirstCovers target owner → (∀ index, ¬ owner.StartsAt target index) →
    Unresolvable p image c i (.misalignedBranch i.address target)
  | code {slot value : UInt32} : i.mnemonic = .jump → i.operands.head?.bind Operand.pointer? = some slot →
    image.word? slot = some value → image.imports.isThunk value = false → p.Covers value →
    Unresolvable p image c i (.pointerIntoChunk i.address value)
  | unreadable {slot : UInt32} : i.mnemonic = .jump ∨ i.mnemonic = .call →
    i.operands.head?.bind Operand.pointer? = some slot → image.word? slot = none →
    Unresolvable p image c i (.unresolvedImport i.address)
  | unknown {slot value : UInt32} : i.mnemonic = .jump ∨ i.mnemonic = .call →
    i.operands.head?.bind Operand.pointer? = some slot → image.word? slot = some value →
    image.imports.isThunk value = false → ¬ p.Covers value → (i.mnemonic = .call → image.section? value = none) →
    Unresolvable p image c i (.unresolvedImport i.address)

private theorem ImportTable.isThunk_eq_isSome_symbol? (t : ImportTable) (value : UInt32) :
    t.isThunk value = (t.symbol? value).isSome := by
  rw [Bool.eq_iff_iff, isThunk, symbol?, List.any_eq_true, List.findSome?_isSome_iff]
  simp only [Option.isSome_map, List.find?_isSome, List.any_eq_true]

namespace Program

variable {image : Image} {limits : Limits} {entries : List UInt32} {p q q' : Program} {c : Chunk} {i : Instruction}
  {e : ResolutionError}

private theorem isSome_chunkCovering?_iff {address : UInt32} :
    (p.chunkCovering? address).isSome = true ↔ p.Covers address :=
  List.find?_isSome

/-! ### One instruction -/

private theorem resolveTarget_eq_error (hp : p.WellBuilt image) {target : UInt32} (hcovers : p.Covers target)
    (h : p.resolveTarget c i target = .error e) :
    e = .misalignedBranch i.address target ∧ (∀ index, ¬ c.StartsAt target index) ∧
      ∃ owner, p.FirstCovers target owner ∧ ∀ index, ¬ owner.StartsAt target index := by
  unfold resolveTarget at h
  split at h
  · cases h
  rename_i hown
  split at h
  · rename_i hnone
    have hsome := isSome_chunkCovering?_iff.2 hcovers
    rw [hnone] at hsome
    cases hsome
  rename_i owner howner
  split at h
  · rename_i hother
    cases h
    exact ⟨rfl, Chunk.not_startsAt_of_indexOf? hown, owner, hp.firstCovers howner,
      Chunk.not_startsAt_of_indexOf? hother⟩
  · cases h

private theorem resolvePointer_eq_error {slot : UInt32} (h : p.resolvePointer image i slot = .error e) :
    (image.word? slot = none ∧ e = .unresolvedImport i.address) ∨
      ∃ value, image.word? slot = some value ∧ image.imports.isThunk value = false ∧
        ((p.Covers value ∧ e = .pointerIntoChunk i.address value) ∨
          (¬ p.Covers value ∧ e = .unresolvedImport i.address)) := by
  unfold resolvePointer at h
  split at h
  · cases h
    exact .inl ⟨‹_›, rfl⟩
  rename_i value hvalue
  split at h
  · cases h
  rename_i hsymbol
  refine .inr ⟨value, hvalue, by rw [ImportTable.isThunk_eq_isSome_symbol?, hsymbol]; rfl, ?_⟩
  rw [← isSome_chunkCovering?_iff]
  split at h
  · cases h
    exact .inl ⟨‹_›, rfl⟩
  · cases h
    exact .inr ⟨‹_›, rfl⟩

/-- A branch through a pointer is a jump or a call: a conditional jump has its target as an operand. -/
private theorem jump_or_call_of_pointer {slot : UInt32} (hi : Discovered image i)
    (hslot : i.operands.head?.bind Operand.pointer? = some slot) (hbranch : i.mnemonic.isBranch = true) :
    i.mnemonic = .jump ∨ i.mnemonic = .call := by
  by_cases hjump : i.mnemonic.isConditionalJump = true
  · obtain ⟨target, htarget⟩ := relativeTarget?_of_discovered hi hjump
    rw [Instruction.pointer?_of_relativeTarget? htarget] at hslot
    cases hslot
  · cases hm : i.mnemonic <;> simp_all [Mnemonic.isBranch, Mnemonic.isConditionalJump]

/-- A call through a pointer is left only if the pointer leads out of all sections. -/
private theorem unmapped_of_call {slot value : UInt32} (hi : Discovered image i) (hcall : i.mnemonic = .call)
    (hslot : i.operands.head?.bind Operand.pointer? = some slot) (hvalue : image.word? slot = some value)
    (hthunk : image.imports.isThunk value = false) : image.section? value = none := by
  cases hi with
  | same _ hnone =>
    obtain ⟨op, hop, hpointer⟩ := Option.bind_eq_some_iff.1 hslot
    by_contra hsome
    exact hnone hcall value ⟨op, slot, hop, hpointer, hvalue, hthunk, Option.isSome_iff_ne_none.2 hsome⟩
  | direct _ _ _ _ htarget =>
    rw [Instruction.pointer?_of_relativeTarget? htarget] at hslot
    cases hslot

/-- An error of resolution says what is wrong with the instruction. -/
theorem unresolvable_of_error (h : discover image entries limits = .ok p) (hc : c ∈ p.chunks)
    (hi : i ∈ c.instructions)
    (he : p.resolution? image c i = .error e) : p.Unresolvable image c i e := by
  have hp := wellBuilt_of_discover h
  cases htarget : i.relativeTarget? with
  | some target =>
    rw [resolution?_of_relativeTarget? htarget] at he
    cases hresolve : p.resolveTarget c i target with
    | ok r =>
      rw [hresolve] at he
      cases he
    | error e' =>
      rw [hresolve] at he
      cases he
      have hcovers : p.Covers target := (closed_of_discover h).2.2 c hc i hi target htarget
      obtain ⟨rfl, hown, owner, hfirst, hother⟩ := resolveTarget_eq_error hp hcovers hresolve
      exact .misaligned htarget hown hfirst hother
  | none =>
    -- A jump of no bytes has a target, so this instruction was read.
    have hreal : Discovered image i := by
      rcases (hp.spliced hc).discovered_or_fallThrough hi with hreal | ⟨address, rfl⟩
      · exact hreal
      · rw [Instruction.relativeTarget?_fallThrough] at htarget
        cases htarget
    unfold resolution? at he
    split at he
    · rename_i hbranch
      split at he
      · rename_i slot hslot
        have hkind := jump_or_call_of_pointer hreal hslot hbranch
        cases hresolve : p.resolvePointer image i slot with
        | ok r =>
          rw [hresolve] at he
          cases he
        | error e' =>
          rw [hresolve] at he
          cases he
          rcases resolvePointer_eq_error hresolve with
            ⟨hnone, rfl⟩ | ⟨value, hvalue, hthunk, ⟨hcovers, rfl⟩ | ⟨hcovers, rfl⟩⟩
          · exact .unreadable hkind hslot hnone
          · refine .code (hkind.resolve_right fun hcall => ?_) hslot hvalue hthunk hcovers
            obtain ⟨d, hd, hcovers⟩ := hcovers
            have hmapped := (hp.spliced hd).isSome_section? hcovers
            rw [unmapped_of_call hreal hcall hslot hvalue hthunk] at hmapped
            cases hmapped
          · exact .unknown hkind hslot hvalue hthunk hcovers fun hcall =>
              unmapped_of_call hreal hcall hslot hvalue hthunk
      · simp only [htarget] at he
        cases he
    · cases he

/-! ### Whole programs -/

/-- The first site that fails does so in the program as it was at first, and the sites in front of it are resolved by
then. -/
private theorem stage_of_resolveSites_error (hp : p.WellBuilt image) {done sites : List (Nat × Nat)}
    (hsites : (done ++ sites).Nodup) (h : p.Stage image done q) (hq : resolveSites image sites q = (q', some e)) :
    ∃ before site after, sites = before ++ site :: after ∧ p.Stage image (done ++ before) q' ∧ site ∉ done ++ before ∧
      p.resolutionAt image site = .error e := by
  induction sites generalizing done q with
  | nil => cases hq
  | cons site rest ih =>
    have hsite : site ∉ done := fun hdone => (List.nodup_append.1 hsites).2.2 site hdone site List.mem_cons_self rfl
    rw [List.append_cons] at hsites
    rw [resolveSites_cons, resolutionAt_congr h.outline (h.untouched site hsite)] at hq
    have hlater : ∀ {x}, p.Stage image (done ++ [site]) x → resolveSites image rest x = (q', some e) →
        ∃ before failing after, site :: rest = before ++ failing :: after ∧ p.Stage image (done ++ before) q' ∧
          failing ∉ done ++ before ∧ p.resolutionAt image failing = .error e := by
      intro x hx hrest
      obtain ⟨before, failing, after, rfl, hstage, hnew, he⟩ := ih hsites hx hrest
      rw [← List.append_cons] at hstage hnew
      exact ⟨site :: before, failing, after, rfl, hstage, hnew, he⟩
    cases hr : p.resolutionAt image site with
    | error e' =>
      simp only [hr, Prod.mk.injEq, Option.some.injEq] at hq
      obtain ⟨rfl, rfl⟩ := hq
      rw [← List.append_nil done] at h hsite
      exact ⟨[], site, rest, rfl, h, hsite, hr⟩
    | ok r =>
      cases r with
      | none =>
        simp only [hr] at hq
        exact hlater (stage_skip h hsite hr) hq
      | some r =>
        simp only [hr] at hq
        exact hlater (stage_apply hp h hsite hr) hq

/-- A program that could not be resolved is resolved up to the first site that fails. -/
theorem stage_of_resolve_error (hp : p.WellBuilt image) (h : p.resolve image = (q, some e)) :
    ∃ done site rest, p.sites = done ++ site :: rest ∧ p.Stage image done q ∧ site ∉ done ∧
      p.resolutionAt image site = .error e := by
  rw [resolve, hp.unresolved] at h
  cases hsites : resolveSites image p.sites p with
  | mk q₀ error =>
    cases error with
    | none => simp [hsites] at h
    | some e' =>
      simp only [hsites, Bool.false_eq_true, if_false, Prod.mk.injEq, Option.some.injEq] at h
      obtain ⟨rfl, rfl⟩ := h
      exact stage_of_resolveSites_error hp (List.nil_append p.sites ▸ p.nodup_sites) (stage_nil p image) hsites

/-- Where resolution fails, there is an instruction that it fails for. -/
theorem resolutionAt_eq_error {site : Nat × Nat} (h : p.resolutionAt image site = .error e) :
    ∃ c i, p.chunks[site.1]? = some c ∧ c.instructions[site.2]? = some i ∧ p.resolution? image c i = .error e := by
  unfold resolutionAt at h
  split at h
  · cases h
  split at h
  · cases h
  exact ⟨_, _, ‹_›, ‹_›, h⟩

private theorem error_of_resolve (hp : p.WellBuilt image) (h : p.resolve image = (q, some e)) :
    ∃ c ∈ p.chunks, ∃ i ∈ c.instructions, p.resolution? image c i = .error e := by
  obtain ⟨_, site, _, -, -, -, he⟩ := stage_of_resolve_error hp h
  obtain ⟨c, i, hc, hi, he⟩ := resolutionAt_eq_error he
  exact ⟨c, List.mem_of_getElem? hc, i, List.mem_of_getElem? hi, he⟩

/-- In a discovered program no entry point waits; the entry points, the targets of all branches, jumps of no bytes
among them, and the addresses that control flows on to are covered, and what is covered lies in a section.  So
resolution fails only at an instruction that is `Unresolvable`. -/
theorem closed_and_unresolvable_of_discover (h : discover image entries limits = .ok p) :
    (p.pending = [] ∧ (∀ entry ∈ entries, p.Covers entry) ∧
      (∀ c ∈ p.chunks, ∀ i ∈ c.instructions, ∀ target, i.relativeTarget? = some target → p.Covers target) ∧
      (∀ c ∈ p.chunks, ∀ i ∈ c.instructions, i.mnemonic ≠ .jump → i.mnemonic ≠ .ret →
        c.covers i.nextAddress = true) ∧
      ∀ address, p.Covers address → (image.section? address).isSome = true) ∧
    ∀ q e, p.resolve image = (q, some e) → ∃ c ∈ p.chunks, ∃ i ∈ c.instructions, p.Unresolvable image c i e := by
  have hp := wellBuilt_of_discover h
  obtain ⟨hpending, hentries, hbranches⟩ := closed_of_discover h
  refine ⟨⟨hpending, hentries, hbranches, fun c hc i hi => covers_nextAddress h hc hi, ?_⟩, fun q e hq => ?_⟩
  · rintro address ⟨c, hc, hcovers⟩
    exact (hp.spliced hc).isSome_section? hcovers
  · obtain ⟨c, hc, i, hi, he⟩ := error_of_resolve hp hq
    exact ⟨c, hc, i, hi, unresolvable_of_error h hc hi he⟩

/-- A loop around a call through a pointer that leads out of the image. -/
def astray : Image := .flat 0x1000 [0xff, 0x15, 0x08, 0x10, 0x00, 0x00, 0xeb, 0xf8, 0x78, 0x56, 0x34, 0x12]

/-- The call is reported, and it is the one that cannot be resolved. -/
theorem unresolvable_astray : ∃ p q, discover astray [0x1000] {} = .ok p ∧
    p.resolve astray = (q, some (.unresolvedImport 0x1000)) ∧ p.pending = [] ∧ p.Covers 0x1000 ∧
    ∃ c ∈ p.chunks, ∃ i ∈ c.instructions, p.Unresolvable astray c i (.unresolvedImport 0x1000) := by
  obtain ⟨p, hp, hfails⟩ : ∃ p, discover astray [0x1000] {} = .ok p ∧
      (p.resolve astray).2 = some (.unresolvedImport 0x1000) :=
    exists_of_any_toOption (by decide +kernel)
  have hq : p.resolve astray = ((p.resolve astray).1, some (.unresolvedImport 0x1000)) := Prod.ext rfl hfails
  obtain ⟨⟨hpending, hentries, -⟩, herror⟩ := closed_and_unresolvable_of_discover hp
  exact ⟨p, _, hp, hq, hpending, hentries _ List.mem_cons_self, herror _ _ hq⟩

end Program

end Ia32Wasm
