import Ia32Wasm.Proofs.Program.Failures

/-!
# Resolution repeated after a failure

A program that could not be resolved keeps the branches in front of the one that failed as they were resolved.  When
resolution is tried again it comes to these branches first.  A conditional jump stays as it is, but a jump or a call
with a destination is taken for one whose target is found at run time, as it has neither a displacement nor a
pointer.  So the second attempt fails as the first did, and it makes these branches dynamic on its way; the third one
changes nothing.

* `deferred` is what the second attempt makes of a program; `resolveSites_append_of_settled` runs it over the sites
  that were resolved.
* A jump of no bytes that has become dynamic is an instruction that a branch can lead to.  It stands where there was
  one already (`Anchored`), so what failed for want of a target still does (`Missing.deferred`).
-/

namespace Ia32Wasm

open X86 (Instruction Mnemonic Operand Destination)

/-- A jump or a call that has a destination, made dynamic with the operands that it has; other instructions are
kept. -/
def X86.Instruction.deferred (i : Instruction) : Instruction :=
  if i.destination?.isSome then { i with mnemonic := i.mnemonic.dynamic?.getD i.mnemonic } else i

/-- A chunk with its jumps and calls that have a destination made dynamic. -/
def Chunk.deferred (c : Chunk) : Chunk := { c with instructions := c.instructions.map Instruction.deferred }

/-- A program with its jumps and calls that have a destination made dynamic. -/
def Program.deferred (p : Program) : Program := { p with chunks := p.chunks.map Chunk.deferred }

/-- The instruction has been resolved: if it still is a branch, it has a destination. -/
def X86.Instruction.Settled (i : Instruction) : Prop :=
  i.mnemonic.isBranch = true → ∃ destination, i.operands = Instruction.destinationOperands destination

/-- No instruction starts at the address, neither of the chunk nor of the first that covers the address. -/
def Program.Missing (p : Program) (c : Chunk) (target : UInt32) : Prop :=
  c.indexOf? target = none ∧ ∀ owner, p.chunkCovering? target = some owner → owner.indexOf? target = none

/-- Where a jump of no bytes with a destination stands, an instruction starts. -/
def Program.Anchored (p : Program) : Prop :=
  ∀ c ∈ p.chunks, ∀ i ∈ c.instructions, i.isFallThrough = true → i.destination?.isSome = true →
    ¬ p.Missing c i.address

/-! ### Instructions -/

namespace X86.Mnemonic

variable {m : Mnemonic}

private theorem dynamic?_of_dynamic? {m' : Mnemonic} (h : m.dynamic? = some m') : m'.dynamic? = none :=
  Mnemonic.dynamic?_of_isBranch (isBranch_of_dynamic? h)

/-- A branch is encoded with two operands at most. -/
private theorem length_le_of_mem_forms {form : List X86.Kind} (h : m.isBranch = true) (hform : form ∈ m.forms) :
    form.length ≤ 2 := by
  have hall : m.forms.all (fun form => form.length ≤ 2) = true := by
    cases m <;> first | rfl | cases h
  exact of_decide_eq_true (List.all_eq_true.1 hall form hform)

end X86.Mnemonic

namespace X86.Instruction

variable {i : Instruction}

/-- What has no destination is left as it is. -/
theorem deferred_of_destination? (h : i.destination? = none) : i.deferred = i := by
  rw [deferred, h]
  rfl

/-- What has no dynamic form is left as it is. -/
theorem deferred_of_dynamic? (h : i.mnemonic.dynamic? = none) : i.deferred = i := by
  rw [deferred, h]
  split <;> rfl

@[simp] theorem deferred_address (i : Instruction) : i.deferred.address = i.address := by
  unfold deferred
  split <;> rfl

theorem deferred_eq_self_iff :
    i.deferred = i ↔ (i.mnemonic = .jump ∨ i.mnemonic = .call → i.destination? = none) := by
  constructor
  · intro h hm
    by_contra hsome
    have hmnemonic := congrArg mnemonic h
    rw [deferred, if_pos (Option.isSome_iff_ne_none.2 hsome)] at hmnemonic
    rcases hm with hm | hm
    · simp [hm, Mnemonic.dynamic?] at hmnemonic
    · simp [hm, Mnemonic.dynamic?] at hmnemonic
  · intro h
    cases hm : i.mnemonic with
    | jump => exact deferred_of_destination? (h (.inl hm))
    | call => exact deferred_of_destination? (h (.inr hm))
    | _ => exact deferred_of_dynamic? (by rw [hm]; rfl)

/-- What is dynamic stays so. -/
@[simp] theorem deferred_deferred (i : Instruction) : i.deferred.deferred = i.deferred := by
  by_cases hsome : i.destination?.isSome = true
  · cases hdynamic : i.mnemonic.dynamic? with
    | none => rw [deferred_of_dynamic? hdynamic, deferred_of_dynamic? hdynamic]
    | some m =>
      have hmnemonic : i.deferred.mnemonic = m := by rw [deferred, if_pos hsome, hdynamic, Option.getD_some]
      exact deferred_of_dynamic? (by rw [hmnemonic, Mnemonic.dynamic?_of_dynamic? hdynamic])
  · have hnone : i.destination? = none := by simpa using hsome
    rw [deferred_of_destination? hnone, deferred_of_destination? hnone]

/-- An instruction in one of the forms that are encoded has no destination. -/
theorem destination?_of_formed (h : i.Formed) : i.destination? = none := by
  obtain ⟨form, hform, hkinds⟩ := h
  by_contra hsome
  obtain ⟨destination, hdestination⟩ := Option.ne_none_iff_exists'.1 hsome
  have hfew := Mnemonic.length_le_of_mem_forms (isBranch_of_destination? hdestination) hform
  rw [hkinds.length_eq] at hfew
  unfold destination? at hsome
  split at hsome
  · split at hsome
    · simp_all
    · exact hsome rfl
  · exact hsome rfl

namespace Settled

private theorem operands_cases (h : i.Settled) (hbranch : i.mnemonic.isBranch = true) :
    ∃ chunk index, i.operands = [.imm programMark .bits32, chunk, index] := by
  obtain ⟨destination, hops⟩ := h hbranch
  cases destination with
  | inside index => exact ⟨_, _, hops⟩
  | across chunk index => exact ⟨_, _, hops⟩

theorem destination? (h : i.Settled) (hbranch : i.mnemonic.isBranch = true) : i.destination?.isSome = true := by
  obtain ⟨destination, hops⟩ := h hbranch
  have hi : i.withDestination destination = i := by rw [withDestination, ← hops]
  rw [← hi, destination?_withDestination hbranch]
  rfl

theorem deferred (h : i.Settled) : i.deferred.Settled := by
  by_cases hsome : i.destination?.isSome = true
  · cases hdynamic : i.mnemonic.dynamic? with
    | none => rwa [deferred_of_dynamic? hdynamic]
    | some m =>
      intro hbranch
      have hother := Mnemonic.isBranch_of_dynamic? hdynamic
      rw [Instruction.deferred, if_pos hsome, hdynamic, Option.getD_some, hother] at hbranch
      cases hbranch
  · rwa [deferred_of_destination? (by simpa using hsome)]

/-- Nothing is to be looked up for a resolved instruction; if it is a jump or a call it becomes dynamic. -/
theorem resolution? (h : i.Settled) (p : Program) (image : Image) (c : Chunk) :
    p.resolution? image c i = .ok (i.mnemonic.dynamic?.map .dynamic) := by
  unfold Program.resolution?
  split
  · rename_i hbranch
    obtain ⟨chunk, index, hops⟩ := h.operands_cases hbranch
    simp [hops, relativeTarget?, hbranch]
  · rename_i hbranch
    rw [Mnemonic.dynamic?_of_isBranch (by simpa using hbranch)]
    rfl

theorem applyTo {m : Mnemonic} (h : i.Settled) (hdynamic : i.mnemonic.dynamic? = some m) :
    (Resolution.dynamic m).applyTo i = i.deferred := by
  have hbranch : i.mnemonic.isBranch = true := by
    by_contra hother
    rw [Mnemonic.dynamic?_of_isBranch (by simpa using hother)] at hdynamic
    cases hdynamic
  obtain ⟨chunk, index, hops⟩ := h.operands_cases hbranch
  have hfar : i.farTarget? = none := by simp [farTarget?, hops]
  rw [Resolution.applyTo, hfar, Instruction.deferred, if_pos (h.destination? hbranch), hdynamic, Option.getD_some]

end Settled

end X86.Instruction

/-! ### Lookups -/

namespace Program

variable {image : Image} {p q : Program} {c : Chunk} {i : Instruction} {target : UInt32}

private theorem chunkCovering?_deferred (p : Program) (address : UInt32) :
    p.deferred.chunkCovering? address = (p.chunkCovering? address).map Chunk.deferred := by
  simp only [chunkCovering?, Program.deferred, List.find?_map]
  rfl

private theorem missing_outline : p.outline.Missing c.outline target ↔ p.Missing c target := by
  simp [Missing, chunkCovering?_outline, Chunk.indexOf?_outline]

/-- A branch to a missing target fails, and what it reports depends on whether a chunk covers the target. -/
private theorem resolveTarget_of_missing (h : p.Missing c target) (i : Instruction) :
    p.resolveTarget c i target = .error
      (if (p.chunkCovering? target).isSome then .misalignedBranch i.address target
        else .unresolvedBranch i.address target) := by
  rw [resolveTarget, h.1]
  cases howner : p.chunkCovering? target with
  | none => rfl
  | some owner => simp only [h.2 owner howner, Option.isSome_some, if_true]

private theorem missing_of_resolveTarget {e : ResolutionError} (h : p.resolveTarget c i target = .error e) :
    p.Missing c target := by
  unfold resolveTarget at h
  split at h
  · cases h
  · rename_i hown
    refine ⟨hown, fun owner howner => ?_⟩
    simp only [howner] at h
    split at h
    · assumption
    · cases h

/-- In a chunk without an instruction at the target, a jump of no bytes there has no destination: it would be
anchored. -/
private theorem Missing.indexOf?_deferred (h : p.Missing c target) (hp : p.Anchored) (hc : c ∈ p.chunks) :
    c.deferred.indexOf? target = none := by
  have hnone := List.findIdx?_eq_none_iff.1 (Option.map_eq_none_iff.1 h.1)
  refine Option.map_eq_none_iff.2 (List.findIdx?_eq_none_iff.2 ?_)
  rw [Chunk.deferred, List.forall_mem_map]
  intro i hi
  have hmatch := hnone i hi
  by_cases haddress : i.address = target
  · have hempty : i.isFallThrough = true := by simpa [haddress] using hmatch
    by_cases hsome : i.destination?.isSome = true
    · exact absurd (haddress ▸ h) (hp c hc i hi hempty hsome)
    · rwa [Instruction.deferred_of_destination? (by simpa using hsome)]
  · simp [haddress]

theorem Missing.deferred (h : p.Missing c target) (hp : p.Anchored) (hc : c ∈ p.chunks) :
    p.deferred.Missing c.deferred target := by
  refine ⟨h.indexOf?_deferred hp hc, fun owner howner => ?_⟩
  rw [chunkCovering?_deferred, Option.map_eq_some_iff] at howner
  obtain ⟨owner, howner, rfl⟩ := howner
  have hmissing : p.Missing owner target := ⟨h.2 owner howner, h.2⟩
  exact hmissing.indexOf?_deferred hp (List.mem_of_find?_eq_some howner)

private theorem resolution?_deferred {e : ResolutionError} (hp : p.Anchored) (hc : c ∈ p.chunks)
    (h : p.resolution? image c i = .error e) : p.deferred.resolution? image c.deferred i = .error e := by
  have hpointer : ∀ pointer, p.deferred.resolvePointer image i pointer = p.resolvePointer image i pointer := by
    intro pointer
    simp only [resolvePointer, chunkCovering?_deferred, Option.isSome_map]
  rw [← h]
  unfold resolution? at h ⊢
  simp only [hpointer]
  split
  · rename_i hbranch
    cases hslot : i.operands.head?.bind Operand.pointer? with
    | some pointer => rfl
    | none =>
      cases htarget : i.relativeTarget? with
      | none => rfl
      | some target =>
        simp only [hbranch, if_true, hslot, htarget] at h ⊢
        have hmissing : p.Missing c target := by
          cases hresolve : p.resolveTarget c i target with
          | ok r =>
            rw [hresolve] at h
            cases h
          | error e' => exact missing_of_resolveTarget hresolve
        rw [resolveTarget_of_missing hmissing, resolveTarget_of_missing (hmissing.deferred hp hc),
          chunkCovering?_deferred,
          Option.isSome_map]
  · rfl

/-! ### Runs over resolved sites -/

private theorem modify_congr {α : Type} {l : List α} {k : Nat} {f g : α → α} (h : ∀ a, l[k]? = some a → f a = g a) :
    l.modify k f = l.modify k g := by
  apply List.ext_getElem?
  intro j
  rw [List.getElem?_modify, List.getElem?_modify]
  by_cases hj : k = j
  · subst hj
    cases ha : l[k]? with
    | none => rfl
    | some a => simp [h a ha]
  · simp [hj]

private theorem map_modify {α β : Type} {g : α → β} {f : α → α} (h : ∀ a, g (f a) = g a) (l : List α) (k : Nat) :
    (l.modify k f).map g = l.map g := by
  apply List.ext_getElem?
  intro j
  rw [List.getElem?_map, List.getElem?_map, List.getElem?_modify]
  by_cases hj : k = j
  · cases l[j]? <;> simp [hj, h]
  · simp [hj]

variable {done rest : List (Nat × Nat)} {site : Nat × Nat} {e : ResolutionError}

private theorem modifyInstruction_congr {position index : Nat} {f g : Instruction → Instruction}
    (h : ∀ i, p.at? (position, index) = some i → f i = g i) :
    p.modifyInstruction position index f = p.modifyInstruction position index g := by
  unfold modifyInstruction modifyChunk
  congr 1
  refine modify_congr fun c hc => ?_
  congr 1
  exact modify_congr fun i hi => h i (at?_of_getElem? hc hi)

private theorem modifyInstruction_eq_self {position index : Nat} {f : Instruction → Instruction}
    (h : ∀ i, p.at? (position, index) = some i → f i = i) : p.modifyInstruction position index f = p := by
  rw [modifyInstruction_congr (g := id) h, modifyInstruction]
  simp only [List.modify_id]
  exact congrArg (fun chunks => { p with chunks }) (List.modify_id position p.chunks)

private theorem at?_deferred (p : Program) (site : Nat × Nat) :
    p.deferred.at? site = (p.at? site).map Instruction.deferred := by
  simp only [at?, Program.deferred, List.getElem?_map]
  cases p.chunks[site.1]? with
  | none => rfl
  | some c => simp [Chunk.deferred]

theorem deferred_eq_self_iff : p.deferred = p ↔ ∀ c ∈ p.chunks, ∀ i ∈ c.instructions, i.deferred = i := by
  have hmap : ∀ {α : Type} {f : α → α} {l : List α}, l.map f = l ↔ ∀ a ∈ l, f a = a := by
    intro α f l
    simpa using List.map_eq_map_iff (f := f) (g := id) (l := l)
  have hchunk : ∀ c : Chunk, c.deferred = c ↔ ∀ i ∈ c.instructions, i.deferred = i := by
    intro c
    rw [← hmap]
    exact ⟨congrArg Chunk.instructions, fun h => by rw [Chunk.deferred, h]⟩
  simp only [← hchunk]
  rw [← hmap]
  exact ⟨congrArg Program.chunks, fun h => by rw [Program.deferred, h]⟩

private theorem deferred_eq_self_of_at? (h : ∀ site i, p.at? site = some i → i.deferred = i) : p.deferred = p := by
  refine deferred_eq_self_iff.2 fun c hc i hi => ?_
  obtain ⟨position, hposition⟩ := List.getElem?_of_mem hc
  obtain ⟨index, hindex⟩ := List.getElem?_of_mem hi
  exact h (position, index) i (at?_of_getElem? hposition hindex)

/-- Making one instruction dynamic beforehand makes no difference. -/
private theorem deferred_modifyInstruction (p : Program) (position index : Nat) :
    (p.modifyInstruction position index Instruction.deferred).deferred = p.deferred := by
  unfold Program.deferred modifyInstruction modifyChunk
  congr 1
  refine map_modify (fun c => ?_) p.chunks position
  unfold Chunk.deferred
  congr 1
  exact map_modify Instruction.deferred_deferred c.instructions index

/-- A resolved site, seen again: its instruction becomes dynamic if it is a jump or a call. -/
private theorem resolveSites_cons_of_settled (h : ∀ i, p.at? site = some i → i.Settled) :
    resolveSites image (site :: rest) p =
      resolveSites image rest (p.modifyInstruction site.1 site.2 Instruction.deferred) := by
  rw [resolveSites_cons]
  cases hi : p.at? site with
  | none =>
    have hnone : p.resolutionAt image site = .ok none := by
      rw [at?, Option.bind_eq_none_iff] at hi
      unfold resolutionAt
      split
      · rfl
      · rename_i c hc
        rw [hi c hc]
    rw [hnone, modifyInstruction_eq_self (by simp [hi])]
  | some i =>
    obtain ⟨c, hc, hindex⟩ := Option.bind_eq_some_iff.1 hi
    have hresolution : p.resolutionAt image site = .ok (i.mnemonic.dynamic?.map .dynamic) := by
      simp only [resolutionAt, hc, hindex]
      exact (h i hi).resolution? p image c
    rw [hresolution]
    cases hdynamic : i.mnemonic.dynamic? with
    | none =>
      rw [modifyInstruction_eq_self]
      · rfl
      · intro j hj
        rw [hi, Option.some.injEq] at hj
        exact hj ▸ Instruction.deferred_of_dynamic? hdynamic
    | some m =>
      have happly : p.apply site.1 site.2 (.dynamic m) = p.modifyInstruction site.1 site.2 Instruction.deferred := by
        refine modifyInstruction_congr fun j hj => ?_
        rw [hi, Option.some.injEq] at hj
        exact hj ▸ (h i hi).applyTo hdynamic
      rw [← happly]
      rfl

/-- Seen again, resolved sites make their jumps and calls dynamic, and the run goes on behind them. -/
theorem resolveSites_append_of_settled (hdone : ∀ s ∈ done, ∀ i, p.at? s = some i → i.Settled)
    (hrest : ∀ s, s ∉ done → ∀ i, p.at? s = some i → i.deferred = i) :
    resolveSites image (done ++ rest) p = resolveSites image rest p.deferred := by
  -- A site that was seen is settled and dynamic already, so it satisfies both hypotheses for the sites that follow.
  induction done generalizing p with
  | nil => rw [deferred_eq_self_of_at? fun s => hrest s List.not_mem_nil, List.nil_append]
  | cons site done ih =>
    rw [List.cons_append, resolveSites_cons_of_settled (hdone site List.mem_cons_self)]
    have hat := at?_modifyInstruction (p := p) site.1 site.2 Instruction.deferred
    rw [ih ?_ ?_, deferred_modifyInstruction]
    · intro s hs i hi
      have hsettled := hdone s (List.mem_cons_of_mem site hs)
      rw [hat] at hi
      split at hi
      · obtain ⟨j, hj, rfl⟩ := Option.map_eq_some_iff.1 hi
        exact (hsettled j hj).deferred
      · exact hsettled i hi
    · intro s hs i hi
      rw [hat] at hi
      split at hi
      · obtain ⟨j, -, rfl⟩ := Option.map_eq_some_iff.1 hi
        exact j.deferred_deferred
      · rename_i hne
        exact hrest s (by simp [hs, hne]) i hi

/-- What a failed attempt has left, resolved once more. -/
private theorem resolve_of_settled (hresolved : p.resolved = false) (hsites : p.sites = done ++ site :: rest)
    (hdone : ∀ s ∈ done, ∀ i, p.at? s = some i → i.Settled)
    (hrest : ∀ s, s ∉ done → ∀ i, p.at? s = some i → i.deferred = i)
    (he : p.deferred.resolutionAt image site = .error e) : p.resolve image = (p.deferred, some e) := by
  rw [resolve, hresolved, hsites, resolveSites_append_of_settled hdone hrest, resolveSites_cons, he]
  rfl

/-! ### What a failed attempt leaves -/

/-- The sites depend on the numbers of instructions only. -/
private theorem sites_map {f : Chunk → Chunk} (h : ∀ c, (f c).instructions.length = c.instructions.length)
    (p : Program) :
    { p with chunks := p.chunks.map f }.sites = p.sites := by
  unfold sites
  congr 1
  apply List.ext_getElem?
  intro k
  simp only [List.getElem?_mapIdx, List.getElem?_map, Option.map_map, Function.comp_def, h]

private theorem sites_outline (p : Program) : p.outline.sites = p.sites :=
  sites_map (fun _ => List.length_map _) p

private theorem sites_deferred (p : Program) : p.deferred.sites = p.sites :=
  sites_map (fun _ => List.length_map _) p

/-- Discovered instructions have no destination yet. -/
theorem WellBuilt.destination? (hp : p.WellBuilt image) (hi : p.at? site = some i) : i.destination? = none := by
  obtain ⟨c, hc, hi⟩ := Option.bind_eq_some_iff.1 hi
  rcases (hp.spliced (List.mem_of_getElem? hc)).discovered_or_fallThrough (List.mem_of_getElem? hi) with
    hread | ⟨address, rfl⟩
  · exact Instruction.destination?_of_formed (formed_of_discovered hread)
  · exact Instruction.destination?_of_formed (formed_fallThrough address)

namespace Stage

variable (hp : p.WellBuilt image) (h : p.Stage image done q)

include h in
theorem sites : q.sites = p.sites := by
  rw [← sites_outline, h.outline, sites_outline]

include hp h

private theorem settled (hsite : site ∈ done) (hi : q.at? site = some i) : i.Settled := by
  obtain ⟨r, hr, hat⟩ := h.resolved site hsite
  rw [hi, eq_comm, Option.map_eq_some_iff] at hat
  obtain ⟨j, hj, rfl⟩ := hat
  obtain ⟨c, hc, hj⟩ := Option.bind_eq_some_iff.1 hj
  simp only [resolutionAt, hc, hj] at hr
  have hc := List.mem_of_getElem? hc
  intro hbranch
  rcases cases_of_resolvedTo (hp.spliced hc) (List.mem_of_getElem? hj) (resolvedTo_of_resolution? hp hc hr) with
    ⟨_, destination, -, -, hops, -⟩ | ⟨hother, -⟩
  · exact ⟨destination, hops⟩
  · rw [hbranch] at hother
    cases hother

private theorem deferred_eq_self (hsite : site ∉ done) (hi : q.at? site = some i) : i.deferred = i := by
  rw [h.untouched site hsite] at hi
  exact Instruction.deferred_of_destination? (hp.destination? hi)

/-- A jump of no bytes that was resolved has found an instruction where it stands. -/
private theorem anchored : q.Anchored := by
  intro d hd j hj hempty hsome
  obtain ⟨position, hposition⟩ := List.getElem?_of_mem hd
  obtain ⟨index, hindex⟩ := List.getElem?_of_mem hj
  have hat : q.at? (position, index) = some j := at?_of_getElem? hposition hindex
  -- Only a site that was resolved has a destination, and only an instruction that was not read has no bytes.
  have hdone : (position, index) ∈ done := by
    by_contra hnot
    rw [h.untouched _ hnot] at hat
    rw [hp.destination? hat] at hsome
    cases hsome
  obtain ⟨r, hr, hresolved⟩ := h.resolved _ hdone
  rw [hat, eq_comm, Option.map_eq_some_iff] at hresolved
  obtain ⟨i, hi, -⟩ := hresolved
  obtain ⟨c, hc, hi⟩ := Option.bind_eq_some_iff.1 hi
  simp only [resolutionAt, hc, hi] at hr
  have houtline : d.outline = c.outline := chunk_outline h.outline hc hposition
  have hij : j.outline = i.outline := by
    have hinstructions := congrArg (fun x => x.instructions[index]?) houtline
    simpa [Chunk.outline, hi, hindex] using hinstructions
  have haddress : j.address = i.address := (congrArg Instruction.address hij :)
  rw [← j.isFallThrough_outline, hij, i.isFallThrough_outline] at hempty
  rcases (hp.spliced (List.mem_of_getElem? hc)).discovered_or_fallThrough (List.mem_of_getElem? hi) with
    hread | ⟨address, rfl⟩
  · rw [isFallThrough_of_discovered hread] at hempty
    cases hempty
  · rw [← missing_outline, h.outline, houtline, missing_outline, haddress]
    intro hmissing
    rw [resolution?_of_relativeTarget? (Instruction.relativeTarget?_fallThrough address)] at hr
    have hfails := resolveTarget_of_missing hmissing (Instruction.fallThrough address)
    rw [show p.resolveTarget c (.fallThrough address) address = _ from hfails] at hr
    cases hr

/-- The branch that failed is as it was, and it fails for the same reason. -/
private theorem resolutionAt_deferred (hnew : site ∉ done) (he : p.resolutionAt image site = .error e) :
    q.deferred.resolutionAt image site = .error e := by
  rw [← resolutionAt_congr h.outline (h.untouched site hnew)] at he
  obtain ⟨c, i, hc, hi, he⟩ := resolutionAt_eq_error he
  have hkept : i.deferred = i := h.deferred_eq_self hp hnew (at?_of_getElem? hc hi)
  have hc' : q.deferred.chunks[site.1]? = some c.deferred := by simp [Program.deferred, hc]
  have hi' : c.deferred.instructions[site.2]? = some i := by simp [Chunk.deferred, hi, hkept]
  simp only [resolutionAt, hc', hi']
  exact resolution?_deferred (h.anchored hp) (List.mem_of_getElem? hc) he

end Stage

/-! ### The second attempt and the third -/

/-- If a discovered program cannot be resolved, what is left of it fails with the same error again.  The second
attempt makes the jumps and calls that the first one resolved dynamic, and only if there are none it leaves the
program as it is; later attempts change nothing. -/
theorem resolve_of_resolve_error {limits : Limits} {entries : List UInt32}
    (hp : discover image entries limits = .ok p)
    (h : p.resolve image = (q, some e)) :
    q.resolve image = (q.deferred, some e) ∧ q.deferred.resolve image = (q.deferred, some e) ∧
      (q.deferred = q ↔ ∀ c ∈ q.chunks, ∀ i ∈ c.instructions, i.mnemonic = .jump ∨ i.mnemonic = .call →
        i.destination? = none) := by
  have hp := wellBuilt_of_discover hp
  obtain ⟨done, site, rest, hsites, hstage, hnew, he⟩ := stage_of_resolve_error hp h
  have hresolved : q.resolved = false := (congrArg Program.resolved hstage.outline).trans hp.unresolved
  have hsettled : ∀ s ∈ done, ∀ i, q.at? s = some i → i.Settled := fun s hs i => hstage.settled hp hs
  have hkept : ∀ s, s ∉ done → ∀ i, q.at? s = some i → i.deferred = i := fun s hs i => hstage.deferred_eq_self hp hs
  have he : q.deferred.resolutionAt image site = .error e := hstage.resolutionAt_deferred hp hnew he
  have hfixed : ∀ s i, q.deferred.at? s = some i → i.deferred = i := by
    intro s i hi
    rw [at?_deferred] at hi
    obtain ⟨j, -, rfl⟩ := Option.map_eq_some_iff.1 hi
    exact j.deferred_deferred
  have htwice : q.deferred.deferred = q.deferred := deferred_eq_self_of_at? hfixed
  refine ⟨resolve_of_settled hresolved (hstage.sites.trans hsites) hsettled hkept he, ?_, ?_⟩
  · have hagain : q.deferred.resolve image = (q.deferred.deferred, some e) := by
      refine resolve_of_settled hresolved (q.sites_deferred.trans (hstage.sites.trans hsites)) ?_
        (fun s _ => hfixed s) (htwice.symm ▸ he)
      intro s hs i hi
      rw [at?_deferred] at hi
      obtain ⟨j, hj, rfl⟩ := Option.map_eq_some_iff.1 hi
      exact (hsettled s hs j hj).deferred
    rwa [htwice] at hagain
  · simp only [deferred_eq_self_iff, Instruction.deferred_eq_self_iff]

/-- A call and a branch back in front of a jump through a pointer that cannot be read. -/
def interrupted : Image :=
  .flat 0x1000 [0xe8, 0x08, 0x00, 0x00, 0x00, 0x74, 0xf9, 0xff, 0x25, 0x00, 0x00, 0x00, 0x00, 0xc3]

/-- The call becomes dynamic in the second attempt, and a third one changes nothing. -/
theorem resolve_interrupted : ∃ p q, discover interrupted [0x1000] {} = .ok p ∧
    p.resolve interrupted = (q, some (.unresolvedImport 0x1007)) ∧
    q.chunks.map (fun c => c.instructions.map fun i => (i.mnemonic, i.destination?)) =
      [[(.call, some (.across 1 0)), (.jumpIf .e, some (.inside 0)), (.jump, none)], [(.ret, none)]] ∧
    q.deferred.chunks.map (fun c => c.instructions.map fun i => (i.mnemonic, i.destination?)) =
      [[(.dynamicCall, none), (.jumpIf .e, some (.inside 0)), (.jump, none)], [(.ret, none)]] ∧
    q.resolve interrupted = (q.deferred, some (.unresolvedImport 0x1007)) ∧
    q.deferred.resolve interrupted = (q.deferred, some (.unresolvedImport 0x1007)) := by
  obtain ⟨p, hp, herror, hfirst, hsecond⟩ : ∃ p, discover interrupted [0x1000] {} = .ok p ∧
      (p.resolve interrupted).2 = some (.unresolvedImport 0x1007) ∧
      (p.resolve interrupted).1.chunks.map (fun c => c.instructions.map fun i => (i.mnemonic, i.destination?)) =
        [[(.call, some (.across 1 0)), (.jumpIf .e, some (.inside 0)), (.jump, none)], [(.ret, none)]] ∧
      (p.resolve interrupted).1.deferred.chunks.map
          (fun c => c.instructions.map fun i => (i.mnemonic, i.destination?)) =
        [[(.dynamicCall, none), (.jumpIf .e, some (.inside 0)), (.jump, none)], [(.ret, none)]] :=
    exists_of_any_toOption (by decide +kernel)
  have hq : p.resolve interrupted = ((p.resolve interrupted).1, some (.unresolvedImport 0x1007)) :=
    Prod.ext rfl herror
  obtain ⟨hagain, hstable, -⟩ := resolve_of_resolve_error hp hq
  exact ⟨p, _, hp, hq, hfirst, hsecond, hagain, hstable⟩

/-- A jump to a jump through a pointer that cannot be read. -/
def forwarded : Image := .flat 0x1000 [0xeb, 0x00, 0xff, 0x25, 0x00, 0x00, 0x00, 0x00]

/-- The first jump has a destination after one attempt and is dynamic after two. -/
theorem resolve_forwarded_ne : ∃ p q, discover forwarded [0x1000] {} = .ok p ∧
    p.resolve forwarded = (q, some (.unresolvedImport 0x1002)) ∧
    q.resolve forwarded ≠ (q, some (.unresolvedImport 0x1002)) ∧
    q.chunks.map (fun c => c.instructions.map fun i => (i.mnemonic, i.destination?)) =
      [[(.jump, some (.across 1 0))], [(.jump, none)]] ∧
    (q.resolve forwarded).1.chunks.map (fun c => c.instructions.map fun i => (i.mnemonic, i.destination?)) =
      [[(.dynamicJump, none)], [(.jump, none)]] := by
  obtain ⟨p, hp, herror, hchanged⟩ : ∃ p, discover forwarded [0x1000] {} = .ok p ∧
      (p.resolve forwarded).2 = some (.unresolvedImport 0x1002) ∧
      (p.resolve forwarded).1.resolve forwarded ≠ ((p.resolve forwarded).1, some (.unresolvedImport 0x1002)) ∧
      (p.resolve forwarded).1.chunks.map (fun c => c.instructions.map fun i => (i.mnemonic, i.destination?)) =
        [[(.jump, some (.across 1 0))], [(.jump, none)]] ∧
      ((p.resolve forwarded).1.resolve forwarded).1.chunks.map
          (fun c => c.instructions.map fun i => (i.mnemonic, i.destination?)) =
        [[(.dynamicJump, none)], [(.jump, none)]] :=
    exists_of_any_toOption (by decide +kernel)
  exact ⟨p, _, hp, Prod.ext rfl herror, hchanged⟩

end Program

end Ia32Wasm
