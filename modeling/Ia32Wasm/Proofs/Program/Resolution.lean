import Ia32Wasm.Proofs.Program.Limits
import Ia32Wasm.Proofs.Program.Lookup
import Mathlib.Data.List.Nodup

/-!
# Resolved programs

Resolution rewrites the instructions of a program one by one and looks targets up in the program as it is by then.
The result is the same as if all of them were resolved at once in the program as it was discovered: a rewritten
instruction stays where it is, so the lookups find what they found before, and every instruction is rewritten once.

* `at?` and `targetsAt` are what resolution writes to, `outline` is all the rest; the lemmas on `apply` say how one
  resolution changes the three.
* `Stage` relates the program to what it has become after some sites; each step keeps it (`stage_apply`,
  `stage_skip`), so the whole pass does (`stage_of_resolveSites`).
-/

namespace Ia32Wasm

open X86 (Instruction Mnemonic Operand Destination)

/-- What resolution makes of an instruction of the chunk `c`: it stays where it is, a branch through a pointer
becomes a call of or a jump to an imported function, a branch to an address gets the destination that it leads to,
every other jump or call has its target found at run time, and all other instructions are kept. -/
structure ResolvedTo (p : Program) (image : Image) (c : Chunk) (i i' : Instruction) : Prop where
  placed : i' = { i with mnemonic := i'.mnemonic, operands := i'.operands }
  kept : i.mnemonic.isBranch = false → i' = i
  imported : i.mnemonic.isBranch = true → ∀ pointer, i.operands.head?.bind Operand.pointer? = some pointer →
    ∃ value symbol, image.word? pointer = some value ∧ image.imports.FirstNamed value symbol ∧
      i'.mnemonic = (if i.mnemonic = .jump then .importJump else .importCall) ∧ i'.operands = [.symbol symbol]
  direct : ∀ target, i.relativeTarget? = some target → ∃ destination, p.Leads c target destination ∧
    i'.mnemonic = i.mnemonic ∧ i'.operands = Instruction.destinationOperands destination ∧
      i'.destination? = some destination
  dynamic : ∀ m, i.mnemonic.dynamic? = some m → i.operands.head?.bind Operand.pointer? = none →
    i.relativeTarget? = none → i'.mnemonic = m ∧
      i'.operands = i.farTarget?.elim i.operands fun offset => [Instruction.indexOperand offset]

/-- Some branch of the program leads to the instruction `index` of the chunk. -/
def Program.Refers (p : Program) (c : Chunk) (index : UInt32) : Prop :=
  ∃ d ∈ p.chunks, ∃ i ∈ d.instructions, ∃ target, i.relativeTarget? = some target ∧
    (d = c ∧ p.Leads d target (.inside index) ∨ p.Leads d target (.across c.id index))

/-- What resolution makes of a chunk. -/
structure Chunk.ResolvedTo (p : Program) (image : Image) (c c' : Chunk) : Prop where
  id : c'.id = c.id
  name : c'.name = c.name
  entry : c'.entry = c.entry
  ranges : c'.ranges = c.ranges
  instructions : List.Forall₂ (Ia32Wasm.ResolvedTo p image c) c.instructions c'.instructions
  targets : ∀ index, index ∈ c'.targets.toList ↔ p.Refers c index

/-- A resolution of a branch in the chunk at `position` goes to the instruction `x` of the chunk at `k`. -/
def Resolution.GoesTo (r : Resolution) (position k : Nat) (x : UInt32) : Prop :=
  match r with
  | .direct (.inside index) => position = k ∧ x = index
  | .direct (.across chunk index) => chunk.toNat = k ∧ x = index
  | _ => False

/-! ### One instruction -/

namespace Program

variable {image : Image} {p : Program} {c : Chunk} {i : Instruction}

/-- A relative branch is resolved through its target. -/
theorem resolution?_of_relativeTarget? {target : UInt32} (h : i.relativeTarget? = some target) :
    p.resolution? image c i = (p.resolveTarget c i target).map some := by
  have hbranch := (Instruction.relativeTarget?_eq_some_iff.1 h).1
  rw [resolution?, if_pos hbranch, Instruction.pointer?_of_relativeTarget? h]
  simp only [h]

private theorem leads_of_resolution? (hp : p.WellBuilt image) (hc : c ∈ p.chunks) {target : UInt32}
    {r : Option Resolution}
    (htarget : i.relativeTarget? = some target) (h : p.resolution? image c i = .ok r) :
    ∃ x, r = some (.direct x) ∧ p.Leads c target x := by
  rw [resolution?_of_relativeTarget? htarget] at h
  cases hresolve : p.resolveTarget c i target with
  | error e =>
    rw [hresolve] at h
    cases h
  | ok direct =>
    rw [hresolve] at h
    cases h
    obtain ⟨x, rfl, hx⟩ := leads_of_resolveTarget hp hc hresolve
    exact ⟨x, rfl, hx⟩

/-- A branch to an imported function. -/
private theorem resolvePointer_eq_ok {pointer : UInt32} {r : Resolution}
    (h : p.resolvePointer image i pointer = .ok r) :
    ∃ value symbol, image.word? pointer = some value ∧ image.imports.FirstNamed value symbol ∧
      r = .imported symbol := by
  unfold resolvePointer at h
  split at h
  · cases h
  · rename_i value hvalue
    split at h
    · rename_i symbol hsymbol
      cases h
      exact ⟨value, symbol, hvalue, firstNamed_of_symbol? hsymbol, rfl⟩
    · split at h <;> cases h

/-- A resolution is of the kind that the form of the branch asks for. -/
private theorem resolution?_cases {r : Option Resolution} (h : p.resolution? image c i = .ok r) :
    (i.mnemonic.isBranch = false ∧ r = none) ∨
      (∃ pointer value symbol, i.mnemonic.isBranch = true ∧ i.operands.head?.bind Operand.pointer? = some pointer ∧
        image.word? pointer = some value ∧ image.imports.FirstNamed value symbol ∧ r = some (.imported symbol)) ∨
      (∃ target, i.relativeTarget? = some target) ∨
      (i.mnemonic.isBranch = true ∧ i.operands.head?.bind Operand.pointer? = none ∧ i.relativeTarget? = none ∧
        r = i.mnemonic.dynamic?.map .dynamic) := by
  by_cases hbranch : i.mnemonic.isBranch = true
  · rw [resolution?, if_pos hbranch] at h
    cases hpointer : i.operands.head?.bind Operand.pointer? with
    | some pointer =>
      simp only [hpointer] at h
      cases hresolve : p.resolvePointer image i pointer with
      | error e =>
        rw [hresolve] at h
        cases h
      | ok imported =>
        rw [hresolve] at h
        cases h
        obtain ⟨value, symbol, hvalue, hsymbol, rfl⟩ := resolvePointer_eq_ok hresolve
        exact .inr (.inl ⟨pointer, value, symbol, hbranch, rfl, hvalue, hsymbol, rfl⟩)
    | none =>
      simp only [hpointer] at h
      cases htarget : i.relativeTarget? with
      | some target => exact .inr (.inr (.inl ⟨target, rfl⟩))
      | none =>
        simp only [htarget] at h
        cases h
        exact .inr (.inr (.inr ⟨hbranch, rfl, rfl, rfl⟩))
  · rw [resolution?, if_neg hbranch] at h
    cases h
    exact .inl ⟨by simpa using hbranch, rfl⟩

/-- An instruction that is no branch is kept. -/
theorem resolvedTo_self (h : i.mnemonic.isBranch = false) : ResolvedTo p image c i i := by
  have htarget : i.relativeTarget? = none := by
    rw [Instruction.relativeTarget?, if_neg (by simp [h])]
  exact ⟨rfl, fun _ => rfl, by simp [h], by simp [htarget], by simp [Mnemonic.dynamic?_of_isBranch h]⟩

private theorem resolvedTo_of_imported {pointer value : UInt32} {symbol : String}
    (hbranch : i.mnemonic.isBranch = true)
    (hpointer : i.operands.head?.bind Operand.pointer? = some pointer) (hvalue : image.word? pointer = some value)
    (hsymbol : image.imports.FirstNamed value symbol) :
    ResolvedTo p image c i ((Resolution.imported symbol).applyTo i) where
  placed := rfl
  kept hother := by
    rw [hbranch] at hother
    cases hother
  imported _ pointer' hpointer' := by
    rw [hpointer, Option.some.injEq] at hpointer'
    subst hpointer'
    exact ⟨value, symbol, hvalue, hsymbol, rfl, rfl⟩
  direct target htarget := by
    rw [Instruction.pointer?_of_relativeTarget? htarget] at hpointer
    cases hpointer
  dynamic m _ hnone := by
    rw [hpointer] at hnone
    cases hnone

private theorem resolvedTo_of_direct {target : UInt32} {x : Destination} (htarget : i.relativeTarget? = some target)
    (hx : p.Leads c target x) : ResolvedTo p image c i ((Resolution.direct x).applyTo i) where
  placed := rfl
  kept hother := by
    rw [(Instruction.relativeTarget?_eq_some_iff.1 htarget).1] at hother
    cases hother
  imported _ pointer hpointer := by
    rw [Instruction.pointer?_of_relativeTarget? htarget] at hpointer
    cases hpointer
  direct target' htarget' := by
    rw [htarget, Option.some.injEq] at htarget'
    subst htarget'
    have hbranch := (Instruction.relativeTarget?_eq_some_iff.1 htarget).1
    exact ⟨x, hx, rfl, rfl, Instruction.destination?_withDestination hbranch x⟩
  dynamic m _ _ hnone := by
    rw [htarget] at hnone
    cases hnone

private theorem resolvedTo_of_dynamic (hbranch : i.mnemonic.isBranch = true)
    (hpointer : i.operands.head?.bind Operand.pointer? = none) (htarget : i.relativeTarget? = none) :
    ResolvedTo p image c i ((i.mnemonic.dynamic?.map Resolution.dynamic).elim i (·.applyTo i)) := by
  cases hm : i.mnemonic.dynamic? with
  | none =>
    simp only [Option.map_none, Option.elim_none]
    exact ⟨rfl, fun _ => rfl, by simp [hpointer], by simp [htarget], by simp [hm]⟩
  | some m =>
    simp only [Option.map_some, Option.elim_some]
    refine ⟨?_, by simp [hbranch], by simp [hpointer], by simp [htarget], ?_⟩
    · simp only [Resolution.applyTo]
      cases i.farTarget? <;> rfl
    · intro m' hm' _ _
      rw [hm, Option.some.injEq] at hm'
      subst hm'
      simp only [Resolution.applyTo]
      cases i.farTarget? <;> exact ⟨rfl, rfl⟩

/-- An instruction becomes what it is resolved to. -/
theorem resolvedTo_of_resolution? (hp : p.WellBuilt image) (hc : c ∈ p.chunks) {r : Option Resolution}
    (h : p.resolution? image c i = .ok r) : ResolvedTo p image c i (r.elim i (·.applyTo i)) := by
  rcases resolution?_cases h with ⟨hother, rfl⟩ | ⟨pointer, value, symbol, hbranch, hpointer, hvalue, hsymbol, rfl⟩ |
    ⟨target, htarget⟩ | ⟨hbranch, hpointer, htarget, rfl⟩
  · exact resolvedTo_self hother
  · exact resolvedTo_of_imported hbranch hpointer hvalue hsymbol
  · obtain ⟨x, rfl, hx⟩ := leads_of_resolution? hp hc htarget h
    exact resolvedTo_of_direct htarget hx
  · exact resolvedTo_of_dynamic hbranch hpointer htarget

end Program

/-- A resolved instruction has the destination that it leads to, or it is no branch and has only operands that it had
before and constants and symbols. -/
theorem ResolvedTo.cases {p : Program} {image : Image} {c : Chunk} {i i' : Instruction}
    (h : ResolvedTo p image c i i')
    (hjump : i.mnemonic.isConditionalJump = true → ∃ target, i.relativeTarget? = some target) :
    (∃ target destination, i.relativeTarget? = some target ∧ p.Leads c target destination ∧
      i'.operands = Instruction.destinationOperands destination ∧ i'.destination? = some destination) ∨
    (i'.mnemonic.isBranch = false ∧ ∀ op ∈ i'.operands, op ∈ i.operands ∨ op.Numbered) := by
  cases htarget : i.relativeTarget? with
  | some target =>
    obtain ⟨destination, hleads, -, hops, hdestination⟩ := h.direct target htarget
    exact .inl ⟨target, destination, rfl, hleads, hops, hdestination⟩
  | none =>
    right
    by_cases hbranch : i.mnemonic.isBranch = true
    · cases hpointer : i.operands.head?.bind Operand.pointer? with
      | some pointer =>
        obtain ⟨_, symbol, -, -, hmnemonic, hops⟩ := h.imported hbranch pointer hpointer
        rw [hmnemonic, hops]
        exact ⟨by split <;> rfl, List.forall_mem_singleton.2 (.inr trivial)⟩
      | none =>
        cases hdynamic : i.mnemonic.dynamic? with
        | some m =>
          obtain ⟨hmnemonic, hops⟩ := h.dynamic m hdynamic hpointer htarget
          rw [hmnemonic, hops]
          refine ⟨Mnemonic.isBranch_of_dynamic? hdynamic, ?_⟩
          cases i.farTarget? with
          | none => exact fun op hop => .inl hop
          | some offset => exact List.forall_mem_singleton.2 (.inr trivial)
        | none =>
          obtain ⟨target, hsome⟩ := hjump (Mnemonic.isConditionalJump_of_isBranch hbranch hdynamic)
          rw [hsome] at htarget
          cases htarget
    · have hother : i.mnemonic.isBranch = false := by simpa using hbranch
      rw [h.kept hother]
      exact ⟨hother, fun op hop => .inl hop⟩

/-- The ways in which an instruction can be resolved. -/
theorem cases_of_resolvedTo {p : Program} {image : Image} {c : Chunk} {i i' : Instruction} (hc : c.Spliced image)
    (hi : i ∈ c.instructions) (h : ResolvedTo p image c i i') :
    (∃ target destination, i.relativeTarget? = some target ∧ p.Leads c target destination ∧
      i'.operands = Instruction.destinationOperands destination ∧ i'.destination? = some destination) ∨
    (i'.mnemonic.isBranch = false ∧ ∀ op ∈ i'.operands, op ∈ i.operands ∨ op.Numbered) := by
  refine h.cases fun hjump => ?_
  rcases hc.discovered_or_fallThrough hi with hread | ⟨address, rfl⟩
  · exact relativeTarget?_of_discovered hread hjump
  · exact ⟨address, Instruction.relativeTarget?_fallThrough address⟩

namespace Program

variable {image : Image} {p : Program} {c : Chunk} {i : Instruction}

/-! ### One change -/

/-- The instruction at a site. -/
def at? (p : Program) (site : Nat × Nat) : Option Instruction :=
  p.chunks[site.1]?.bind fun c => c.instructions[site.2]?

/-- The targets recorded in the chunk at a position. -/
def targetsAt (p : Program) (position : Nat) : List UInt32 :=
  (p.chunks[position]?.map fun c => c.targets.toList).getD []

private theorem outline_modifyChunk {position : Nat} {f : Chunk → Chunk}
    (h : ∀ c, p.chunks[position]? = some c → (f c).outline = c.outline) :
    (p.modifyChunk position f).outline = p.outline := by
  unfold outline modifyChunk
  congr 1
  apply List.ext_getElem?
  intro k
  simp only [List.getElem?_map, List.getElem?_modify]
  by_cases hk : position = k
  · subst hk
    cases hc : p.chunks[position]? with
    | none => rfl
    | some c => simp [h c hc]
  · simp [hk]

private theorem outline_modifyInstruction {position index : Nat} {f : Instruction → Instruction}
    (h : ∀ i, p.at? (position, index) = some i → (f i).outline = i.outline) :
    (p.modifyInstruction position index f).outline = p.outline := by
  refine outline_modifyChunk fun c hc => ?_
  unfold Chunk.outline
  congr 1
  apply List.ext_getElem?
  intro k
  simp only [List.getElem?_map, List.getElem?_modify]
  by_cases hk : index = k
  · subst hk
    cases hi : c.instructions[index]? with
    | none => rfl
    | some i => simp [h i (by rw [at?, hc]; exact hi)]
  · simp [hk]

private theorem outline_recordTarget (position : Nat) (r : Resolution) :
    (p.recordTarget position r).outline = p.outline := by
  unfold recordTarget
  split
  · exact outline_modifyChunk fun _ _ => rfl
  · exact outline_modifyChunk fun _ _ => rfl
  · rfl

theorem at?_of_getElem? {p : Program} {site : Nat × Nat} {c : Chunk} {i : Instruction}
    (hc : p.chunks[site.1]? = some c)
    (hi : c.instructions[site.2]? = some i) : p.at? site = some i := by
  rw [at?, hc, Option.bind_some, hi]

/-- To change the instruction at one site leaves the others. -/
theorem at?_modifyInstruction (position index : Nat) (f : Instruction → Instruction) (site : Nat × Nat) :
    (p.modifyInstruction position index f).at? site =
      if site = (position, index) then (p.at? site).map f else p.at? site := by
  obtain ⟨m, k⟩ := site
  simp only [at?, modifyInstruction, modifyChunk, List.getElem?_modify, Prod.mk.injEq]
  cases p.chunks[m]? with
  | none => simp
  | some c =>
    by_cases hm : position = m <;> by_cases hk : index = k <;> simp [hm, hk, eq_comm]

private theorem at?_addTarget (position : Nat) (index : UInt32) (site : Nat × Nat) :
    (p.modifyChunk position fun c => c.addTarget index).at? site = p.at? site := by
  simp only [at?, modifyChunk, List.getElem?_modify]
  cases p.chunks[site.1]? with
  | none => rfl
  | some c =>
    by_cases hm : position = site.1 <;> simp [hm, Chunk.addTarget]

private theorem targetsAt_modifyInstruction (position index : Nat) (f : Instruction → Instruction) (k : Nat) :
    (p.modifyInstruction position index f).targetsAt k = p.targetsAt k := by
  simp only [targetsAt, modifyInstruction, modifyChunk, List.getElem?_modify]
  cases p.chunks[k]? with
  | none => rfl
  | some c =>
    by_cases hk : position = k <;> simp [hk]

private theorem mem_targetsAt_addTarget {position k : Nat} {index x : UInt32} (hk : k < p.chunks.length) :
    x ∈ (p.modifyChunk position fun c => c.addTarget index).targetsAt k ↔
      position = k ∧ x = index ∨ x ∈ p.targetsAt k := by
  simp only [targetsAt, modifyChunk, List.getElem?_modify, List.getElem?_eq_getElem hk]
  by_cases hposition : position = k <;> simp [hposition, Chunk.addTarget]

private theorem outline_apply {position index : Nat} {r : Resolution}
    (h : ∀ i, p.at? (position, index) = some i → (r.applyTo i).outline = i.outline) :
    (p.apply position index r).outline = p.outline := by
  rw [apply, outline_recordTarget, outline_modifyInstruction h]

private theorem at?_apply (position index : Nat) (r : Resolution) (site : Nat × Nat) :
    (p.apply position index r).at? site =
      if site = (position, index) then (p.at? site).map r.applyTo else p.at? site := by
  rw [← at?_modifyInstruction]
  unfold apply recordTarget
  split
  · exact at?_addTarget _ _ site
  · exact at?_addTarget _ _ site
  · rfl

private theorem mem_targetsAt_apply {position index k : Nat} {r : Resolution} {x : UInt32}
    (hk : k < p.chunks.length) :
    x ∈ (p.apply position index r).targetsAt k ↔ r.GoesTo position k x ∨ x ∈ p.targetsAt k := by
  have hlength : k < (p.modifyInstruction position index r.applyTo).chunks.length := by
    simpa [modifyInstruction, modifyChunk] using hk
  have hadd : ∀ target j, x ∈ ((p.modifyInstruction position index r.applyTo).modifyChunk target
      fun c => c.addTarget j).targetsAt k ↔ target = k ∧ x = j ∨ x ∈ p.targetsAt k := by
    intro target j
    rw [mem_targetsAt_addTarget hlength, targetsAt_modifyInstruction]
  unfold apply
  cases r with
  | imported symbol => simp [recordTarget, Resolution.GoesTo, targetsAt_modifyInstruction]
  | dynamic mnemonic => simp [recordTarget, Resolution.GoesTo, targetsAt_modifyInstruction]
  | direct destination =>
    cases destination with
    | inside j => exact hadd position j
    | across chunk j => exact hadd chunk.toNat j

/-! ### All changes -/

/-- The resolution of the instruction at a site; there is nothing to resolve where there is none. -/
def resolutionAt (p : Program) (image : Image) (site : Nat × Nat) : Except ResolutionError (Option Resolution) :=
  match p.chunks[site.1]? with
  | none => .ok none
  | some c =>
    match c.instructions[site.2]? with
    | none => .ok none
    | some i => p.resolution? image c i

/-- One site is resolved before the rest; an error ends the attempt. -/
theorem resolveSites_cons (image : Image) (site : Nat × Nat) (rest : List (Nat × Nat)) (q : Program) :
    resolveSites image (site :: rest) q =
      match q.resolutionAt image site with
      | .error e => (q, some e)
      | .ok none => resolveSites image rest q
      | .ok (some r) => resolveSites image rest (q.apply site.1 site.2 r) := by
  rw [resolveSites, resolutionAt]
  cases q.chunks[site.1]? with
  | none => rfl
  | some c =>
    cases hi : c.instructions[site.2]? with
    | none => simp only [hi]
    | some i => rcases hr : q.resolution? image c i with e | _ | r <;> simp only [hi, hr]

/-- What the program `p` has become after the sites `done` were resolved: they hold what their instructions in `p` are
resolved to, judged in `p`, and the targets of these resolutions are recorded; all else is as it was. -/
structure Stage (p : Program) (image : Image) (done : List (Nat × Nat)) (q : Program) : Prop where
  outline : q.outline = p.outline
  resolved : ∀ site ∈ done, ∃ r, p.resolutionAt image site = .ok r ∧
    q.at? site = (p.at? site).map fun i => r.elim i (·.applyTo i)
  untouched : ∀ site, site ∉ done → q.at? site = p.at? site
  targets : ∀ k x, k < p.chunks.length → (x ∈ q.targetsAt k ↔ x ∈ p.targetsAt k ∨
    ∃ site ∈ done, ∃ r, p.resolutionAt image site = .ok (some r) ∧ r.GoesTo site.1 k x)

theorem stage_nil (p : Program) (image : Image) : p.Stage image [] p :=
  ⟨rfl, by simp, fun _ _ => rfl, by simp⟩

private theorem length_of_outline {q : Program} (h : q.outline = p.outline) : q.chunks.length = p.chunks.length := by
  simpa [outline] using congrArg (fun s => s.chunks.length) h

theorem chunk_outline {q : Program} {d : Chunk} {position : Nat} (h : q.outline = p.outline)
    (hc : p.chunks[position]? = some c) (hd : q.chunks[position]? = some d) : d.outline = c.outline := by
  have hposition := congrArg (fun s => s.chunks[position]?) h
  simpa [outline, hc, hd] using hposition

/-- An instruction that is still the same is resolved as it was at first. -/
theorem resolutionAt_congr {q : Program} {site : Nat × Nat} (houtline : q.outline = p.outline)
    (hsite : q.at? site = p.at? site) : q.resolutionAt image site = p.resolutionAt image site := by
  have hchunk : q.chunks[site.1]?.map Chunk.outline = p.chunks[site.1]?.map Chunk.outline := by
    rw [← List.getElem?_map, ← List.getElem?_map]
    exact congrArg (fun s => s.chunks[site.1]?) houtline
  unfold resolutionAt
  cases hc : p.chunks[site.1]? with
  | none =>
    rw [hc, Option.map_none, Option.map_eq_none_iff] at hchunk
    simp only [hchunk]
  | some c =>
    rw [hc, Option.map_some, Option.map_eq_some_iff] at hchunk
    obtain ⟨d, hd, hcd⟩ := hchunk
    rw [at?, at?, hc, hd, Option.bind_some, Option.bind_some] at hsite
    simp only [hd, hsite]
    cases c.instructions[site.2]? with
    | none => rfl
    | some i =>
      show q.resolution? image d i = p.resolution? image c i
      rw [← resolution?_outline, houtline, hcd, resolution?_outline]

/-- A jump of no bytes has a target, so it stays one, and no other instruction becomes one. -/
private theorem outline_applyTo (hp : p.WellBuilt image) (hc : c ∈ p.chunks) (hi : i ∈ c.instructions)
    {r : Resolution}
    (h : p.resolution? image c i = .ok (some r)) : (r.applyTo i).outline = i.outline := by
  have hplaced := (resolvedTo_of_resolution? hp hc h).placed
  simp only [Option.elim_some] at hplaced
  have hsame : (r.applyTo i).isFallThrough = i.isFallThrough := by
    rcases (hp.spliced hc).discovered_or_fallThrough hi with hreal | ⟨address, rfl⟩
    -- An instruction that was read has bytes, whatever its mnemonic becomes.
    · have hempty : i.isEmpty = false := isEmpty_of_discovered hreal
      have hempty : (r.applyTo i).isEmpty = false := hplaced ▸ hempty
      rw [isFallThrough_of_discovered hreal, Instruction.isFallThrough, hempty, Bool.and_false]
    · obtain ⟨x, hx, -⟩ := leads_of_resolution? hp hc (Instruction.relativeTarget?_fallThrough address) h
      cases hx
      rfl
  rw [Instruction.outline, hsame, hplaced]
  rfl

private theorem resolutionAt_eq_some {site : Nat × Nat} {r : Resolution}
    (h : p.resolutionAt image site = .ok (some r)) :
    ∃ c i, p.chunks[site.1]? = some c ∧ c.instructions[site.2]? = some i ∧
      p.resolution? image c i = .ok (some r) := by
  unfold resolutionAt at h
  split at h
  · cases h
  · rename_i c hc
    split at h
    · cases h
    · rename_i i hi
      exact ⟨c, i, hc, hi, h⟩

variable {done : List (Nat × Nat)} {q : Program} {site : Nat × Nat}

private theorem exists_mem_concat {P : Nat × Nat → Prop} :
    (∃ s ∈ done ++ [site], P s) ↔ (∃ s ∈ done, P s) ∨ P site := by
  simp [or_and_right, exists_or]

/-- A site that needs no change is done. -/
theorem stage_skip (h : p.Stage image done q) (hsite : site ∉ done) (hr : p.resolutionAt image site = .ok none) :
    p.Stage image (done ++ [site]) q where
  outline := h.outline
  resolved := by
    intro s hs
    rcases List.mem_append.1 hs with hs | hs
    · exact h.resolved s hs
    · obtain rfl := List.mem_singleton.1 hs
      exact ⟨none, hr, by rw [h.untouched s hsite]; simp⟩
  untouched := fun s hs => h.untouched s fun hdone => hs (List.mem_append_left _ hdone)
  targets := by
    intro k x hk
    have hnone : ¬ ∃ r, p.resolutionAt image site = .ok (some r) ∧ r.GoesTo site.1 k x := by
      simp [hr]
    rw [h.targets k x hk, exists_mem_concat, or_iff_left hnone]

/-- A site that was changed is done. -/
theorem stage_apply (hp : p.WellBuilt image) (h : p.Stage image done q) (hsite : site ∉ done) {r : Resolution}
    (hr : p.resolutionAt image site = .ok (some r)) : p.Stage image (done ++ [site]) (q.apply site.1 site.2 r) where
  outline := by
    obtain ⟨c, i, hc, hi, hresolution⟩ := resolutionAt_eq_some hr
    rw [outline_apply, h.outline]
    intro j hj
    have hij : p.at? site = some i := at?_of_getElem? hc hi
    rw [h.untouched site hsite, hij, Option.some.injEq] at hj
    subst hj
    exact outline_applyTo hp (List.mem_of_getElem? hc) (List.mem_of_getElem? hi) hresolution
  resolved := by
    intro s hs
    rw [at?_apply]
    rcases List.mem_append.1 hs with hs | hs
    · have hne : s ≠ (site.1, site.2) := by
        rintro rfl
        exact hsite hs
      rw [if_neg hne]
      exact h.resolved s hs
    · obtain rfl := List.mem_singleton.1 hs
      exact ⟨some r, hr, by rw [if_pos rfl, h.untouched s hsite]; rfl⟩
  untouched := by
    intro s hs
    rw [List.mem_append, not_or, List.mem_singleton] at hs
    rw [at?_apply, if_neg hs.2, h.untouched s hs.1]
  targets := by
    intro k x hk
    have hsome : (∃ r', p.resolutionAt image site = .ok (some r') ∧ r'.GoesTo site.1 k x) ↔ r.GoesTo site.1 k x := by
      simp [hr]
    rw [mem_targetsAt_apply (length_of_outline h.outline ▸ hk), h.targets k x hk, exists_mem_concat, hsome, or_comm,
      or_assoc]

/-- Every site of the list is resolved once, as it was at first. -/
theorem stage_of_resolveSites (hp : p.WellBuilt image) {sites : List (Nat × Nat)} {q' : Program}
    (hsites : (done ++ sites).Nodup) (h : p.Stage image done q) (hq : resolveSites image sites q = (q', none)) :
    p.Stage image (done ++ sites) q' := by
  induction sites generalizing done q with
  | nil =>
    cases hq
    rwa [List.append_nil]
  | cons site rest ih =>
    have hsite : site ∉ done := fun hdone => (List.nodup_append.1 hsites).2.2 site hdone site List.mem_cons_self rfl
    rw [List.append_cons] at hsites ⊢
    -- The site is new, so its instruction is still the first one and so is what it resolves to.
    rw [resolveSites_cons, resolutionAt_congr h.outline (h.untouched site hsite)] at hq
    cases hr : p.resolutionAt image site with
    | error e => simp [hr] at hq
    | ok r =>
      cases r with
      | none =>
        simp only [hr] at hq
        exact ih hsites (stage_skip h hsite hr) hq
      | some r =>
        simp only [hr] at hq
        exact ih hsites (stage_apply hp h hsite hr) hq

/-! ### Whole programs -/

/-- Every site is visited once. -/
theorem nodup_sites (p : Program) : p.sites.Nodup := by
  unfold sites
  rw [List.nodup_flatten]
  constructor
  · intro l hl
    obtain ⟨position, _, rfl⟩ := List.mem_mapIdx.1 hl
    exact List.nodup_range.map fun _ _ heq => (Prod.mk.inj heq).2
  · rw [List.pairwise_iff_getElem]
    intro a b ha hb hlt s hs hs'
    simp only [List.getElem_mapIdx, List.mem_map] at hs hs'
    obtain ⟨_, _, rfl⟩ := hs
    obtain ⟨_, _, heq⟩ := hs'
    have := (Prod.mk.inj heq).1
    omega

private theorem mem_sites {position index : Nat} (hc : p.chunks[position]? = some c)
    (hi : c.instructions[index]? = some i) : (position, index) ∈ p.sites := by
  obtain ⟨hposition, rfl⟩ := List.getElem?_eq_some_iff.1 hc
  obtain ⟨hindex, -⟩ := List.getElem?_eq_some_iff.1 hi
  refine List.mem_flatten.2 ⟨_, List.mem_mapIdx.2 ⟨position, hposition, rfl⟩, ?_⟩
  exact List.mem_map.2 ⟨index, List.mem_range.2 hindex, rfl⟩

/-- After all sites every instruction is what it resolves to. -/
theorem Stage.instruction (h : p.Stage image p.sites q) {d : Chunk} {position index : Nat}
    (hc : p.chunks[position]? = some c) (hd : q.chunks[position]? = some d) (hi : c.instructions[index]? = some i) :
    ∃ r, p.resolution? image c i = .ok r ∧ d.instructions[index]? = some (r.elim i (·.applyTo i)) := by
  obtain ⟨r, hr, hat⟩ := h.resolved (position, index) (mem_sites hc hi)
  simp only [resolutionAt, hc, hi] at hr
  simp only [at?, hc, hd, Option.bind_some, hi, Option.map_some] at hat
  exact ⟨r, hr, hat⟩

/-- The resolution of an instruction goes where the instruction leads. -/
private theorem goesTo_iff_leads (hp : p.WellBuilt image) {d : Chunk} {n position : Nat} {r : Resolution} {x : UInt32}
    (hd : p.chunks[n]? = some d) (hc : p.chunks[position]? = some c) (h : p.resolution? image d i = .ok (some r)) :
    r.GoesTo n position x ↔ ∃ target, i.relativeTarget? = some target ∧
      (d = c ∧ p.Leads d target (.inside x) ∨ p.Leads d target (.across c.id x)) := by
  have hmem := List.mem_of_getElem? hd
  have hdid := (hp.chunks n d hd).1
  have hcid := (hp.chunks position c hc).1
  constructor
  · intro hgoes
    rcases resolution?_cases h with ⟨-, hr⟩ | ⟨_, _, symbol, -, -, -, -, hr⟩ | ⟨target, htarget⟩ | ⟨-, -, -, hr⟩
    · cases hr
    · cases hr
      exact absurd hgoes id
    · obtain ⟨destination, hr, hleads⟩ := leads_of_resolution? hp hmem htarget h
      cases hr
      refine ⟨target, htarget, ?_⟩
      cases destination with
      | inside index =>
        obtain ⟨rfl, rfl⟩ := hgoes
        rw [hd, Option.some.injEq] at hc
        exact .inl ⟨hc, hleads⟩
      | across number index =>
        obtain ⟨hnumber, rfl⟩ := hgoes
        rw [UInt32.toNat_inj.1 (hcid.trans hnumber.symm)]
        exact .inr hleads
    · obtain ⟨m, -, rfl⟩ := Option.map_eq_some_iff.1 hr.symm
      exact absurd hgoes id
  · rintro ⟨target, htarget, hleads⟩
    obtain ⟨destination, hr, hfound⟩ := leads_of_resolution? hp hmem htarget h
    cases hr
    rcases hleads with ⟨rfl, hleads⟩ | hleads
    · rw [hfound.unique hp hleads]
      exact ⟨hdid.symm.trans hcid, rfl⟩
    · rw [hfound.unique hp hleads]
      exact ⟨hcid, rfl⟩

/-- After all sites the targets of a chunk are the instructions that branches lead to. -/
private theorem Stage.refers_iff (hp : p.WellBuilt image) (h : p.Stage image p.sites q) {d : Chunk} {position : Nat}
    (hc : p.chunks[position]? = some c) (hd : q.chunks[position]? = some d) (x : UInt32) :
    x ∈ d.targets.toList ↔ p.Refers c x := by
  have hposition : position < p.chunks.length := (List.getElem?_eq_some_iff.1 hc).1
  have hempty : p.targetsAt position = [] := by
    simp [targetsAt, hc, (hp.chunks position c hc).2.2.untargeted, IndexSet.empty]
  have htargets := h.targets position x hposition
  simp only [hempty, List.not_mem_nil, false_or] at htargets
  rw [targetsAt, hd, Option.map_some, Option.getD_some] at htargets
  rw [htargets]
  constructor
  · rintro ⟨⟨n, j⟩, -, r, hr, hgoes⟩
    obtain ⟨e, i, he, hi, hresolution⟩ := resolutionAt_eq_some hr
    exact ⟨e, List.mem_of_getElem? he, i, List.mem_of_getElem? hi, (goesTo_iff_leads hp he hc hresolution).1 hgoes⟩
  · rintro ⟨e, he, i, hi, target, htarget, hleads⟩
    obtain ⟨n, hn⟩ := List.getElem?_of_mem he
    obtain ⟨j, hj⟩ := List.getElem?_of_mem hi
    obtain ⟨r, hr, -⟩ := h.resolved (n, j) (mem_sites hn hj)
    have hresolution : p.resolution? image e i = .ok r := by
      simpa only [resolutionAt, hn, hj] using hr
    obtain ⟨destination, rfl, -⟩ := leads_of_resolution? hp he htarget hresolution
    exact ⟨(n, j), mem_sites hn hj, _, hr, (goesTo_iff_leads hp hn hc hresolution).2 ⟨target, htarget, hleads⟩⟩

/-- When all sites are done, all chunks are resolved. -/
theorem Stage.chunk (hp : p.WellBuilt image) (h : p.Stage image p.sites q) {d : Chunk} {position : Nat}
    (hc : p.chunks[position]? = some c) (hd : q.chunks[position]? = some d) : Chunk.ResolvedTo p image c d := by
  have houtline : d.outline = c.outline := chunk_outline h.outline hc hd
  have hlength : d.instructions.length = c.instructions.length := by
    simpa [Chunk.outline] using congrArg (fun e => e.instructions.length) houtline
  have hid := congrArg Chunk.id houtline
  have hname := congrArg Chunk.name houtline
  have hentry := congrArg Chunk.entry houtline
  have hranges := congrArg Chunk.ranges houtline
  refine ⟨hid, hname, hentry, hranges, List.forall₂_iff_get.2 ⟨hlength.symm, ?_⟩, h.refers_iff hp hc hd⟩
  intro index hi hj
  obtain ⟨r, hr, hresolved⟩ := h.instruction hc hd (List.getElem?_eq_getElem hi)
  rw [List.getElem?_eq_getElem hj, Option.some.injEq] at hresolved
  rw [List.get_eq_getElem, List.get_eq_getElem, hresolved]
  exact resolvedTo_of_resolution? hp (List.mem_of_getElem? hc) hr

/-- A well-built program whose resolution succeeds has every chunk resolved, judged as it was before. -/
theorem resolvedTo_of_resolve (hp : p.WellBuilt image) (h : p.resolve image = (q, none)) :
    q.pending = p.pending ∧ q.covered = p.covered ∧ q.resolved = true ∧
      List.Forall₂ (Chunk.ResolvedTo p image) p.chunks q.chunks := by
  rw [resolve, hp.unresolved] at h
  cases hsites : resolveSites image p.sites p with
  | mk q₀ error =>
    cases error with
    | some e => simp [hsites] at h
    | none =>
      simp only [hsites, Bool.false_eq_true, if_false, Prod.mk.injEq, and_true] at h
      subst h
      have hstage : p.Stage image p.sites q₀ :=
        stage_of_resolveSites hp (List.nil_append p.sites ▸ p.nodup_sites) (stage_nil p image) hsites
      have hpending := congrArg Program.pending hstage.outline
      have hcovered := congrArg Program.covered hstage.outline
      refine ⟨hpending, hcovered, rfl, List.forall₂_iff_get.2 ⟨(length_of_outline hstage.outline).symm, ?_⟩⟩
      intro position hc hd
      exact hstage.chunk hp (List.getElem?_eq_getElem hc) (List.getElem?_eq_getElem hd)

/-- A discovered program whose resolution succeeds has every branch resolved as the discovered program says, and the
targets of its chunks are the instructions that its branches lead to; all else is as discovered.  The indices that are
written into branches are exact if the limit on the size of chunks is a word. -/
theorem resolvedTo_of_discover {limits : Limits} {entries : List UInt32} (hp : discover image entries limits = .ok p)
    (hq : p.resolve image = (q, none)) :
    (q.pending = p.pending ∧ q.covered = p.covered ∧ q.resolved = true ∧
      List.Forall₂ (Chunk.ResolvedTo p image) p.chunks q.chunks) ∧
    (limits.maxChunkInstructions.toNat < UInt32.size →
      ∀ c ∈ p.chunks, ∀ index < c.instructions.length, (UInt32.ofNat index).toNat = index) :=
  ⟨resolvedTo_of_resolve (wellBuilt_of_discover hp) hq, fun hlimit _ hc _ => toNat_ofNat_of_discover hp hlimit hc⟩

/-- A function that calls another one and an imported one, branches back and jumps through a register; the function it
calls jumps into its middle. -/
def entangled : Image :=
  { Image.flat 0x1000 [0xe8, 0x0b, 0x00, 0x00, 0x00, 0x74, 0xf9, 0xff, 0x15, 0x14, 0x10, 0x00, 0x00, 0xff, 0xe0, 0x90,
      0xeb, 0xf3, 0x90, 0x90, 0x00, 0x50, 0x00, 0x00] with
    imports := ⟨[⟨"user32", [⟨0, some "Beep", 0x5000⟩]⟩]⟩ }

/-- The branches lead inside their chunks and across, and the targets of both are collected. -/
theorem resolvedTo_entangled : ∃ p q, discover entangled [0x1000] {} = .ok p ∧ p.resolve entangled = (q, none) ∧
    q.chunks.map (fun c => c.instructions.map fun i => (i.mnemonic, i.destination?)) =
      [[(.call, some (.across 1 0)), (.jumpIf .e, some (.inside 0)), (.importCall, none), (.dynamicJump, none)],
        [(.jump, some (.across 0 1))]] ∧
    q.chunks.map (fun c => c.targets.toList) = [[0, 1], [0]] ∧
    (q.pending = p.pending ∧ q.covered = p.covered ∧ q.resolved = true ∧
      List.Forall₂ (Chunk.ResolvedTo p entangled) p.chunks q.chunks) ∧
    ∀ c ∈ p.chunks, ∀ index < c.instructions.length, (UInt32.ofNat index).toNat = index := by
  obtain ⟨p, hp, herror, hinstructions, htargets⟩ : ∃ p, discover entangled [0x1000] {} = .ok p ∧
      (p.resolve entangled).2 = none ∧
      (p.resolve entangled).1.chunks.map (fun c => c.instructions.map fun i => (i.mnemonic, i.destination?)) =
        [[(.call, some (.across 1 0)), (.jumpIf .e, some (.inside 0)), (.importCall, none), (.dynamicJump, none)],
          [(.jump, some (.across 0 1))]] ∧
      (p.resolve entangled).1.chunks.map (fun c => c.targets.toList) = [[0, 1], [0]] :=
    exists_of_any_toOption (by decide +kernel)
  have hq : p.resolve entangled = ((p.resolve entangled).1, none) := Prod.ext rfl herror
  obtain ⟨hresolved, hexact⟩ := resolvedTo_of_discover hp hq
  exact ⟨p, _, hp, hq, hinstructions, htargets, hresolved, hexact (by decide)⟩

end Program

end Ia32Wasm
