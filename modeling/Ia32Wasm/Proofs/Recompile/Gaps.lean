import Ia32Wasm.Proofs.Lowering.Support
import Ia32Wasm.Proofs.Recompile.Agreement

/-!
# Gaps

The instructions of a resolved program are those that were decoded, in the forms of their operations, and branches,
which all have targets that code can be made for.  So the assembly of a resolved program with valid bounds on memory
can meet no other obstacle than a gap, and the first one is what it reports.

* A resolved instruction is lowered unless it is a gap (`ResolvedTo.outcome`).
* `Program.firstGap?` is what assembly reports (`Options.assemble_of_resolve`).
-/

namespace Ia32Wasm

open X86 (Instruction Kind Mnemonic Operand)

/-- The first chunk with a gap, and the first gap of that chunk. -/
def Program.firstGap? (p : Program) : Option (Chunk × Instruction) :=
  p.chunks.findSome? fun c => (c.instructions.find? Instruction.isGap).map (c, ·)

/-! ### Resolved instructions -/

variable {image : Image} {p q : Program} {c c' : Chunk} {i i' : Instruction} {o : AssemblyOptions}

/-- A jump or a call has one operand that can be read, or a far pointer, whose offset can. -/
private theorem exists_target (hi : i.Formed) (hm : i.mnemonic = .jump ∨ i.mnemonic = .call) :
    ∃ target, i.farTarget?.elim i.operands (fun offset => [Instruction.indexOperand offset]) = [target] ∧
      target.IsValue := by
  obtain ⟨form, hform, hkinds⟩ := hi
  have hforms : form = [.value] ∨ form = [.constant, .constant] := by
    rcases hm with hm | hm
    · rw [hm] at hform
      exact List.mem_pair.1 hform
    · rw [hm] at hform
      exact List.mem_pair.1 hform
  rcases hforms with rfl | rfl
  · obtain ⟨target, hops, htarget⟩ := Kind.eq_one hkinds
    have hfar : i.farTarget? = none := by simp [Instruction.farTarget?, hops]
    exact ⟨target, by rw [hfar, hops]; rfl, htarget⟩
  · obtain ⟨_, _, hops, ⟨selector, size, rfl, -⟩, ⟨offset, size', rfl, -⟩⟩ := Kind.eq_two hkinds
    have hfar : i.farTarget? = some offset.toUInt64.toUInt32 := by
      simp [Instruction.farTarget?, hops, hm.symm, Operand.imm, Operand.constant?]
    rw [hfar]
    exact ⟨_, rfl, .inr ⟨_, .bits32, rfl, by simp⟩⟩

private theorem dynamic?_cases {m m' : Mnemonic} (h : m.dynamic? = some m') :
    m = .jump ∧ m' = .dynamicJump ∨ m = .call ∧ m' = .dynamicCall := by
  unfold Mnemonic.dynamic? at h
  split at h
  · cases h
    exact .inl ⟨rfl, rfl⟩
  · cases h
    exact .inr ⟨rfl, rfl⟩
  · cases h

/-- The branches of a resolved program all have a lowering. -/
private theorem ResolvedTo.outcome_of_isBranch (chunk : UInt32) (toLoop : Nat) (h : ResolvedTo p image c i i')
    (hi : i.Formed) (hjump : i.mnemonic.isConditionalJump = true → ∃ target, i.relativeTarget? = some target)
    (hbranch : i.mnemonic.isBranch = true) :
    (Lowering.instruction chunk toLoop i').outcome = .ok () ∧ i'.isGap = false := by
  cases htarget : i.relativeTarget? with
  | some target =>
    obtain ⟨destination, -, -, -, hdestination⟩ := h.direct target htarget
    have hne : ∀ m : Mnemonic, m.isBranch = false → i'.mnemonic ≠ m := by
      intro m hm heq
      have hbranch' := Instruction.isBranch_of_destination? hdestination
      rw [heq, hm] at hbranch'
      cases hbranch'
    exact ⟨Lowering.outcome_of_destination? chunk toLoop hdestination,
      Instruction.isGap_of_ne (hne .lea rfl) (hne .mov rfl)⟩
  | none =>
    cases hpointer : i.operands.head?.bind Operand.pointer? with
    | some pointer =>
      obtain ⟨_, _, -, ⟨_, library, entry, _, -, -, -, rfl⟩, hmnemonic, hops⟩ := h.imported hbranch pointer hpointer
      have hm : i'.mnemonic = .importCall ∨ i'.mnemonic = .importJump := by
        rw [hmnemonic]
        split
        · exact .inr rfl
        · exact .inl rfl
      refine ⟨Lowering.outcome_of_importCall chunk toLoop hm hops, ?_⟩
      rcases hm with hm | hm <;> simp [Instruction.isGap, hm]
    | none =>
      cases hdynamic : i.mnemonic.dynamic? with
      | some m =>
        obtain ⟨hmnemonic, hops⟩ := h.dynamic m hdynamic hpointer htarget
        have hm : (i.mnemonic = .jump ∨ i.mnemonic = .call) ∧ (m = .dynamicCall ∨ m = .dynamicJump) := by
          rcases dynamic?_cases hdynamic with ⟨hjump, hm⟩ | ⟨hcall, hm⟩
          · exact ⟨.inl hjump, .inr hm⟩
          · exact ⟨.inr hcall, .inl hm⟩
        obtain ⟨target, htargets, hvalue⟩ := exists_target hi hm.1
        rw [← hmnemonic] at hm
        refine ⟨Lowering.outcome_of_dynamic chunk toLoop hm.2 (hops.trans htargets) hvalue, ?_⟩
        rcases hm.2 with hm | hm <;> simp [Instruction.isGap, hm]
      | none =>
        obtain ⟨target, hsome⟩ := hjump (Mnemonic.isConditionalJump_of_isBranch hbranch hdynamic)
        rw [hsome] at htarget
        cases htarget

/-- A resolved instruction is lowered unless it is a gap, which only an instruction that was kept can be. -/
theorem ResolvedTo.outcome (chunk : UInt32) (toLoop : Nat) (h : ResolvedTo p image c i i') (hi : i.Formed)
    (hjump : i.mnemonic.isConditionalJump = true → ∃ target, i.relativeTarget? = some target) :
    (Lowering.instruction chunk toLoop i').outcome = if i'.isGap then .error .unsupported else .ok () := by
  by_cases hbranch : i.mnemonic.isBranch = true
  · obtain ⟨hok, hgap⟩ := h.outcome_of_isBranch chunk toLoop hi hjump hbranch
    rw [hgap]
    exact hok
  · have hother : i.mnemonic.isBranch = false := by simpa using hbranch
    rw [h.kept hother]
    exact Lowering.outcome_of_formed chunk toLoop hi hother

/-! ### Chunks -/

/-- A chunk whose instructions are lowered unless they are gaps is assembled unless it has a gap, and the first one is
reported. -/
private theorem Chunk.assemble_of_outcome (hmemory : o.validMemory = true)
    (h : ∀ i ∈ c.instructions, ∀ index,
      (c.lowering index i).outcome = if i.isGap then .error .unsupported else .ok ()) :
    (∀ i, c.instructions.find? Instruction.isGap = some i →
      c.assemble o = .error (.unsupportedInstruction i.mnemonic i.address)) ∧
    (c.instructions.find? Instruction.isGap = none → ∃ a, c.assemble o = .ok a) := by
  have hlowered : ∀ k j, c.instructions[k]? = some j → j.isGap = false → (c.lowering k j).outcome = .ok () := by
    intro k j hj hgap
    rw [h j (List.mem_of_getElem? hj) k, hgap]
    rfl
  refine ⟨fun i hi => ?_, fun hnone => ?_⟩
  · obtain ⟨hgap, index, hlt, hget, hbefore⟩ := List.find?_eq_some_iff_getElem.1 hi
    have hi : c.instructions[index]? = some i := List.getElem?_eq_some_iff.2 ⟨hlt, hget⟩
    have hobstacle : (c.lowering index i).outcome = .error .unsupported := by
      rw [h i (List.mem_of_getElem? hi) index, hgap]
      rfl
    refine assemble_of_obstacle hmemory hi hobstacle fun k j hk hj => hlowered k j hj ?_
    obtain ⟨-, rfl⟩ := List.getElem?_eq_some_iff.1 hj
    simpa using hbefore k hk
  · refine ⟨_, assemble_of_lowered hmemory fun k j hj => hlowered k j hj ?_⟩
    simpa using List.find?_eq_none.1 hnone j (List.mem_of_getElem? hj)

/-! ### Programs -/

/-- A resolved instruction has a lowering unless it is a gap. -/
theorem Chunk.ResolvedTo.outcome (hp : p.WellBuilt image) (hc : c ∈ p.chunks) (h : c.ResolvedTo p image c') :
    ∀ i' ∈ c'.instructions, ∀ index,
      (c'.lowering index i').outcome = if i'.isGap then .error .unsupported else .ok () := by
  intro i' hi' index
  obtain ⟨k, hk⟩ := List.getElem?_of_mem hi'
  obtain ⟨i, hi, hresolved⟩ := getElem?_of_forall₂ h.instructions hk
  rcases (hp.spliced hc).discovered_or_fallThrough (List.mem_of_getElem? hi) with hread | ⟨address, rfl⟩
  · exact hresolved.outcome _ _ (formed_of_discovered hread) (relativeTarget?_of_discovered hread)
  · exact hresolved.outcome _ _ (formed_fallThrough address)
      fun _ => ⟨address, Instruction.relativeTarget?_fallThrough address⟩

namespace Program

private theorem exists_of_firstGap? {gap : Chunk × Instruction} (h : p.firstGap? = some gap) :
    ∃ c ∈ p.chunks, ∃ i ∈ c.instructions, i.isGap = true := by
  obtain ⟨c, hc, hgap⟩ := List.exists_of_findSome?_eq_some h
  obtain ⟨i, hi, -⟩ := Option.map_eq_some_iff.1 hgap
  exact ⟨c, hc, i, List.mem_of_find?_eq_some hi, List.find?_some hi⟩

private theorem firstGap?_eq_none_iff :
    p.firstGap? = none ↔ ∀ c ∈ p.chunks, ∀ i ∈ c.instructions, i.isGap = false := by
  simp [firstGap?, List.findSome?_eq_none_iff]

end Program

namespace Options

variable {o : Options}

/-- The assembly of a resolved program reports its first gap. -/
private theorem assemble_of_firstGap? (hmemory : o.assembly.validMemory = true) (h : o.resolve image = .ok q) :
    (∀ gap, q.firstGap? = some gap →
      o.assemble q = .error (.assembly gap.1.name (.unsupportedInstruction gap.2.mnemonic gap.2.address))) ∧
    (q.firstGap? = none → ∃ modules, o.assemble q = .ok modules) := by
  obtain ⟨p, hdiscover, hresolve⟩ := resolve_eq_ok h
  have hp : p.WellBuilt image := Program.wellBuilt_of_discover (ok_of_mapError hdiscover)
  obtain ⟨-, -, hresolved, hchunks⟩ := Program.resolvedTo_of_resolve hp hresolve
  have houtcome : ∀ c ∈ q.chunks, ∀ i ∈ c.instructions, ∀ index,
      (c.lowering index i).outcome = if i.isGap then .error .unsupported else .ok () := by
    intro c' hc'
    obtain ⟨k, hk⟩ := List.getElem?_of_mem hc'
    obtain ⟨c, hc, hchunk⟩ := getElem?_of_forall₂ hchunks hk
    exact hchunk.outcome hp (List.mem_of_getElem? hc)
  unfold assemble Program.firstGap?
  rw [if_pos hresolved]
  refine mapM_of_findSome? (fun c hc gap hgap => ?_) fun c hc hgap => ?_
  · obtain ⟨i, hi, rfl⟩ := Option.map_eq_some_iff.1 hgap
    rw [(Chunk.assemble_of_outcome hmemory (houtcome c hc)).1 i hi]
    rfl
  · obtain ⟨a, ha⟩ := (Chunk.assemble_of_outcome hmemory (houtcome c hc)).2 (Option.map_eq_none_iff.1 hgap)
    rw [ha]
    exact ⟨a, rfl⟩

/-- The assembly of a resolved program with valid bounds on memory fails only on gaps: never because of a branch that
is not resolved, and because of an instruction without a lowering exactly if there is a gap.  Then it names the first
chunk with a gap and the first gap of that chunk, and otherwise there is one module for each chunk. -/
theorem assemble_of_resolve (hmemory : o.assembly.validMemory = true) (h : o.resolve image = .ok q) :
    o.assemble q ≠ .error (.program .unresolvedProgram) ∧
    (∀ name, o.assemble q ≠ .error (.assembly name .unresolvedProgram)) ∧
    ((∃ name mnemonic address, o.assemble q = .error (.assembly name (.unsupportedInstruction mnemonic address))) ↔
      ∃ c ∈ q.chunks, ∃ i ∈ c.instructions, i.isGap = true) ∧
    (∀ c i, q.firstGap? = some (c, i) →
      o.assemble q = .error (.assembly c.name (.unsupportedInstruction i.mnemonic i.address))) ∧
    ((∀ c ∈ q.chunks, ∀ i ∈ c.instructions, i.isGap = false) → ∃ modules, o.assemble q = .ok modules ∧
      List.Forall₂ (fun c a => c.assemble o.assembly = .ok a) q.chunks modules) := by
  obtain ⟨hfails, hpasses⟩ := assemble_of_firstGap? hmemory h
  cases hfirst : q.firstGap? with
  | some gap =>
    have hgap : ∃ c ∈ q.chunks, ∃ i ∈ c.instructions, i.isGap = true := Program.exists_of_firstGap? hfirst
    have herror := hfails gap hfirst
    refine ⟨by simp [herror], by simp [herror], ⟨fun _ => hgap, fun _ => ⟨_, _, _, herror⟩⟩, ?_, fun hnone => ?_⟩
    · rintro c i ⟨⟩
      exact herror
    · obtain ⟨c, hc, i, hi, htrue⟩ := hgap
      rw [hnone c hc i hi] at htrue
      cases htrue
  | none =>
    have hnone := Program.firstGap?_eq_none_iff.1 hfirst
    obtain ⟨modules, hok⟩ := hpasses hfirst
    refine ⟨by simp [hok], by simp [hok], ⟨?_, ?_⟩, by simp, fun _ => ⟨modules, hok, forall₂_of_assemble hok⟩⟩
    · rintro ⟨name, mnemonic, address, herror⟩
      rw [hok] at herror
      cases herror
    · rintro ⟨c, hc, i, hi, htrue⟩
      rw [hnone c hc i hi] at htrue
      cases htrue

/-- A function without a gap that calls one with two: a move to a segment register that there is not, and the address
of a register. -/
def gapped : Image :=
  .flat 0x1000 [0xe8, 0x01, 0x00, 0x00, 0x00, 0xc3, 0x90, 0x8e, 0xf0, 0x8d, 0xc0, 0xc3]

/-- The first of the two gaps is reported, although a chunk before has none. -/
theorem assemble_gapped : ({} : Options).assembly.validMemory = true ∧ ∃ q, resolve {} gapped = .ok q ∧
    q.chunks.map (fun c => c.instructions.map fun i => (i.mnemonic, i.isGap)) =
      [[(.call, false), (.ret, false)], [(.nop, false), (.mov, true), (.lea, true), (.ret, false)]] ∧
    assemble {} q = .error (.assembly (Chunk.nameOf 0x1006) (.unsupportedInstruction .mov 0x1007)) := by
  have hmemory : ({} : Options).assembly.validMemory = true := by decide
  obtain ⟨q, hq, hgaps, hfirst⟩ : ∃ q, resolve {} gapped = .ok q ∧
      q.chunks.map (fun c => c.instructions.map fun i => (i.mnemonic, i.isGap)) =
        [[(.call, false), (.ret, false)], [(.nop, false), (.mov, true), (.lea, true), (.ret, false)]] ∧
      q.firstGap?.map (fun gap => (gap.1.name, gap.2.mnemonic, gap.2.address)) =
        some (Chunk.nameOf 0x1006, .mov, 0x1007) :=
    exists_of_any_toOption (by decide +kernel)
  obtain ⟨⟨c, i⟩, hgap, hnames⟩ := Option.map_eq_some_iff.1 hfirst
  simp only [Prod.mk.injEq] at hnames
  obtain ⟨hname, hmnemonic, haddress⟩ := hnames
  have herror := (assemble_of_resolve hmemory hq).2.2.2.1 c i hgap
  rw [hname, hmnemonic, haddress] at herror
  exact ⟨hmemory, q, hq, hgaps, herror⟩

end Options

end Ia32Wasm
