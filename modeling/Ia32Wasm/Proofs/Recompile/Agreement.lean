import Ia32Wasm.Proofs.Assembly.Entry
import Ia32Wasm.Proofs.Assembly.Transfers
import Ia32Wasm.Proofs.Program.Resolution
import Ia32Wasm.Recompile

/-!
# Agreement between modules

The modules of a recompiled image are assembled one by one, and they agree on how to transfer control: a linked call
in one of them comes to the instruction at the target of the branch that it was emitted for.

* A resolved chunk can be dispatched to: its targets are its own instructions and include those of its jumps
  (`Chunk.ResolvedTo.dispatchable`).
* An instruction that calls a chunk puts into `link` a target of that chunk, at the address that the branch leads to
  (`Chunk.ResolvedTo.refers_of_callsChunk`).
-/

namespace Ia32Wasm

open Machine (Slot)
open Wasm (Config Host Instr Store)
open X86 (Destination Instruction Operand)

/-- A call of the chunk `other` with `word` in `link` comes to the instruction at the address `target`.  The chunk
`d` and its module `b` have the number `other`; the dispatch loop of `b` compares `link` with the word and enters the
block that ends right before the code of the instruction `word`, which is the one at the target.  Indices are kept as
words, so this last is exact for chunks that are limited to fewer than `UInt32.size` instructions. -/
structure Recompiled.Lands (r : Recompiled) (o : Options) (other word target : UInt32) (d : Chunk) (b : Assembled) :
    Prop where
  inside : other.toNat < r.modules.length
  chunk : r.program.chunks[other.toNat]? = some d
  assembled : r.modules[other.toNat]? = some b
  enters : ∃ j, d.instructions[word.toNat]? = some j ∧ Enters b.wasm.body word
    (link b.imports (d.ownCode o.assembly word.toNat j ++ d.arrival o.assembly (word.toNat + 1)))
  begins : ∀ {ω : Type} (host : Host Nat ω) (store : Store ω), store.globals Slot.link.index = word →
    ∃ labels, Config.Reaches host (.start b.wasm.body store)
      ⟨link b.imports (d.codeFrom o.assembly word.toNat), labels, .start store⟩
  target : ∃ index j, d.instructions[index]? = some j ∧ j.address = target ∧ word = UInt32.ofNat index ∧
    (o.limits.maxChunkInstructions.toNat < UInt32.size → word.toNat = index)

/-- The modules of a recompiled image agree with each other and with the program `p` as it was discovered: there is
one module for each chunk, in the order of their numbers; every linked call in a module belongs to a branch, is a
call of one chunk and lands at the target of the branch; and every instruction that calls a chunk has a linked
call. -/
structure Recompiled.Agrees (r : Recompiled) (o : Options) (p : Program) : Prop where
  modules : List.Forall₂ (fun c a => c.assemble o.assembly = .ok a) r.program.chunks r.modules
  numbers : ∀ (n : Nat) (c : Chunk), r.program.chunks[n]? = some c → c.id.toNat = n
  lands : ∀ n c a, r.program.chunks[n]? = some c → r.modules[n]? = some a →
    ∀ before word f after, a.wasm.body = before ++ linkedCall word f ++ after →
      ∃ k other i target d b, c.CallsAt o.assembly a k other word before f after ∧
        (∀ number, a.wasm.function? f = some (chunkEntry number) → number = other) ∧
        p.at? (n, k) = some i ∧ i.relativeTarget? = some target ∧ r.Lands o other word target d b
  calls : ∀ (n : Nat) c a, r.program.chunks[n]? = some c → r.modules[n]? = some a →
    ∀ (k : Nat) i other word, c.instructions[k]? = some i → i.CallsChunk c.id other word →
      ∃ before f after, c.CallsAt o.assembly a k other word before f after

/-! ### Resolved chunks -/

variable {image : Image} {p : Program} {c c' : Chunk} {i i' : Instruction}

/-- The destination of a resolved branch is where the branch led. -/
private theorem leads_of_destination? (hc : c.Spliced image) (hi : i ∈ c.instructions) (h : ResolvedTo p image c i i')
    {destination : Destination} (hd : i'.destination? = some destination) :
    ∃ target, i.relativeTarget? = some target ∧ p.Leads c target destination := by
  rcases cases_of_resolvedTo hc hi h with ⟨target, destination', htarget, hleads, -, hd'⟩ | ⟨hbranch, -⟩
  · rw [hd, Option.some.injEq] at hd'
    exact ⟨target, htarget, hd' ▸ hleads⟩
  · rw [Instruction.isBranch_of_destination? hd] at hbranch
    cases hbranch

/-- The operands of a resolved instruction name registers that there are. -/
private theorem numbered_of_resolvedTo (hc : c.Spliced image) (hi : i ∈ c.instructions)
    (h : ResolvedTo p image c i i') :
    ∀ op ∈ i'.operands, op.Numbered := by
  have hread : ∀ op ∈ i.operands, op.Numbered := by
    rcases hc.discovered_or_fallThrough hi with hread | ⟨address, rfl⟩
    · exact numbered_of_discovered hread
    · exact List.forall_mem_singleton.2 trivial
  rcases cases_of_resolvedTo hc hi h with ⟨_, destination, -, -, hops, -⟩ | ⟨-, hops⟩
  · rw [hops]
    cases destination <;> simp [Instruction.destinationOperands, Instruction.indexOperand]
  · exact fun op hop => (hops op hop).elim (hread op) id

/-- Registers that there are have numbers below that of `link`. -/
private theorem not_operandsNameLink_of_numbered (h : ∀ op ∈ i.operands, op.Numbered) :
    ¬ Lowering.OperandsNameLink i := by
  rintro ⟨op, hop, hnames⟩
  have hlt := h op hop
  cases op with
  | register index size direct displacement =>
    have hnames : index.toNat = 15 := hnames
    have hlt : index.toNat < 8 := hlt
    omega
  | _ => exact hnames

/-- What a branch refers to is an instruction of the chunk. -/
private theorem Program.Refers.lt_length (hp : p.WellBuilt image) (hc : c ∈ p.chunks) {word : UInt32}
    (h : p.Refers c word) :
    word.toNat < c.instructions.length := by
  have hlt : ∀ target index, c.StartsAt target index → (UInt32.ofNat index).toNat < c.instructions.length := by
    rintro target index ⟨i, hi, -⟩
    exact Nat.lt_of_le_of_lt (Nat.mod_le _ _) (List.getElem?_eq_some_iff.1 hi).1
  obtain ⟨d, hd, i, -, target, -, ⟨rfl, hleads⟩ | hleads⟩ := h
  · cases hleads with
    | inside hindex => exact hlt _ _ hindex.1
  · generalize hid : c.id = id at hleads
    cases hleads with
    | across _ hfirst hindex =>
      obtain rfl := hp.eq_of_id hc hfirst.1 hid
      exact hlt _ _ hindex.1

private theorem destination?_of_goto {target : UInt32} (h : i.control = .goto target) :
    i.destination? = some (.inside target) := by
  unfold Instruction.control at h
  split at h
  case h_1 | h_2 | h_3 =>
    split at h
    · rename_i hd
      cases h
      exact hd
    · cases h
  all_goals cases h

namespace Chunk.ResolvedTo

section

variable (hp : p.WellBuilt image) (hc : c ∈ p.chunks) (h : c.ResolvedTo p image c')
include hp hc h

theorem numbered : ∀ i' ∈ c'.instructions, ∀ op ∈ i'.operands, op.Numbered := by
  intro i' hi'
  obtain ⟨k, hk⟩ := List.getElem?_of_mem hi'
  obtain ⟨i, hi, hresolved⟩ := getElem?_of_forall₂ h.instructions hk
  exact numbered_of_resolvedTo (hp.spliced hc) (List.mem_of_getElem? hi) hresolved

private theorem not_operandsNameLink : ∀ i' ∈ c'.instructions, ¬ Lowering.OperandsNameLink i' :=
  fun i' hi' => not_operandsNameLink_of_numbered (h.numbered hp hc i' hi')

/-- The targets of a resolved chunk are instructions of the chunk and include those of its jumps. -/
theorem dispatchable {o : AssemblyOptions} {a : Assembled} (ha : c'.assemble o = .ok a) : c'.Dispatchable := by
  refine dispatchable_of_assemble ha (fun word hword => ?_) fun i' hi' target hgoto => ?_
  · have hlt := ((h.targets word).1 hword).lt_length hp hc
    rwa [h.instructions.length_eq] at hlt
  · obtain ⟨k, hk⟩ := List.getElem?_of_mem hi'
    obtain ⟨i, hi, hresolved⟩ := getElem?_of_forall₂ h.instructions hk
    have hi := List.mem_of_getElem? hi
    obtain ⟨address, haddress, hleads⟩ :=
      leads_of_destination? (hp.spliced hc) hi hresolved (destination?_of_goto hgoto)
    exact (h.targets target).2 ⟨c, hc, i, hi, address, haddress, .inl ⟨rfl, hleads⟩⟩

/-- An instruction that calls a chunk was a branch to one of the instructions of that chunk, and it refers to it. -/
theorem refers_of_callsChunk {k : Nat} (hk : c'.instructions[k]? = some i') {other word : UInt32}
    (hcalls : i'.CallsChunk c'.id other word) :
    ∃ i target owner index, c.instructions[k]? = some i ∧ i.relativeTarget? = some target ∧ owner ∈ p.chunks ∧
      owner.id = other ∧ p.Refers owner word ∧ owner.StartsAt target index ∧ word = UInt32.ofNat index := by
  obtain ⟨i, hi, hresolved⟩ := getElem?_of_forall₂ h.instructions hk
  have hmem := List.mem_of_getElem? hi
  rcases hcalls with hd | ⟨-, rfl, hd⟩
  · obtain ⟨target, htarget, hleads⟩ := leads_of_destination? (hp.spliced hc) hmem hresolved hd
    have hrefers : ∀ owner : Chunk, owner.id = other → p.Refers owner word := by
      rintro owner rfl
      exact ⟨c, hc, i, hmem, target, htarget, .inr hleads⟩
    cases hleads with
    | @across owner index _ hfirst hindex =>
      exact ⟨i, target, owner, index, hi, htarget, hfirst.1, rfl, hrefers owner rfl, hindex.1, rfl⟩
  · obtain ⟨target, htarget, hleads⟩ := leads_of_destination? (hp.spliced hc) hmem hresolved hd
    have hrefers : p.Refers c word := ⟨c, hc, i, hmem, target, htarget, .inl ⟨rfl, hleads⟩⟩
    cases hleads with
    | @inside index hindex => exact ⟨i, target, c, index, hi, htarget, hc, h.id.symm, hrefers, hindex.1, rfl⟩

end

end Chunk.ResolvedTo

/-! ### Stages -/

namespace Options

variable {o : Options} {r : Recompiled}

/-- A resolved program was discovered and resolved without an error. -/
theorem resolve_eq_ok {q : Program} (h : o.resolve image = .ok q) :
    ∃ p, o.discover image = .ok p ∧ p.resolve image = (q, none) := by
  obtain ⟨p, hp, hq⟩ := ok_of_bind h
  refine ⟨p, hp, ?_⟩
  split at hq
  · rename_i hresolved
    cases hq
    exact hresolved
  · cases hq

/-- There is one module for each chunk, in order. -/
theorem forall₂_of_assemble {q : Program} {modules : List Assembled} (h : o.assemble q = .ok modules) :
    List.Forall₂ (fun c a => c.assemble o.assembly = .ok a) q.chunks modules := by
  unfold assemble at h
  split at h
  · exact (forall₂_of_mapM h).imp fun _ _ => ok_of_mapError
  · cases h

/-- A recompiled image has gone through discovery, resolution and the assembly of each chunk. -/
theorem recompile_eq_ok (h : o.recompile image = .ok r) :
    ∃ p, o.discover image = .ok p ∧ p.resolve image = (r.program, none) ∧
      List.Forall₂ (fun c a => c.assemble o.assembly = .ok a) r.program.chunks r.modules := by
  obtain ⟨q, hresolve, h⟩ := ok_of_bind h
  obtain ⟨modules, hassemble, h⟩ := ok_of_bind h
  cases h
  obtain ⟨p, hp, hq⟩ := resolve_eq_ok hresolve
  exact ⟨p, hp, hq, forall₂_of_assemble hassemble⟩

private theorem lands_of_refers {owner : Chunk} {other word target : UInt32} {index : Nat} (hp : p.WellBuilt image)
    (hresolved : List.Forall₂ (Chunk.ResolvedTo p image) p.chunks r.program.chunks)
    (hmodules : List.Forall₂ (fun c a => c.assemble o.assembly = .ok a) r.program.chunks r.modules)
    (hexact : o.limits.maxChunkInstructions.toNat < UInt32.size → (UInt32.ofNat index).toNat = index)
    (howner : owner ∈ p.chunks) (hid : owner.id = other) (hrefers : p.Refers owner word)
    (hstarts : owner.StartsAt target index)
    (hword : word = UInt32.ofNat index) : ∃ d b, r.Lands o other word target d b := by
  subst hid
  obtain ⟨d, hd, hchunk⟩ := getElem?_of_forall₂ hresolved.flip (hp.getElem?_id howner)
  obtain ⟨b, hb, hassemble⟩ := getElem?_of_forall₂ hmodules.flip hd
  obtain ⟨i, hi, haddress, -⟩ := hstarts
  obtain ⟨j, hj, hinstruction⟩ := getElem?_of_forall₂ hchunk.instructions.flip hi
  have hlt : word.toNat < d.instructions.length := hchunk.instructions.length_eq ▸ hrefers.lt_length hp howner
  -- A branch refers to the word, so resolution has made it a target, and the body of the chunk enters there.
  have henters : Enters b.wasm.body word (link b.imports (d.codeFrom o.assembly word.toNat)) := by
    rw [Chunk.body_of_assemble hassemble]
    exact (Chunk.enters_body o.assembly (hchunk.dispatchable hp howner hassemble)
      ((hchunk.targets word).2 hrefers)).mapCallee _
  refine ⟨d, b, (List.getElem?_eq_some_iff.1 hb).1, hd, hb, ⟨_, List.getElem?_eq_getElem hlt, ?_⟩,
    fun host store hlink => henters.reaches host hlink, index, j, hj, ?_, hword, hword ▸ hexact⟩
  · rw [← Chunk.codeFrom_of_getElem? (List.getElem?_eq_getElem hlt)]
    exact henters
  · rw [hinstruction.placed]
    exact haddress

/-- The modules of a recompiled image agree. -/
theorem agrees_of_recompile (h : o.recompile image = .ok r) : ∃ p, o.discover image = .ok p ∧ r.Agrees o p := by
  obtain ⟨p, hdiscover, hresolve, hmodules⟩ := recompile_eq_ok h
  have hfound := ok_of_mapError hdiscover
  have hp : p.WellBuilt image := Program.wellBuilt_of_discover hfound
  obtain ⟨-, -, -, hresolved⟩ := Program.resolvedTo_of_resolve hp hresolve
  have hassembled : ∀ (n : Nat) (c : Chunk) (a : Assembled), r.program.chunks[n]? = some c → r.modules[n]? = some a →
      c.assemble o.assembly = .ok a := by
    intro n c a hc ha
    obtain ⟨c', hc', hassemble⟩ := getElem?_of_forall₂ hmodules ha
    rw [hc, Option.some.injEq] at hc'
    exact hc' ▸ hassemble
  refine ⟨p, hdiscover, hmodules, ?_, ?_, ?_⟩
  · intro n c hc
    obtain ⟨c₀, hc₀, hchunk⟩ := getElem?_of_forall₂ hresolved hc
    rw [hchunk.id]
    exact (hp.chunks n c₀ hc₀).1
  · intro n c a hc ha before word f after hbody
    -- The call stands in the code of an instruction, which was a branch of the discovered chunk at the same place.
    obtain ⟨c₀, hc₀, hchunk⟩ := getElem?_of_forall₂ hresolved hc
    have hmem := List.mem_of_getElem? hc₀
    obtain ⟨k, other, hcall⟩ :=
      Chunk.callsAt_of_body (hassembled n c a hc ha) (hchunk.not_operandsNameLink hp hmem) hbody
    obtain ⟨i', _, _, hk, hcalls, -⟩ := hcall.within
    obtain ⟨i, target, owner, index, hi, htarget, howner, hid, hrefers, hstarts, hword⟩ :=
      hchunk.refers_of_callsChunk hp hmem hk hcalls
    have hindex : index < owner.instructions.length := by
      obtain ⟨_, hget, -⟩ := hstarts
      exact (List.getElem?_eq_some_iff.1 hget).1
    obtain ⟨d, b, hlands⟩ := lands_of_refers hp hresolved hmodules
      (fun hlimit => Program.toNat_ofNat_of_discover hfound hlimit howner hindex) howner hid hrefers hstarts hword
    refine ⟨k, other, i, target, d, b, hcall, fun number hnumber => ?_, ?_, htarget, hlands⟩
    · rw [hcall.callee, Option.some.injEq] at hnumber
      exact (chunkEntry_injective hnumber).symm
    · rw [Program.at?, hc₀, Option.bind_some, hi]
  · intro n c a hc ha k i other word hk hcalls
    exact Chunk.exists_callsAt (hassembled n c a hc ha) hk hcalls

/-- Two chunks that transfer control to each other: the first calls its second instruction, which jumps to the other
chunk; that one branches back to the start of the first and calls its second instruction. -/
def braided : Image :=
  .flat 0x1000 [0xe8, 0x00, 0x00, 0x00, 0x00, 0xeb, 0x01, 0x90, 0x74, 0xf6, 0xe8, 0xf6, 0xff, 0xff, 0xff, 0xc3]

/-- The first module imports itself and the other one, the second only the first. -/
theorem agrees_braided : ∃ r p, recompile {} braided = .ok r ∧ discover {} braided = .ok p ∧
    r.program.chunks.map (fun c => c.instructions.map fun i => (i.mnemonic, i.destination?)) =
      [[(.call, some (.inside 1)), (.jump, some (.across 1 0))],
        [(.jumpIf .e, some (.across 0 0)), (.call, some (.across 0 1)), (.ret, none)]] ∧
    r.modules.map (fun a => a.imports.map FunctionImport.library) = [["chunk0", "chunk1"], ["chunk0"]] ∧
    r.Agrees {} p := by
  obtain ⟨r, hr, hinstructions, himports⟩ : ∃ r, recompile {} braided = .ok r ∧
      r.program.chunks.map (fun c => c.instructions.map fun i => (i.mnemonic, i.destination?)) =
        [[(.call, some (.inside 1)), (.jump, some (.across 1 0))],
          [(.jumpIf .e, some (.across 0 0)), (.call, some (.across 0 1)), (.ret, none)]] ∧
      r.modules.map (fun a => a.imports.map FunctionImport.library) = [["chunk0", "chunk1"], ["chunk0"]] :=
    exists_of_any_toOption (by decide +kernel)
  obtain ⟨p, hp, hagrees⟩ := agrees_of_recompile hr
  exact ⟨r, p, hr, hp, hinstructions, himports, hagrees⟩

end Options

end Ia32Wasm
