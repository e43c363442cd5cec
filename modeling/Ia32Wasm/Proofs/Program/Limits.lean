import Ia32Wasm.Proofs.Program.Discovery

/-!
# The size of programs

Discovery counts the chunks of a program and the instructions of a chunk, and it adds a chunk or reads an instruction
only if there is room for it.  The jump of no bytes at the end of a run is not counted beforehand, so a chunk may have
one instruction more than its limit, and no more: the next run has to read an instruction first.

* `Chunk.Within` is the limit as a chunk keeps it: each run does (`within_addRun`), so all runs of a chunk do.
* Limits below the number of words keep the indices of instructions apart (`toNat_ofNat_of_discover`).
-/

namespace Ia32Wasm

open X86 (Instruction)

variable {image : Image} {limits : Limits} {program : Program} {chunk : Chunk}

/-- The chunk has no more instructions than its limit, or one more, which is a jump of no bytes at its end. -/
def Chunk.Within (limits : Limits) (c : Chunk) : Prop :=
  c.instructions.length ≤ limits.maxChunkInstructions.toNat ∨
    (c.instructions.length = limits.maxChunkInstructions.toNat + 1 ∧
      ∃ address, c.instructions.getLast? = some (.fallThrough address))

/-- The limit is exceeded by one jump of no bytes at most. -/
theorem Chunk.Within.length_le (h : chunk.Within limits) :
    chunk.instructions.length ≤ limits.maxChunkInstructions.toNat + 1 := by
  rcases h with hle | ⟨heq, -⟩ <;> omega

/-- A run that ends has counted its instructions, and if the last of them is beyond the limit it is a jump of no
bytes. -/
private theorem Run.held_of_finish {room : Nat} {r r' : Run} {jump : Option UInt32}
    (hcount : r.held = chunk.instructions.length + r.read.length)
    (hlimit : r.cursor ≠ r.start → r.held ≤ limits.maxChunkInstructions.toNat)
    (h : r.finish image limits program chunk room = .ok (r', jump)) :
    r'.held = chunk.instructions.length + r'.read.length ∧
      (r'.held ≤ limits.maxChunkInstructions.toNat ∨
        (r'.held = limits.maxChunkInstructions.toNat + 1 ∧
          ∃ address, r'.read.head? = some (.fallThrough address))) := by
  induction room generalizing r with
  | zero => cases h
  | succ room ih =>
    rw [finish] at h
    cases hstep : r.step image limits program chunk with
    | error e => simp [hstep] at h
    | ok progress =>
      rw [hstep] at h
      rcases step_eq_ok hstep with ⟨hmoved, -, rfl⟩ | ⟨-, hroom, d, hd, haddress, rfl⟩
      · cases h
        have hheld := hlimit hmoved
        refine ⟨by simp only [push, List.length_cons]; omega, ?_⟩
        rcases Nat.lt_or_eq_of_le hheld with hlt | heq
        · exact .inl hlt
        · exact .inr ⟨congrArg (· + 1) heq, r.cursor, rfl⟩
      -- The instruction was read, so there was room for it.
      have hadvances : ∀ i r₁, r.Advances image i r₁ →
          r₁.held = chunk.instructions.length + r₁.read.length ∧ r₁.held ≤ limits.maxChunkInstructions.toNat := by
        intro i r₁ hi
        rw [hi.held, hi.read, List.length_cons]
        omega
      rcases visit_cases hd haddress with ⟨i, r₁, _, hvisit, hi, -⟩ | ⟨i, r₁, hvisit, hi, -⟩
      · rw [hvisit] at h
        cases h
        exact ⟨(hadvances i r' hi).1, .inl (hadvances i r' hi).2⟩
      · rw [hvisit] at h
        exact ih (hadvances i r₁ hi).1 (fun _ => (hadvances i r₁ hi).2) h

/-- A chunk keeps its limit with each new run, however many instructions it had. -/
theorem Chunk.within_addRun {start : UInt32} {room : Nat} {r : Run} {jump : Option UInt32}
    (h : (Run.new program chunk start).finish image limits program chunk room = .ok (r, jump)) :
    (chunk.addRun r).Within limits := by
  obtain ⟨hcount, hlimit⟩ := Run.held_of_finish (by simp [Run.new]) (by simp [Run.new]) h
  have hlength : (chunk.addRun r).instructions.length = r.held := by
    rw [Chunk.addRun, List.length_append, List.length_reverse, hcount]
  rw [Chunk.Within, hlength]
  refine hlimit.imp_right (And.imp_right ?_)
  rintro ⟨address, hlast⟩
  exact ⟨address, by rw [Chunk.addRun, List.getLast?_append, List.getLast?_reverse, hlast, Option.some_or]⟩

namespace Program

private theorem within_of_addRuns {budget : Nat} {queue : List UInt32} {p p' : Program} {c c' : Chunk}
    (h : addRuns image limits budget queue p c = .ok (p', c')) (hc : c.Within limits) : c'.Within limits :=
  addRuns_induction (M := fun _ d => d.Within limits)
    (fun _ _ _ _ _ _ _ hfinish _ => Chunk.within_addRun hfinish) h hc

private theorem within_of_discover {entries : List UInt32} {p : Program} (h : discover image entries limits = .ok p) :
    p.chunks.length ≤ limits.maxChunks.toNat ∧ ∀ c ∈ p.chunks, c.Within limits := by
  refine discover_induction_within
    (M := fun p => p.chunks.length ≤ limits.maxChunks.toNat ∧ ∀ c ∈ p.chunks, c.Within limits)
    (by simp) (fun _ hp => hp) ?_ h
  rintro p p' entry rest c - hroom - hruns ⟨-, hp⟩
  have hchunks : p'.chunks = p.chunks := (addRuns_chunks hruns :)
  simp only [hchunks, List.length_append, List.length_singleton, List.forall_mem_append, List.forall_mem_singleton]
  exact ⟨hroom, hp, within_of_addRuns hruns (.inl (Nat.zero_le _))⟩

/-- With a limit below the number of words, the instructions of a discovered chunk can be told apart by words. -/
theorem toNat_ofNat_of_discover {entries : List UInt32} {p : Program} {c : Chunk} {index : Nat}
    (h : discover image entries limits = .ok p) (hlimit : limits.maxChunkInstructions.toNat < UInt32.size)
    (hc : c ∈ p.chunks) (hindex : index < c.instructions.length) : (UInt32.ofNat index).toNat = index :=
  UInt32.toNat_ofNat_of_lt'
    (Nat.lt_of_lt_of_le hindex (Nat.le_trans ((within_of_discover h).2 c hc).length_le (Nat.succ_le_of_lt hlimit)))

/-- A discovered program has no more chunks than its limit.  A chunk exceeds its limit by one instruction at most, and
exactly if a jump of no bytes was put behind as many instructions as the limit allows. -/
theorem bounded_of_discover {entries : List UInt32} {p : Program} (h : discover image entries limits = .ok p) :
    p.chunks.length ≤ limits.maxChunks.toNat ∧
      ∀ c ∈ p.chunks, c.instructions.length ≤ limits.maxChunkInstructions.toNat + 1 ∧
        (limits.maxChunkInstructions.toNat < c.instructions.length ↔
          ∃ front address, c.instructions = front ++ [.fallThrough address] ∧
            front.length = limits.maxChunkInstructions.toNat) := by
  obtain ⟨hcount, hwithin⟩ := within_of_discover h
  refine ⟨hcount, fun c hc => ⟨(hwithin c hc).length_le, fun hexceeds => ?_, ?_⟩⟩
  · rcases hwithin c hc with hle | ⟨hlength, address, hlast⟩
    · omega
    · obtain ⟨front, hfront⟩ := List.getLast?_eq_some_iff.1 hlast
      rw [hfront, List.length_append, List.length_singleton] at hlength
      exact ⟨front, address, hfront, Nat.succ.inj hlength⟩
  · rintro ⟨front, address, hfront, hlength⟩
    rw [hfront, List.length_append, List.length_singleton, hlength]
    exact Nat.lt_succ_self _

/-- Under a limit of six instructions a chunk can have a seventh, which is a jump of no bytes. -/
theorem bounded_rotated : ∃ p c, discover rotated [0x1003] ⟨1, 6⟩ = .ok p ∧ p.chunks = [c] ∧
    ∃ front address, c.instructions = front ++ [.fallThrough address] ∧ front.length = 6 := by
  obtain ⟨p, hp, hlengths⟩ : ∃ p, discover rotated [0x1003] ⟨1, 6⟩ = .ok p ∧
      p.chunks.map (·.instructions.length) = [7] :=
    exists_of_any_toOption (by decide +kernel)
  obtain ⟨c, hc, hlength⟩ := List.map_eq_singleton_iff.1 hlengths
  have hexceeds : 6 < c.instructions.length := by omega
  have hmem : c ∈ p.chunks := by simp [hc]
  exact ⟨p, c, hp, hc, ((bounded_of_discover hp).2 c hmem).2.1 hexceeds⟩

/-- A return behind a branch to the instruction in front of that branch. -/
def backward : Image := .flat 0x1000 [0x90, 0x74, 0xfd, 0xc3]

/-- The jump of no bytes behind the third instruction is not counted. -/
theorem exceeds_backward : ∃ p c, discover backward [0x1001] ⟨1, 3⟩ = .ok p ∧ c ∈ p.chunks ∧
    ¬ c.instructions.length ≤ 3 ∧ c.instructions.getLast? = some (.fallThrough 0x1001) := by
  obtain ⟨p, hp, c, hc, hshape⟩ : ∃ p, discover backward [0x1001] ⟨1, 3⟩ = .ok p ∧ ∃ c ∈ p.chunks,
      ¬ c.instructions.length ≤ 3 ∧ c.instructions.getLast? = some (.fallThrough 0x1001) :=
    exists_of_any_toOption (by decide +kernel)
  exact ⟨p, c, hp, hc, hshape⟩

end Program

end Ia32Wasm
