import Ia32Wasm.Proofs.Program.Locality

/-!
# Wider limits

Limits decide when discovery gives up and nothing else.  One turn of the search is the same under wider limits, or it
gives up under the narrow ones (`Search.gaveUp_or_step_eq`).  So a search that comes to its end without giving up
comes to the same end under wider limits, turn for turn (`Search.iterate_of_le`).
-/

namespace Ia32Wasm

/-- Limits are wider if none of them is lower. -/
instance : LE Limits where
  le limits wider := limits.maxChunks ≤ wider.maxChunks ∧ limits.maxChunkInstructions ≤ wider.maxChunkInstructions

instance : DecidableLE Limits :=
  fun _ _ => inferInstanceAs (Decidable (_ ∧ _))

/-- The result is that a limit was hit. -/
def GaveUp {α : Type} (result : Except DiscoveryError α) : Prop :=
  ∃ limit address, result = .error (.limitExceeded limit address)

variable {image : Image} {limits wider : Limits}

/-- A step of a run tests the limit only to give up. -/
theorem Run.gaveUp_or_step_eq (h : limits ≤ wider) (r : Run) (p : Program) (c : Chunk) :
    GaveUp (r.step image limits p c) ∨ r.step image wider p c = r.step image limits p c := by
  unfold Run.step
  by_cases hmet : r.cursor ≠ r.start ∧ c.covers r.cursor
  · rw [if_pos hmet, if_pos hmet]
    exact .inr rfl
  · rw [if_neg hmet, if_neg hmet]
    by_cases hfull : limits.maxChunkInstructions.toNat ≤ r.held
    · rw [if_pos hfull]
      exact .inl ⟨_, _, rfl⟩
    · have hroom : ¬ wider.maxChunkInstructions.toNat ≤ r.held := by
        have := UInt64.le_iff_toNat_le.1 h.2
        omega
      rw [if_neg hfull, if_neg hroom]
      exact .inr rfl

namespace Search

/-- With wider limits a step is the same, unless the narrower ones end the search. -/
theorem gaveUp_or_step_eq (h : limits ≤ wider) (s : Search) :
    (∃ result, s.step image limits = .stopped result ∧ GaveUp result) ∨ s.step image wider = s.step image limits := by
  cases s with
  | entries p =>
    rw [step, step]
    cases p.pending with
    | nil => exact .inr rfl
    | cons entry rest =>
      dsimp only
      by_cases hcovered : p.isCovered entry = true
      · rw [if_pos hcovered, if_pos hcovered]
        exact .inr rfl
      · rw [if_neg hcovered, if_neg hcovered]
        by_cases hfull : limits.maxChunks.toNat ≤ p.chunks.length
        · rw [if_pos hfull]
          exact .inl ⟨_, rfl, _, _, rfl⟩
        · have hroom : ¬ wider.maxChunks.toNat ≤ p.chunks.length := by
            have := UInt64.le_iff_toNat_le.1 h.1
            omega
          rw [if_neg hfull, if_neg hroom]
          exact .inr rfl
  | starts queue p c =>
    right
    cases queue <;> rfl
  | running r queue p c =>
    rcases r.gaveUp_or_step_eq h p c with ⟨limit, address, hstep⟩ | hstep
    · exact .inl ⟨_, by rw [step, hstep], limit, address, rfl⟩
    · right
      rw [step, step, hstep]
  | stopped result => exact .inr rfl

/-- A search that stops without giving up stops in the same way under wider limits. -/
theorem iterate_of_le (h : limits ≤ wider) {n : Nat} {s : Search} {result : Except DiscoveryError Program}
    (hn : (step image limits)^[n] s = .stopped result) (hresult : ¬ GaveUp result) :
    (step image wider)^[n] s = .stopped result := by
  induction n generalizing s with
  | zero => exact hn
  | succ n ih =>
    rw [Function.iterate_succ_apply] at hn ⊢
    rcases gaveUp_or_step_eq h s with ⟨early, hstep, hgaveUp⟩ | hstep
    · rw [hstep, iterate_stopped] at hn
      cases hn
      exact absurd hgaveUp hresult
    · rw [hstep]
      exact ih hn

end Search

namespace Program

/-- Unless it gave up at a limit, discovery has the same result under wider limits, be it a program or an error. -/
theorem discover_of_le {entries : List UInt32} (h : limits ≤ wider)
    (hresult : ∀ limit address, discover image entries limits ≠ .error (.limitExceeded limit address)) :
    discover image entries wider = discover image entries limits := by
  obtain ⟨n, hn⟩ := Search.reaches_discover image entries limits
  obtain ⟨m, hm⟩ := Search.reaches_discover image entries wider
  refine Search.stopped_unique hm (Search.iterate_of_le h hn ?_)
  rintro ⟨limit, address, hgaveUp⟩
  exact hresult limit address hgaveUp

/-- A branch over an instruction at the end of the image. -/
def overrun : Image := .flat 0x1000 [0x74, 0x01, 0x90]

/-- Results and errors alike are kept by wider limits. -/
theorem discover_of_le_tight :
    (∃ p, discover knotted [0x1000] ⟨2, 4⟩ = .ok p ∧ discover knotted [0x1000] ⟨2, 0xffffffffffffffff⟩ = .ok p) ∧
      discover overrun [0x1000] ⟨1, 3⟩ = .error (.unmapped 0x1003) ∧
      discover overrun [0x1000] ⟨2, 4⟩ = .error (.unmapped 0x1003) := by
  obtain ⟨p, hp, -⟩ : ∃ p, discover knotted [0x1000] ⟨2, 4⟩ = .ok p ∧ p.pending = [] :=
    exists_of_any_toOption (by decide +kernel)
  have hfails : discover overrun [0x1000] ⟨1, 3⟩ = .error (.unmapped 0x1003) := by
    decide +kernel
  exact ⟨⟨p, hp, (discover_of_le (by decide) (by simp [hp])).trans hp⟩, hfails,
    (discover_of_le (by decide) (by simp [hfails])).trans hfails⟩

end Program

end Ia32Wasm
