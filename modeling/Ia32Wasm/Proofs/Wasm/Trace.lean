import Ia32Wasm.Proofs.Wasm.Nesting

/-!
# Traces of executions

A place in a function body is known by the number of instructions that are left there, and each place can have marks.
`Passes` relates a configuration to the marks that its execution comes to after it, in order: to those of any part of
the execution, and to all of them together with the store when the execution returns.  An execution without end has
every list that begins its endless list of marks.

* A step to a place without marks changes nothing (`passes_iff_of_step`).
* Enclosed code passes nothing but what comes after it has completed (`passes_enclosed_iff`).
-/

namespace Ia32Wasm.Wasm

variable {κ κ' ω : Type}

/-- The execution after `c` passes the marks `seen`: so far, or up to its return. -/
inductive Passes (mark : Nat → List Nat) (host : Host κ ω) : Config κ ω → List Nat → Option (Store ω) → Prop
  | pause {c} : Passes mark host c [] none
  | glimpse {c d seen} : c.step host = .running d → seen <+: mark d.code.length → Passes mark host c seen none
  | finish {c store} : c.step host = .returned store → Passes mark host c [] (some store)
  | step {c d seen result} : c.step host = .running d → Passes mark host d seen result →
    Passes mark host c (mark d.code.length ++ seen) result

/-- The execution from `c` on passes the marks `seen`, of which `here` are those of `c` itself. -/
def PassesFrom (mark : Nat → List Nat) (host : Host κ ω) (here : List Nat) (c : Config κ ω) (seen : List Nat)
    (result : Option (Store ω)) : Prop :=
  (result = none ∧ seen <+: here) ∨ ∃ later, seen = here ++ later ∧ Passes mark host c later result

/-- Code that runs alone to its end. -/
def Completes (host : Host κ ω) (code : List (Instr κ)) (m m' : Machine ω) : Prop :=
  Config.Reaches host ⟨code, [], m⟩ ⟨[], [], m'⟩

section Marks

variable {mark : Nat → List Nat} {host : Host κ ω} {c d : Config κ ω} {seen here : List Nat}
  {result : Option (Store ω)}

theorem passesFrom_nil_iff : PassesFrom mark host [] c seen result ↔ Passes mark host c seen result := by
  constructor
  · rintro (⟨rfl, h⟩ | ⟨later, rfl, h⟩)
    · rw [List.prefix_nil.1 h]
      exact .pause
    · exact h
  · intro h
    exact .inr ⟨seen, rfl, h⟩

/-- The first mark here is passed before the rest. -/
theorem passesFrom_cons_iff {first : Nat} : PassesFrom mark host (first :: here) c seen result ↔
    (seen = [] ∧ result = none) ∨ ∃ later, seen = first :: later ∧ PassesFrom mark host here c later result := by
  constructor
  · rintro (⟨rfl, h⟩ | ⟨later, rfl, h⟩)
    · rcases List.prefix_cons_iff.1 h with rfl | ⟨later, rfl, hlater⟩
      · exact .inl ⟨rfl, rfl⟩
      · exact .inr ⟨later, rfl, .inl ⟨rfl, hlater⟩⟩
    · exact .inr ⟨here ++ later, rfl, .inr ⟨later, rfl, h⟩⟩
  · rintro (⟨rfl, rfl⟩ | ⟨later, rfl, ⟨rfl, h⟩ | ⟨rest, rfl, h⟩⟩)
    · exact .inl ⟨rfl, List.nil_prefix⟩
    · exact .inl ⟨rfl, List.prefix_cons_inj _ |>.2 h⟩
    · exact .inr ⟨rest, rfl, h⟩

/-- What comes after a configuration is what its successor passes. -/
theorem passes_iff_of_step (h : c.step host = .running d) :
    Passes mark host c seen result ↔ PassesFrom mark host (mark d.code.length) d seen result := by
  constructor
  · intro hp
    cases hp with
    | pause => exact .inl ⟨rfl, List.nil_prefix⟩
    | glimpse hs hpre =>
      rw [h, Status.running.injEq] at hs
      subst hs
      exact .inl ⟨rfl, hpre⟩
    | finish hs => rw [h] at hs; cases hs
    | step hs hd =>
      rw [h, Status.running.injEq] at hs
      subst hs
      exact .inr ⟨_, rfl, hd⟩
  · rintro (⟨rfl, hpre⟩ | ⟨later, rfl, hd⟩)
    · exact .glimpse h hpre
    · exact .step h hd

/-- A step to a place without marks passes none. -/
theorem passes_iff_of_quiet (h : c.step host = .running d) (hq : mark d.code.length = []) :
    Passes mark host c seen result ↔ Passes mark host d seen result := by
  rw [passes_iff_of_step h, hq, passesFrom_nil_iff]

/-- A return passes nothing more. -/
theorem passes_iff_of_returned {store : Store ω} (h : c.step host = .returned store) :
    Passes mark host c seen result ↔ seen = [] ∧ (result = none ∨ result = some store) := by
  constructor
  · intro hp
    cases hp with
    | pause => exact ⟨rfl, .inl rfl⟩
    | glimpse hs => rw [h] at hs; cases hs
    | finish hs =>
      rw [h, Status.returned.injEq] at hs
      subst hs
      exact ⟨rfl, .inr rfl⟩
    | step hs => rw [h] at hs; cases hs
  · rintro ⟨rfl, rfl | rfl⟩
    · exact .pause
    · exact .finish h

end Marks

/-! ### Enclosed code -/

section Enclosed

variable {mark : Nat → List Nat} {host : Host κ ω} {c : Config κ ω} {rest : List (Instr κ)} {outer : List (Label κ)}
  {seen : List Nat} {result : Option (Store ω)} {bound : Nat}

/-- No step leads from `c` to the place with `bound` or more instructions left. -/
private def Descends (bound : Nat) (c : Config κ ω) : Prop :=
  c.Enclosed ∧ (c.Below bound ∨ c.labels = [] ∧ c.code.length = bound)

private theorem descends_of_step {d : Config κ ω} (hc : Descends bound c) (h : c.step host = .running d) :
    Descends bound d ∧ d.code.length < bound := by
  have henc := Config.enclosed_of_step hc.1 h
  have hbelow : d.Below bound := by
    rcases hc.2 with hb | ⟨hl, hlen⟩
    · exact Config.below_of_below hc.1 hb h
    · rw [← hlen]
      exact Config.below_of_step hc.1 hl h
  exact ⟨⟨henc, .inl hbelow⟩, hbelow.1⟩

private theorem step_within_running {d : Config κ ω} (hc : c.Enclosed) (hne : c.code ≠ [])
    (h : (c.within rest outer).step host = .running d) :
    ∃ e : Config κ ω, c.step host = .running e ∧ d = e.within rest outer := by
  rw [Config.step_within hc hne] at h
  cases hs : c.step host with
  | running e =>
    rw [hs] at h
    exact ⟨e, rfl, (Status.running.inj h).symm⟩
  | returned store => exact absurd hs (Config.step_ne_returned hc hne store)
  | stopped fault => rw [hs] at h; cases h

private theorem eq_end_of_enclosed (hc : c.Enclosed) (h : c.code = []) : c = ⟨[], [], c.machine⟩ := by
  have hl := Config.labels_eq_nil_of_enclosed hc h
  obtain ⟨code, labels, m⟩ := c
  simp only at h hl
  rw [h, hl]

private theorem reaches_end {m m' : Machine ω} (h : Config.Reaches host (⟨[], [], m⟩ : Config κ ω) ⟨[], [], m'⟩) :
    m' = m := by
  rcases Relation.ReflTransGen.cases_head h with heq | ⟨d, hd, -⟩
  · exact (Config.mk.inj heq).2.2.symm
  · cases hd

private theorem mark_within (hq : ∀ n, rest.length < n → n < bound + rest.length → mark n = []) (hne : c.code ≠ [])
    (hlen : c.code.length < bound) : mark (c.within rest outer).code.length = [] := by
  have := List.length_pos_iff.2 hne
  apply hq <;> simp only [Config.within, List.length_append] <;> omega

private theorem passes_of_reaches (hq : ∀ n, rest.length < n → n < bound + rest.length → mark n = []) {m' : Machine ω}
    (h : Config.Reaches host c ⟨[], [], m'⟩) (hc : Descends bound c) (hne : c.code ≠ [])
    (hp : PassesFrom mark host (mark rest.length) ⟨rest, outer, m'⟩ seen result) :
    Passes mark host (c.within rest outer) seen result := by
  induction h using Relation.ReflTransGen.head_induction_on with
  | refl => exact absurd rfl hne
  | @head c d hstep hreach ih =>
    obtain ⟨hd, hlen⟩ := descends_of_step hc hstep
    have hw : (c.within rest outer).step host = .running (d.within rest outer) := by
      rw [Config.step_within hc.1 hne, hstep]
      rfl
    by_cases hend : d.code = []
    · rw [eq_end_of_enclosed hd.1 hend] at hreach
      have hm := reaches_end hreach
      have hd' : d.within rest outer = ⟨rest, outer, m'⟩ := by
        rw [eq_end_of_enclosed hd.1 hend, hm]
        rfl
      rw [hd'] at hw
      exact (passes_iff_of_step hw).2 hp
    · exact (passes_iff_of_quiet hw (mark_within hq hend hlen)).2 (ih hd hend)

private theorem reaches_of_passes (hq : ∀ n, rest.length < n → n < bound + rest.length → mark n = [])
    (h : Passes mark host (c.within rest outer) seen result) (hc : Descends bound c) (hne : c.code ≠ []) :
    (seen = [] ∧ result = none) ∨ ∃ m', Config.Reaches host c ⟨[], [], m'⟩ ∧
      PassesFrom mark host (mark rest.length) ⟨rest, outer, m'⟩ seen result := by
  -- The induction follows the execution inside the other code; `c` is the part of it that is enclosed.
  generalize hx : c.within rest outer = x at h
  induction h generalizing c with
  | pause => exact .inl ⟨rfl, rfl⟩
  | @glimpse x y seen hs hpre =>
    subst hx
    obtain ⟨d, hstep, rfl⟩ := step_within_running hc.1 hne hs
    obtain ⟨hd, hlen⟩ := descends_of_step hc hstep
    by_cases hend : d.code = []
    · rw [eq_end_of_enclosed hd.1 hend] at hstep hpre
      exact .inr ⟨_, Relation.ReflTransGen.single hstep, .inl ⟨rfl, hpre⟩⟩
    · rw [mark_within hq hend hlen] at hpre
      exact .inl ⟨List.prefix_nil.1 hpre, rfl⟩
  | finish hs =>
    subst hx
    rw [Config.step_within hc.1 hne] at hs
    cases hs' : c.step host with
    | running e => rw [hs'] at hs; cases hs
    | returned store => exact absurd hs' (Config.step_ne_returned hc.1 hne store)
    | stopped fault => rw [hs'] at hs; cases hs
  | @step x y seen result hs hp ih =>
    subst hx
    obtain ⟨d, hstep, rfl⟩ := step_within_running hc.1 hne hs
    obtain ⟨hd, hlen⟩ := descends_of_step hc hstep
    by_cases hend : d.code = []
    · rw [eq_end_of_enclosed hd.1 hend] at hstep hp ⊢
      exact .inr ⟨_, Relation.ReflTransGen.single hstep, .inr ⟨seen, rfl, hp⟩⟩
    · rw [mark_within hq hend hlen, List.nil_append]
      rcases ih hd hend rfl with h | ⟨m', hreach, hfrom⟩
      · exact .inl h
      · exact .inr ⟨m', Relation.ReflTransGen.head hstep hreach, hfrom⟩

/-- Enclosed code without marks inside passes what comes after it, if it completes, and nothing otherwise. -/
theorem passes_enclosed_iff {code : List (Instr κ)} (m : Machine ω) (hcode : nest 0 0 code = some 0) (hne : code ≠ [])
    (hq : ∀ n, rest.length < n → n < code.length + rest.length → mark n = []) :
    Passes mark host ⟨code ++ rest, outer, m⟩ seen result ↔ (seen = [] ∧ result = none) ∨
      ∃ m', Completes host code m m' ∧ PassesFrom mark host (mark rest.length) ⟨rest, outer, m'⟩ seen result := by
  have hc : Descends code.length (⟨code, [], m⟩ : Config κ ω) := ⟨⟨hcode, trivial⟩, .inr ⟨rfl, rfl⟩⟩
  constructor
  · intro hp
    exact reaches_of_passes hq hp hc hne
  · rintro (⟨rfl, rfl⟩ | ⟨m', hreach, hfrom⟩)
    · exact .pause
    · exact passes_of_reaches hq hreach hc hne hfrom

end Enclosed

/-! ### Completion -/

section Completion

variable {host : Host κ ω} {c d : Config κ ω} {first second rest : List (Instr κ)} {outer : List (Label κ)}
  {m m' m₁ m₂ : Machine ω}

private theorem code_ne_nil_of_step (h : c.step host = .running d) : c.code ≠ [] := by
  intro hnil
  rw [Config.step, hnil] at h
  simp only at h
  split at h <;> cases h

/-- Enclosed code reaches inside other code what it reaches alone. -/
private theorem reaches_within (hc : c.Enclosed) (h : Config.Reaches host c d) :
    Config.Reaches host (c.within rest outer) (d.within rest outer) := by
  induction h using Relation.ReflTransGen.head_induction_on with
  | refl => exact Relation.ReflTransGen.refl
  | @head c e hstep hreach ih =>
    have hw : (c.within rest outer).step host = .running (e.within rest outer) := by
      rw [Config.step_within hc (code_ne_nil_of_step hstep), hstep]
      rfl
    exact Relation.ReflTransGen.head hw (ih (Config.enclosed_of_step hc hstep))

private theorem completes_of_within (hc : c.Enclosed) (h : Config.Reaches host (c.within rest []) ⟨[], [], m'⟩) :
    ∃ m₁, Config.Reaches host c ⟨[], [], m₁⟩ ∧ Completes host rest m₁ m' := by
  generalize hx : c.within rest [] = x at h
  induction h using Relation.ReflTransGen.head_induction_on generalizing c with
  | refl =>
    have hcode := congrArg Config.code hx
    simp only [Config.within, List.append_eq_nil_iff] at hcode
    obtain ⟨hcode, rfl⟩ := hcode
    rw [eq_end_of_enclosed hc hcode] at hx ⊢
    have hm := congrArg Config.machine hx
    simp only [Config.within] at hm
    rw [hm]
    exact ⟨m', Relation.ReflTransGen.refl, Relation.ReflTransGen.refl⟩
  | @head x y hstep hreach ih =>
    subst hx
    by_cases hend : c.code = []
    · rw [eq_end_of_enclosed hc hend] at hstep ⊢
      exact ⟨_, Relation.ReflTransGen.refl, Relation.ReflTransGen.head hstep hreach⟩
    · obtain ⟨e, he, rfl⟩ := step_within_running hc hend hstep
      obtain ⟨m₁, h₁, h₂⟩ := ih (Config.enclosed_of_step hc he) rfl
      exact ⟨m₁, Relation.ReflTransGen.head he h₁, h₂⟩

@[simp] theorem completes_nil_iff : Completes host ([] : List (Instr κ)) m m' ↔ m' = m := by
  constructor
  · intro h
    exact reaches_end h
  · rintro rfl
    exact Relation.ReflTransGen.refl

/-- Enclosed code and then other code complete one after the other. -/
theorem completes_append_iff (hfirst : nest 0 0 first = some 0) :
    Completes host (first ++ second) m m' ↔ ∃ m₁, Completes host first m m₁ ∧ Completes host second m₁ m' := by
  have hc : (⟨first, [], m⟩ : Config κ ω).Enclosed := ⟨hfirst, trivial⟩
  constructor
  · intro h
    exact completes_of_within hc h
  · rintro ⟨m₁, h₁, h₂⟩
    have h₁' : Config.Reaches host (Config.within ⟨first, [], m⟩ second []) (Config.within ⟨[], [], m₁⟩ second []) :=
      reaches_within hc h₁
    exact h₁'.trans h₂

/-- Of two configurations that come later, one comes after the other. -/
theorem reaches_total {c d e : Config κ ω} (hd : Config.Reaches host c d) (he : Config.Reaches host c e) :
    Config.Reaches host d e ∨ Config.Reaches host e d := by
  have hunique : Relator.RightUnique (Config.Steps host : Config κ ω → Config κ ω → Prop) := by
    intro a b b' hb hb'
    unfold Config.Steps at hb hb'
    rw [hb] at hb'
    exact Status.running.inj hb'
  exact Relation.ReflTransGen.total_of_right_unique hunique hd he

/-- Nothing comes after a configuration that does not go on. -/
theorem eq_of_reaches_of_stopped {fault : Fault} (h : Config.Reaches host c d) (hc : c.step host = .stopped fault) :
    d = c := by
  rcases Relation.ReflTransGen.cases_head h with heq | ⟨e, he, -⟩
  · exact heq.symm
  · rw [Config.Steps, hc] at he
    cases he

/-- Code completes in at most one way. -/
theorem completes_unique (h₁ : Completes host first m m₁) (h₂ : Completes host first m m₂) : m₁ = m₂ := by
  rcases reaches_total h₁ h₂ with h | h
  · exact (reaches_end h).symm
  · exact reaches_end h

/-! ### Code that works on values -/

/-- A data instruction is applied to the machine. -/
theorem step_of_isData {instr : Instr κ} {rest : List (Instr κ)} {labels : List (Label κ)}
    (hdata : instr.isData = true)
    (h : instr.apply m = .ok m') :
    (⟨instr :: rest, labels, m⟩ : Config κ ω).step host = .running ⟨rest, labels, m'⟩ := by
  cases instr <;> simp_all [Config.step]

/-- Data instructions complete if each can be applied. -/
theorem completes_of_foldlM {code : List (Instr κ)} (hdata : ∀ instr ∈ code, instr.isData = true)
    (h : code.foldlM (fun m instr => instr.apply m) m = .ok m') : Completes host code m m' := by
  induction code generalizing m with
  | nil =>
    cases h
    exact Relation.ReflTransGen.refl
  | cons instr rest ih =>
    rw [List.foldlM_cons] at h
    cases happly : instr.apply m with
    | error fault =>
      rw [happly] at h
      cases h
    | ok m₁ =>
      rw [happly] at h
      have hrest : Completes host rest m₁ m' := ih (fun instr hi => hdata instr (List.mem_cons_of_mem _ hi)) h
      exact Relation.ReflTransGen.head (step_of_isData (hdata instr List.mem_cons_self) happly) hrest

end Completion

end Ia32Wasm.Wasm
