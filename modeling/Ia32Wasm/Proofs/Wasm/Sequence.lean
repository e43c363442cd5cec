import Ia32Wasm.Proofs.Wasm.Straight

/-!
# Code in sequence

`Runs host code m m'` says that the code takes the machine from `m` to `m'` wherever it stands: whatever comes after
it, and whatever constructs are open around it.  So it passes through the sequence of two pieces of code
(`runs_append`) without a condition on how they nest.

* Straight code runs as `exec` computes (`runs_of_exec`).
* `Attains` says that code comes to a configuration with a property, wherever it stands.
* `runs_skip` and `runs_through` are the two ways through a block that a test leaves early, and `runs_then` and
  `runs_else` the two ways through a conditional.
* `runs_repeat` goes around a loop as often as its test does not hold.
-/

namespace Ia32Wasm.Wasm

variable {κ ω : Type} {host : Host κ ω} {code first second test body : List (Instr κ)} {m m₁ m' : Machine ω}
  {v : UInt32}

/-- The code takes the machine from `m` to `m'` wherever it stands. -/
def Runs (host : Host κ ω) (code : List (Instr κ)) (m m' : Machine ω) : Prop :=
  ∀ rest labels, Config.Reaches host ⟨code ++ rest, labels, m⟩ ⟨rest, labels, m'⟩

/-- Code that runs to a state completes there. -/
theorem completes_of_runs (h : Runs host code m m') : Completes host code m m' := by
  have hend := h [] []
  rwa [List.append_nil] at hend

theorem runs_nil (m : Machine ω) : Runs host [] m m := fun _ _ => Relation.ReflTransGen.refl

/-- Code in sequence runs part by part. -/
theorem runs_append (hfirst : Runs host first m m₁) (hsecond : Runs host second m₁ m') :
    Runs host (first ++ second) m m' := by
  intro rest labels
  rw [List.append_assoc]
  exact (hfirst (second ++ rest) labels).trans (hsecond rest labels)

/-- An instruction that has a result works on values. -/
private theorem isData_of_apply {instr : Instr κ} (h : instr.apply m = .ok m') : instr.isData = true := by
  cases instr <;> first | rfl | cases h

/-- Straight code that executes runs. -/
theorem runs_of_exec (h : exec code m = .ok m') : Runs host code m m' := by
  intro rest labels
  induction code generalizing m with
  | nil =>
    cases h
    exact Relation.ReflTransGen.refl
  | cons instr code ih =>
    cases happly : instr.apply m with
    | error fault =>
      rw [exec, List.foldlM_cons, happly] at h
      cases h
    | ok m₁ =>
      rw [exec_cons happly] at h
      exact Relation.ReflTransGen.head (step_of_isData (isData_of_apply happly) happly) (ih h)

/-- The code comes to a configuration with a property, wherever it stands. -/
def Attains (host : Host κ ω) (code : List (Instr κ)) (m : Machine ω) (P : Config κ ω → Prop) : Prop :=
  ∀ rest labels, ∃ c, Config.Reaches host ⟨code ++ rest, labels, m⟩ c ∧ P c

/-- Code that comes to a configuration does so on its own. -/
theorem Attains.exists_reaches {P : Config κ ω → Prop} (h : Attains host code m P) :
    ∃ c, Config.Reaches host ⟨code, [], m⟩ c ∧ P c := by
  have hnil := h [] []
  rwa [List.append_nil] at hnil

/-- What code comes to, it comes to with more code behind it. -/
theorem Attains.append {P : Config κ ω → Prop} (h : Attains host first m P) (second : List (Instr κ)) :
    Attains host (first ++ second) m P := by
  intro rest labels
  rw [List.append_assoc]
  exact h (second ++ rest) labels

/-- What code comes to behind other code that runs. -/
theorem attains_append {P : Config κ ω → Prop} (hfirst : Runs host first m m₁) (hsecond : Attains host second m₁ P) :
    Attains host (first ++ second) m P := by
  intro rest labels
  obtain ⟨c, hreaches, hc⟩ := hsecond rest labels
  rw [List.append_assoc]
  exact ⟨c, (hfirst (second ++ rest) labels).trans hreaches, hc⟩

/-! ### Blocks that are left early -/

/-- A block whose test holds is left for what comes after it. -/
theorem runs_skip (htest : Runs host test m (m.push (.i32 v))) (hv : v ≠ 0) (htestNest : nest 0 0 test = some 0)
    (hbodyNest : nest 0 0 body = some 0) : Runs host (.block :: test ++ .brIf 0 :: body ++ [Instr.close]) m m := by
  intro rest labels
  have hcode : .block :: test ++ .brIf 0 :: body ++ [Instr.close] ++ rest =
      .block :: (test ++ (.brIf 0 :: (body ++ (.close :: rest)))) := by simp
  have hend : afterClose 0 (test ++ (.brIf 0 :: (body ++ (.close :: rest)))) = rest := by
    rw [afterClose_append _ htestNest, afterClose, afterClose_append _ hbodyNest, afterClose]
    all_goals simp
  rw [hcode]
  refine Relation.ReflTransGen.head (Config.step_block ..) ((htest _ _).trans (Relation.ReflTransGen.single ?_))
  rw [hend]
  simp [Config.Steps, Config.step, hv, Config.branch, Machine.push]

/-- A block whose test does not hold comes to the code behind the test. -/
private theorem reaches_body (htest : Runs host test m (m.push (.i32 0))) (rest : List (Instr κ))
    (labels : List (Label κ)) :
    ∃ label, Config.Reaches host ⟨.block :: test ++ .brIf 0 :: body ++ [Instr.close] ++ rest, labels, m⟩
      ⟨body ++ (.close :: rest), label :: labels, m⟩ := by
  have hcode : .block :: test ++ .brIf 0 :: body ++ [Instr.close] ++ rest =
      .block :: (test ++ (.brIf 0 :: (body ++ (.close :: rest)))) := by simp
  have hpass : ∀ label, Config.Steps host ⟨.brIf 0 :: (body ++ (.close :: rest)), label :: labels, m.push (.i32 0)⟩
      ⟨body ++ (.close :: rest), label :: labels, m⟩ := fun _ => rfl
  rw [hcode]
  exact ⟨_, Relation.ReflTransGen.head (Config.step_block ..) ((htest _ _).trans (.single (hpass _)))⟩

/-- A block whose test does not hold is gone through. -/
theorem runs_through (htest : Runs host test m (m.push (.i32 0))) (hbody : Runs host body m m') :
    Runs host (.block :: test ++ .brIf 0 :: body ++ [Instr.close]) m m' := by
  intro rest labels
  obtain ⟨label, hreaches⟩ := reaches_body htest rest labels
  exact hreaches.trans ((hbody _ _).trans (Relation.ReflTransGen.single (Config.step_close ..)))

/-- A test that gives zero lets the body be executed. -/
theorem attains_through {P : Config κ ω → Prop} (htest : Runs host test m (m.push (.i32 0)))
    (hbody : Attains host body m P) : Attains host (.block :: test ++ .brIf 0 :: body ++ [Instr.close]) m P := by
  intro rest labels
  obtain ⟨label, hreaches⟩ := reaches_body htest rest labels
  obtain ⟨c, hreaches', hc⟩ := hbody (.close :: rest) (label :: labels)
  exact ⟨c, hreaches.trans hreaches', hc⟩

/-! ### Conditionals -/

/-- The second part of a conditional lies behind nested code. -/
theorem afterThen_append {outer depth depth' : Nat} (rest : List (Instr κ))
    (h : nest outer depth code = some depth') : afterThen depth (code ++ rest) = afterThen depth' rest := by
  induction code generalizing depth with
  | nil =>
    rw [nest_nil, Option.some.injEq] at h
    rw [List.nil_append, h]
  | cons instr tail ih =>
    rw [nest_cons, Option.bind_eq_some_iff] at h
    obtain ⟨d, hd, htail⟩ := h
    have := ih htail
    cases instr <;> simp only [nestStep] at hd <;> cases depth <;> grind [afterThen]

/-- A conditional whose test holds runs its first part. -/
theorem runs_then (hv : v ≠ 0) (hfirst : Runs host first m m') (hsecondNest : nest 0 0 second = some 0) :
    Runs host (.ifThen :: first ++ .orElse :: second ++ [Instr.close]) (m.push (.i32 v)) m' := by
  intro rest labels
  have hcode : .ifThen :: first ++ .orElse :: second ++ [Instr.close] ++ rest =
      .ifThen :: (first ++ (.orElse :: (second ++ (.close :: rest)))) := by simp
  have hend : afterClose 0 (second ++ (.close :: rest)) = rest := by
    rw [afterClose_append _ hsecondNest, afterClose]
  rw [hcode]
  have henter : Config.Steps host ⟨.ifThen :: (first ++ (.orElse :: (second ++ (.close :: rest)))), labels,
      m.push (.i32 v)⟩ ⟨first ++ (.orElse :: (second ++ (.close :: rest))),
        ⟨afterClose 0 (first ++ (.orElse :: (second ++ (.close :: rest)))), m.stack.length⟩ :: labels, m⟩ := by
    simp only [Config.Steps, Config.step, Machine.push, if_neg hv, Config.enter]
  refine Relation.ReflTransGen.head henter ((hfirst _ _).trans (Relation.ReflTransGen.single ?_))
  simp only [Config.Steps, Config.step, Config.leave, hend]

/-- A conditional whose test does not hold runs its second part. -/
theorem runs_else (hsecond : Runs host second m m') (hfirstNest : nest 0 0 first = some 0) :
    Runs host (.ifThen :: first ++ .orElse :: second ++ [Instr.close]) (m.push (.i32 0)) m' := by
  intro rest labels
  have hcode : .ifThen :: first ++ .orElse :: second ++ [Instr.close] ++ rest =
      .ifThen :: (first ++ (.orElse :: (second ++ (.close :: rest)))) := by simp
  have helse : afterThen 0 (first ++ (.orElse :: (second ++ (.close :: rest)))) = second ++ (.close :: rest) := by
    rw [afterThen_append _ hfirstNest, afterThen]
  rw [hcode]
  have henter : Config.Steps host ⟨.ifThen :: (first ++ (.orElse :: (second ++ (.close :: rest)))), labels,
      m.push (.i32 0)⟩ ⟨second ++ (.close :: rest),
        ⟨afterClose 0 (first ++ (.orElse :: (second ++ (.close :: rest)))), m.stack.length⟩ :: labels, m⟩ := by
    simp only [Config.Steps, Config.step, Machine.push, if_pos, Config.enter, helse]
  exact Relation.ReflTransGen.head henter ((hsecond _ _).trans (Relation.ReflTransGen.single (Config.step_close ..)))

/-! ### Loops -/

/-- The head of a loop comes to what is behind the loop, after the body has run until the test holds. -/
private theorem reaches_behind {state : Nat → Machine ω} {n height : Nat}
    (hgoes : ∀ k < n, Runs host test (state k) ((state k).push (.i32 0)) ∧ Runs host body (state k) (state (k + 1)))
    (hleaves : Runs host test (state n) ((state n).push (.i32 v))) (hv : v ≠ 0)
    (hstack : ∀ k ≤ n, (state k).stack.length = height) (rest : List (Instr κ)) (labels : List (Label κ)) {k : Nat}
    (hk : k ≤ n) :
    Config.Reaches host
      ⟨.loop :: (test ++ (.brIf 1 :: (body ++ (.br 0 :: .close :: .close :: rest)))),
        ⟨rest, height⟩ :: labels, state k⟩
      ⟨rest, labels, state n⟩ := by
  -- The induction is on the number of times that the body has still to run.
  obtain ⟨left, hleft⟩ : ∃ left, k + left = n := ⟨n - k, by omega⟩
  induction left generalizing k with
  | zero =>
    obtain rfl : k = n := hleft
    have hheight := hstack k hk
    refine Relation.ReflTransGen.head (Config.step_loop ..) ((hleaves _ _).trans (Relation.ReflTransGen.single ?_))
    simp [Config.Steps, Config.step, hv, Config.branch, Machine.push, hheight]
  | succ left ih =>
    have hlt : k < n := by omega
    obtain ⟨htest, hbody⟩ := hgoes k hlt
    have hheight := hstack (k + 1) hlt
    have hheight' := hstack k hk
    have hpass : ∀ inner, Config.Steps host
        ⟨.brIf 1 :: (body ++ (.br 0 :: .close :: .close :: rest)), inner, (state k).push (.i32 0)⟩
        ⟨body ++ (.br 0 :: .close :: .close :: rest), inner, state k⟩ := fun _ => rfl
    refine Relation.ReflTransGen.head (Config.step_loop ..) ((htest _ _).trans (.head (hpass _) ?_))
    refine (hbody _ _).trans (Relation.ReflTransGen.head ?_ (ih hlt (by omega)))
    simp [Config.Steps, Config.step, Config.branch, hheight, hheight']

/-- A loop that its test leaves goes through the states that its body runs through, until the test holds. -/
theorem runs_repeat {state : Nat → Machine ω} {n : Nat}
    (hgoes : ∀ k < n, Runs host test (state k) ((state k).push (.i32 0)) ∧ Runs host body (state k) (state (k + 1)))
    (hleaves : Runs host test (state n) ((state n).push (.i32 v))) (hv : v ≠ 0)
    (hstack : ∀ k ≤ n, (state k).stack.length = (state 0).stack.length) (htestNest : nest 0 0 test = some 0)
    (hbodyNest : nest 0 0 body = some 0) :
    Runs host (.block :: .loop :: test ++ .brIf 1 :: body ++ [.br 0, .close, .close]) (state 0) (state n) := by
  intro rest labels
  have hcode : .block :: .loop :: test ++ .brIf 1 :: body ++ [.br 0, .close, .close] ++ rest =
      .block :: (.loop :: (test ++ (.brIf 1 :: (body ++ (.br 0 :: .close :: .close :: rest))))) := by simp
  have hend : afterClose 0 (.loop :: (test ++ (.brIf 1 :: (body ++ (.br 0 :: .close :: .close :: rest))))) =
    rest := by
    have htestEnd := nest_of_zero htestNest 0 (0 + 1)
    have hbodyEnd := nest_of_zero hbodyNest 0 (0 + 1)
    rw [afterClose, afterClose_append _ htestEnd, afterClose, afterClose_append _ hbodyEnd]
    all_goals simp [afterClose]
  rw [hcode]
  refine Relation.ReflTransGen.head (Config.step_block ..) ?_
  rw [hend]
  exact reaches_behind hgoes hleaves hv hstack rest labels (Nat.zero_le n)

end Ia32Wasm.Wasm
