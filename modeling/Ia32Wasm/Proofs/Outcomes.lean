import Mathlib.Data.List.Forall2

/-!
# Outcomes

Facts about computations that fail or give a result.  What is known of the whole is passed to its parts: a success to
both halves of a sequence (`ok_of_bind`) and to every member of a list (`forall₂_of_mapM`), a failure to the first
member that fails (`mapM_of_findSome?`).  A result is found by running the computation (`exists_of_any_toOption`).
-/

namespace Ia32Wasm

variable {α β δ ε ε' : Type}

/-- If the test is passed where the computation is run, there is a result, and it has the property. -/
theorem exists_of_any_toOption {x : Except ε α} {P : α → Prop} [DecidablePred P]
    (h : x.toOption.any (fun a => P a) = true) : ∃ a, x = .ok a ∧ P a := by
  cases x with
  | error e => cases h
  | ok a => exact ⟨a, rfl, of_decide_eq_true h⟩

/-- A sequence succeeds only if both of its halves do. -/
theorem ok_of_bind {x : Except ε α} {f : α → Except ε β} {b : β} (h : x >>= f = .ok b) :
    ∃ a, x = .ok a ∧ f a = .ok b := by
  cases x with
  | error e => cases h
  | ok a => exact ⟨a, rfl, h⟩

/-- Successes are kept where errors are renamed. -/
theorem ok_of_mapError {x : Except ε α} {g : ε → ε'} {a : α} (h : x.mapError g = .ok a) : x = .ok a := by
  cases x with
  | error e => cases h
  | ok a =>
    cases h
    rfl

/-- Where the whole list succeeds, its members do, one by one and in order. -/
theorem forall₂_of_mapM {f : α → Except ε β} {l : List α} {m : List β} (h : l.mapM f = .ok m) :
    List.Forall₂ (fun a b => f a = .ok b) l m := by
  induction l generalizing m with
  | nil =>
    cases h
    exact .nil
  | cons a l ih =>
    rw [List.mapM_cons] at h
    obtain ⟨b, hb, h⟩ := ok_of_bind h
    obtain ⟨m', hm', h⟩ := ok_of_bind h
    cases h
    exact .cons hb (ih hm')

/-- Members of related lists at the same place are related. -/
theorem getElem?_of_forall₂ {R : α → β → Prop} {l : List α} {m : List β} (h : List.Forall₂ R l m) {k : Nat} {b : β}
    (hb : m[k]? = some b) : ∃ a, l[k]? = some a ∧ R a b := by
  obtain ⟨hlength, hrel⟩ := List.forall₂_iff_get.1 h
  obtain ⟨hk, rfl⟩ := List.getElem?_eq_some_iff.1 hb
  exact ⟨_, List.getElem?_eq_getElem (hlength ▸ hk), hrel k (hlength ▸ hk) hk⟩

/-- If `g` says which members fail and why, the first of them decides how the list fails. -/
theorem mapM_of_findSome? {f : α → Except ε β} {g : α → Option δ} {e : δ → ε} {l : List α}
    (hsome : ∀ a ∈ l, ∀ d, g a = some d → f a = .error (e d))
    (hnone : ∀ a ∈ l, g a = none → ∃ b, f a = .ok b) :
    (∀ d, l.findSome? g = some d → l.mapM f = .error (e d)) ∧
      (l.findSome? g = none → ∃ bs, l.mapM f = .ok bs) := by
  induction l with
  | nil => exact ⟨fun _ h => (nomatch h), fun _ => ⟨[], rfl⟩⟩
  | cons a l ih =>
    obtain ⟨hsome, hsomes⟩ := List.forall_mem_cons.1 hsome
    obtain ⟨hnone, hnones⟩ := List.forall_mem_cons.1 hnone
    obtain ⟨ihsome, ihnone⟩ := ih hsomes hnones
    rw [List.mapM_cons, List.findSome?_cons]
    cases hg : g a with
    | some d =>
      rw [hsome d hg]
      refine ⟨fun d' hd' => ?_, fun h => nomatch h⟩
      cases hd'
      rfl
    | none =>
      obtain ⟨b, hb⟩ := hnone hg
      rw [hb]
      refine ⟨fun d hd => ?_, fun h => ?_⟩
      · rw [ihsome d hd]
        rfl
      · obtain ⟨bs, hbs⟩ := ihnone h
        rw [hbs]
        exact ⟨b :: bs, rfl⟩

end Ia32Wasm
