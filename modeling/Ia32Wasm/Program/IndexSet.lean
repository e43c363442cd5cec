/-!
# Sets of indices

A finite set of 32-bit indices, held as its strictly ascending list, so that equal sets are equal values.
-/

namespace Ia32Wasm

/-- A finite set of indices. -/
structure IndexSet where
  toList : List UInt32
  ascending : toList.Pairwise (· < ·)
deriving DecidableEq

namespace IndexSet

/-- The set without members. -/
def empty : IndexSet := ⟨[], List.Pairwise.nil⟩

/-- An ascending list with one more member. -/
def insertList (x : UInt32) : List UInt32 → List UInt32
  | [] => [x]
  | y :: ys => if x < y then x :: y :: ys else if x = y then y :: ys else y :: insertList x ys

private theorem mem_insertList {x y : UInt32} {l : List UInt32} : y ∈ insertList x l ↔ y = x ∨ y ∈ l := by
  induction l with
  | nil => simp [insertList]
  | cons z zs ih =>
    simp only [insertList]
    split
    · simp
    · split
      · rename_i h; subst h; simp
      · simp only [List.mem_cons, ih]; constructor <;> (intro h; rcases h with h | h | h <;> simp [h])

private theorem pairwise_insertList {x : UInt32} {l : List UInt32} (h : l.Pairwise (· < ·)) :
    (insertList x l).Pairwise (· < ·) := by
  induction l with
  | nil => simp [insertList]
  | cons y ys ih =>
    have hy := List.pairwise_cons.1 h
    simp only [insertList]
    split
    · rename_i hxy
      refine List.pairwise_cons.2 ⟨fun z hz => ?_, h⟩
      rcases List.mem_cons.1 hz with rfl | hz
      · exact hxy
      · exact UInt32.lt_trans hxy (hy.1 z hz)
    · split
      · exact h
      · rename_i hxy hne
        refine List.pairwise_cons.2 ⟨fun z hz => ?_, ih hy.2⟩
        rcases mem_insertList.1 hz with rfl | hz
        · exact Std.lt_of_le_of_ne (UInt32.not_lt.1 hxy) (Ne.symm hne)
        · exact hy.1 z hz

/-- The set with one more member. -/
def insert (s : IndexSet) (x : UInt32) : IndexSet := ⟨insertList x s.toList, pairwise_insertList s.ascending⟩

/-- The set of the members of a list. -/
def ofList (l : List UInt32) : IndexSet := l.foldl insert empty

/-- The index is a member. -/
def contains (s : IndexSet) (x : UInt32) : Bool := s.toList.contains x

@[simp] theorem mem_toList_insert {s : IndexSet} {x y : UInt32} :
    y ∈ (s.insert x).toList ↔ y = x ∨ y ∈ s.toList :=
  mem_insertList

end IndexSet

end Ia32Wasm
