import Ia32Wasm.Text.Hex
import Mathlib.Algebra.Group.Nat.Defs

/-!
# Numerals

The digits of a number in bases ten and sixteen, and the reading of a numeral in base sixteen: it gives back the
number, with or without zeros in front.
-/

namespace Ia32Wasm

private theorem exists_digitChar_of_mem_toDigits {base : Nat} (hbase : 1 < base) {n : Nat} {c : Char}
    (h : c ∈ Nat.toDigits base n) : ∃ d < base, c = d.digitChar := by
  induction n using Nat.strongRecOn with
  | ind n ih =>
    rw [Nat.toDigits_eq_if hbase] at h
    split at h
    · rename_i hlt
      exact ⟨n, hlt, List.mem_singleton.1 h⟩
    · rename_i hle
      have hpos : 0 < n := by omega
      rcases List.mem_append.1 h with h | h
      · exact ih (n / base) (Nat.div_lt_self hpos hbase) h
      · exact ⟨n % base, Nat.mod_lt n (by omega), List.mem_singleton.1 h⟩

/-- A numeral other than that of zero has no zero in front. -/
theorem head?_toDigits_ne {n : Nat} (hpos : 0 < n) : (Nat.toDigits 10 n).head? ≠ some '0' := by
  have hdigit : ∀ d < 10, 0 < d → Nat.digitChar d ≠ '0' := by decide
  induction n using Nat.strongRecOn with
  | ind n ih =>
    rw [Nat.toDigits_eq_if (by decide)]
    split
    · rename_i hlt
      rw [List.head?_cons]
      exact fun heq => hdigit n hlt hpos (Option.some.inj heq)
    · have hfirst := ih (n / 10) (by omega) (by omega)
      obtain ⟨c, cs, heq⟩ := List.exists_cons_of_ne_nil (Nat.toDigits_ne_nil : Nat.toDigits 10 (n / 10) ≠ [])
      rw [heq] at hfirst ⊢
      exact hfirst

namespace Hex

/-- A digit is read as it is written. -/
theorem digit?_digitChar {d : Nat} (h : d < 16) : digit? d.digitChar = some d := by
  have hall : ∀ d < 16, digit? (Nat.digitChar d) = some d := by decide
  exact hall d h

private theorem extend?_append (n : Nat) (first second : List Char) :
    extend? n (first ++ second) = (extend? n first).bind (extend? · second) :=
  List.foldlM_append

private theorem extend?_digits (n : Nat) : extend? 0 (digits n) = some n := by
  induction n using Nat.strongRecOn with
  | ind n ih =>
    rw [digits, Nat.toDigits_eq_if (by decide)]
    split
    · rename_i hlt
      rw [extend?, List.foldlM_cons, digit?_digitChar hlt]
      simp
    · have hdigit : extend? (n / 16) [(n % 16).digitChar] = some n := by
        rw [extend?, List.foldlM_cons, digit?_digitChar (Nat.mod_lt n (by decide))]
        simp [Nat.div_add_mod]
      rw [extend?_append, ← digits, ih (n / 16) (by omega)]
      exact hdigit

private theorem digits_ne_nil (n : Nat) : digits n ≠ [] := Nat.toDigits_ne_nil

/-- Numbers are written in hexadecimal digits. -/
theorem mem_digits {n : Nat} {c : Char} (h : c ∈ digits n) : ∃ d < 16, c = d.digitChar :=
  exists_digitChar_of_mem_toDigits (by decide) h

private theorem ofDigits?_digits (n : Nat) : ofDigits? (digits n) = some n := by
  rw [ofDigits?, if_neg (by simp [digits_ne_nil]), extend?_digits]

/-- A padded number is read back. -/
theorem ofDigits?_padded (width n : Nat) : ofDigits? (padded width n) = some n := by
  have hzeros : ∀ count, extend? 0 (List.replicate count '0') = some 0 := by
    intro count
    induction count with
    | zero => rfl
    | succ count ih =>
      rw [List.replicate_succ]
      exact ih
  rw [ofDigits?, if_neg (by simp [padded, digits_ne_nil]), padded, extend?_append, hzeros]
  exact extend?_digits n

theorem mem_padded {width n : Nat} {c : Char} (h : c ∈ padded width n) : ∃ d < 16, c = d.digitChar := by
  rcases List.mem_append.1 h with h | h
  · exact ⟨0, by decide, (List.mem_replicate.1 h).2⟩
  · exact mem_digits h

/-- A padded number is as long as it is to be, if it fits. -/
theorem length_padded {width n : Nat} (hwidth : 0 < width) (h : n < 16 ^ width) :
    (padded width n).length = width := by
  have hle : (digits n).length ≤ width := (Nat.length_toDigits_le_iff (by decide) hwidth).2 h
  rw [padded, List.length_append, List.length_replicate]
  omega

theorem ofSigned?_digits (n : Nat) : ofSigned? (digits n) = some n := by
  cases hdigits : digits n with
  | nil => exact absurd hdigits (digits_ne_nil n)
  | cons c cs =>
    obtain ⟨d, hd, rfl⟩ := mem_digits (hdigits ▸ List.mem_cons_self : c ∈ digits n)
    have hplus : ∀ d < 16, Nat.digitChar d ≠ '+' := by decide
    have hsigned : ofSigned? (d.digitChar :: cs) = ofDigits? (d.digitChar :: cs) := by
      unfold ofSigned?
      split
      · rename_i heq
        exact absurd (List.cons.inj heq).1 (hplus d hd)
      · rfl
    rw [hsigned, ← hdigits, ofDigits?_digits]

end Hex

end Ia32Wasm
