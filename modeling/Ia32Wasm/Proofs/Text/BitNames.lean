import Ia32Wasm.Proofs.Text.Numerals
import Ia32Wasm.Text.BitNames
import Mathlib.Data.Nat.Bitwise

/-!
# Texts of bit sets read back

The text of a bit set reads as the set (`parse?_render`).  Cut at its bars it gives the parts that it was made of,
each in blanks; a part gives the bits that it was written for, and together these are all bits of the set.
-/

namespace Ia32Wasm

/-! ### Words -/

/-- The text has a character, no bar and no blank. -/
def IsWord (cs : List Char) : Prop := cs ≠ [] ∧ ∀ c ∈ cs, c ≠ '|' ∧ isBlank c = false

instance (cs : List Char) : Decidable (IsWord cs) :=
  @instDecidableAnd _ _ _ (List.decidableBAll (fun c => c ≠ '|' ∧ isBlank c = false) cs)

private theorem dropWhile_isBlank {blanks word : List Char} (hword : word ≠ [])
    (hchars : ∀ c ∈ word, isBlank c = false)
    (hblanks : ∀ c ∈ blanks, isBlank c = true) (rest : List Char) :
    (blanks ++ (word ++ rest)).dropWhile isBlank = word ++ rest := by
  obtain ⟨c, cs, rfl⟩ := List.exists_cons_of_ne_nil hword
  have hc : ¬ isBlank c = true := by simp [hchars c List.mem_cons_self]
  rw [List.dropWhile_append_of_pos hblanks, List.cons_append, List.dropWhile_cons_of_neg hc]

private theorem trimBlank_eq {before word behind : List Char} (hword : IsWord word)
    (hbefore : ∀ c ∈ before, isBlank c = true)
    (hbehind : ∀ c ∈ behind, isBlank c = true) : trimBlank (before ++ (word ++ behind)) = word := by
  have hchars : ∀ c ∈ word, isBlank c = false := fun c hc => (hword.2 c hc).2
  have hback : (behind.reverse ++ (word.reverse ++ [])).dropWhile isBlank = word.reverse ++ [] :=
    dropWhile_isBlank (by simpa using hword.1) (by simpa using hchars) (by simpa using hbehind) []
  rw [List.append_nil] at hback
  rw [trimBlank, dropWhile_isBlank hword.1 hchars hbefore, List.reverse_append, hback, List.reverse_reverse]

/-- A key that comes once in a list is looked up. -/
theorem lookup_of_mem {α : Type} {entries : List (String × α)} (hnodup : (entries.map Prod.fst).Nodup) {name : String}
    {a : α} (h : (name, a) ∈ entries) : entries.lookup name = some a := by
  induction entries with
  | nil => cases h
  | cons entry entries ih =>
    obtain ⟨hfirst, hrest⟩ := List.nodup_cons.1 hnodup
    rcases List.mem_cons.1 h with rfl | h
    · exact List.lookup_cons_self
    · have hne : name ≠ entry.1 := by
        rintro rfl
        exact hfirst (List.mem_map.2 ⟨_, h, rfl⟩)
      rw [List.lookup_cons, beq_false_of_ne hne]
      exact ih hrest h

/-! ### Bit sets -/

namespace BitNames

private theorem pieces_of_not_mem {cs : List Char} (h : ∀ c ∈ cs, c ≠ '|') : pieces cs = [cs] := by
  induction cs with
  | nil => rfl
  | cons c cs ih =>
    obtain ⟨hc, hcs⟩ := List.forall_mem_cons.1 h
    rw [pieces, if_neg hc, ih hcs]

private theorem pieces_append_bar {cs : List Char} (h : ∀ c ∈ cs, c ≠ '|') (rest : List Char) :
    pieces (cs ++ '|' :: rest) = cs :: pieces rest := by
  induction cs with
  | nil => rfl
  | cons c cs ih =>
    obtain ⟨hc, hcs⟩ := List.forall_mem_cons.1 h
    rw [List.cons_append, pieces, if_neg hc, ih hcs]

/-- Words joined by a bar between blanks are the pieces between the bars without their blanks. -/
private theorem pieces_intercalate {word : List Char} {words : List (List Char)}
    (hwords : ∀ w ∈ word :: words, IsWord w)
    {blanks : List Char} (hblanks : ∀ c ∈ blanks, c ≠ '|' ∧ isBlank c = true) :
    (pieces (blanks ++ [' ', '|', ' '].intercalate (word :: words))).map trimBlank = word :: words := by
  induction words generalizing word blanks with
  | nil =>
    have hword := hwords word List.mem_cons_self
    have hbars : ∀ c ∈ blanks ++ word, c ≠ '|' := by
      simp only [List.mem_append]
      rintro c (hc | hc)
      · exact (hblanks c hc).1
      · exact (hword.2 c hc).1
    have htrim : trimBlank (blanks ++ (word ++ [])) = word :=
      trimBlank_eq hword (fun c hc => (hblanks c hc).2) (by simp)
    rw [List.append_nil] at htrim
    rw [List.intercalate_singleton, pieces_of_not_mem hbars, List.map_singleton, htrim]
  | cons next words ih =>
    obtain ⟨hword, hrest⟩ := List.forall_mem_cons.1 hwords
    have hsplit : blanks ++ [' ', '|', ' '].intercalate (word :: next :: words) =
        (blanks ++ (word ++ [' '])) ++ '|' :: ([' '] ++ [' ', '|', ' '].intercalate (next :: words)) := by
      simp
    have hbars : ∀ c ∈ blanks ++ (word ++ [' ']), c ≠ '|' := by
      simp only [List.mem_append, List.mem_singleton]
      rintro c (hc | hc | rfl)
      · exact (hblanks c hc).1
      · exact (hword.2 c hc).1
      · decide
    have htrim : trimBlank (blanks ++ (word ++ [' '])) = word :=
      trimBlank_eq hword (fun c hc => (hblanks c hc).2) (List.forall_mem_singleton.2 (by decide))
    rw [hsplit, pieces_append_bar hbars, List.map_cons, htrim,
      ih hrest (List.forall_mem_singleton.2 (by decide))]

/-- A text that starts with a word is not blank. -/
private theorem not_all_isBlank {word : List Char} (hword : IsWord word) (words : List (List Char)) :
    ¬ ([' ', '|', ' '].intercalate (word :: words)).all isBlank = true := by
  obtain ⟨c, cs, rfl⟩ := List.exists_cons_of_ne_nil hword.1
  rw [List.all_eq_true]
  intro hall
  have hc := hall c (by cases words <;> simp)
  rw [(hword.2 c List.mem_cons_self).2] at hc
  cases hc

/-- A table of names that can be told apart from each other, from numerals and from the text around them, each for one
bit. -/
structure Proper (names : BitNames) : Prop where
  words : ∀ entry ∈ names, IsWord entry.1.toList
  unmarked : ∀ entry ∈ names, entry.1.toList.head? ≠ some '0'
  distinct : (names.map Prod.fst).Nodup
  single : ∀ entry ∈ names, entry.2 = 2 ^ entry.2.log2

/-- The parts of the text with their bits. -/
def entries (names : BitNames) (bits : Nat) : BitNames :=
  let rest := bits &&& (bits ^^^ names.named)
  names.filter (fun entry => bits &&& entry.2 == entry.2) ++ if rest = 0 then [] else [(Hex.marked rest, rest)]

private theorem parts_eq (names : BitNames) (bits : Nat) : names.parts bits = (names.entries bits).map Prod.fst := by
  simp only [parts, entries, List.map_append]
  split <;> rfl

private theorem testBit_named (names : BitNames) (i : Nat) :
    names.named.testBit i = names.any fun entry => entry.2.testBit i := by
  have hfold : ∀ all : Nat, (names.foldl (fun (all : Nat) entry => all ||| entry.2) all).testBit i =
      (all.testBit i || names.any fun entry => entry.2.testBit i) := by
    induction names with
    | nil => simp
    | cons entry names ih =>
      intro all
      rw [List.foldl_cons, ih, Nat.testBit_or, List.any_cons, Bool.or_assoc]
  rw [named, hfold, Nat.zero_testBit, Bool.false_or]

variable {names : BitNames} {bits width : Nat}

/-- A name is written for a set exactly if the set has the one bit of the name. -/
private theorem Proper.land_testBit (h : names.Proper) {entry : String × Nat} (hentry : entry ∈ names) (i : Nat) :
    (bits &&& entry.2 == entry.2 && entry.2.testBit i) = (bits.testBit i && entry.2.testBit i) := by
  rw [h.single entry hentry, Nat.testBit_two_pow, Nat.land_comm, Nat.two_pow_and]
  by_cases hi : entry.2.log2 = i
  · subst hi
    cases bits.testBit entry.2.log2 <;> simp [(Nat.two_pow_pos entry.2.log2).ne]
  · simp [hi]

private theorem testBit_named_filter (h : names.Proper) (i : Nat) :
    (named (names.filter fun entry => bits &&& entry.2 == entry.2)).testBit i =
      (bits.testBit i && names.named.testBit i) := by
  rw [testBit_named, testBit_named, List.any_filter, Bool.eq_iff_iff, Bool.and_eq_true, List.any_eq_true,
    List.any_eq_true]
  constructor
  · rintro ⟨entry, hentry, hboth⟩
    rw [h.land_testBit hentry, Bool.and_eq_true] at hboth
    exact ⟨hboth.1, entry, hentry, hboth.2⟩
  · rintro ⟨hbit, entry, hentry, hentrybit⟩
    refine ⟨entry, hentry, ?_⟩
    rw [h.land_testBit hentry, hbit, hentrybit, Bool.and_true]

/-- The parts have all bits of the set and no others. -/
private theorem named_entries (h : names.Proper) : (names.entries bits).named = bits := by
  have hrest : ∀ rest : Nat, named (if rest = 0 then [] else [(Hex.marked rest, rest)]) = rest := by
    intro rest
    split
    · rename_i hzero
      exact hzero.symm
    · exact Nat.zero_or rest
  apply Nat.eq_of_testBit_eq
  intro i
  rw [testBit_named, entries, List.any_append, ← testBit_named, ← testBit_named, testBit_named_filter h, hrest,
    Nat.testBit_and, Nat.testBit_xor]
  cases bits.testBit i <;> cases names.named.testBit i <;> rfl

private theorem isWord_marked (n : Nat) : IsWord (Hex.marked n).toList := by
  have hchars : ∀ d < 16, Nat.digitChar d ≠ '|' ∧ isBlank (Nat.digitChar d) = false := by decide
  refine ⟨by simp [Hex.marked], ?_⟩
  simp only [Hex.marked, String.toList_append, String.toList_ofList, List.mem_append]
  rintro c (hc | hc)
  · revert c
    exact List.forall_mem_cons.2 ⟨by decide, List.forall_mem_singleton.2 (by decide)⟩
  · obtain ⟨d, hd, rfl⟩ := Hex.mem_digits hc
    exact hchars d hd

private theorem isWord_of_mem_entries (h : names.Proper) {entry : String × Nat}
    (hentry : entry ∈ names.entries bits) :
    IsWord entry.1.toList := by
  rcases List.mem_append.1 hentry with hentry | hentry
  · exact h.words entry (List.mem_filter.1 hentry).1
  · split at hentry
    · cases hentry
    · rw [List.mem_singleton.1 hentry]
      exact isWord_marked _

private theorem part?_of_mem_entries (h : names.Proper) (hbits : bits < 2 ^ width) {entry : String × Nat}
    (hentry : entry ∈ names.entries bits) : names.part? width entry.1.toList = some entry.2 := by
  rcases List.mem_append.1 hentry with hentry | hentry
  · have hmem := (List.mem_filter.1 hentry).1
    unfold part?
    split
    · rename_i heq
      exact absurd (by rw [heq]; rfl) (h.unmarked entry hmem)
    · rw [String.ofList_toList]
      exact lookup_of_mem h.distinct hmem
  · split at hentry
    · cases hentry
    · rw [List.mem_singleton.1 hentry]
      have hlt : bits &&& (bits ^^^ names.named) < 1 <<< width := by
        rw [Nat.one_shiftLeft]
        exact Nat.lt_of_le_of_lt Nat.and_le_left hbits
      simp only [Hex.marked, String.toList_append, String.toList_ofList]
      show ((Hex.ofSigned? (Hex.digits _)).filter _) = _
      rw [Hex.ofSigned?_digits, Option.filter_some, if_pos (decide_eq_true hlt)]

/-- The bits of the parts of a text are united. -/
private theorem foldlM_part? {entries : BitNames}
    (h : ∀ entry ∈ entries, names.part? width entry.1.toList = some entry.2) (all : Nat) :
    (entries.map fun entry => entry.1.toList).foldlM
        (fun bits word => (names.part? width word).map (bits ||| ·)) all =
      some (entries.foldl (fun all entry => all ||| entry.2) all) := by
  induction entries generalizing all with
  | nil => rfl
  | cons entry entries ih =>
    obtain ⟨hentry, hrest⟩ := List.forall_mem_cons.1 h
    rw [List.map_cons, List.foldlM_cons, hentry]
    exact ih hrest _

/-- The text of a bit set reads as the set. -/
theorem parse?_render (h : names.Proper) (hbits : bits < 2 ^ width) :
    names.parse? width (names.render bits) = some bits := by
  have htext : (names.render bits).toList =
      [' ', '|', ' '].intercalate ((names.entries bits).map fun entry => entry.1.toList) := by
    simp [render, parts_eq, String.toList_intercalate, Function.comp_def]
  have hfold := foldlM_part? (fun entry => part?_of_mem_entries h hbits) 0
  have hall : (names.entries bits).named = bits := named_entries h
  have hwords : ∀ word ∈ (names.entries bits).map fun entry => entry.1.toList, IsWord word := by
    intro word hword
    obtain ⟨entry, hentry, rfl⟩ := List.mem_map.1 hword
    exact isWord_of_mem_entries h hentry
  rw [parse?, htext]
  rw [named] at hall
  rw [hall] at hfold
  cases hentries : (names.entries bits).map fun entry => entry.1.toList with
  | nil =>
    rw [hentries] at hfold
    exact hfold
  | cons word words =>
    rw [hentries] at hfold hwords
    have hpieces : (pieces ([] ++ [' ', '|', ' '].intercalate (word :: words))).map trimBlank = word :: words :=
      pieces_intercalate hwords (by simp)
    rw [← hpieces, List.foldlM_map] at hfold
    rw [if_neg (not_all_isBlank (hwords word List.mem_cons_self) words)]
    exact hfold

end BitNames

end Ia32Wasm
