import Ia32Wasm.Proofs.Machine.Operands

/-!
# Words and their parts

Code works on words where the meaning of operands is told by numbers: a mask cuts a word to the bits of a width, a
mask and a shift take a part out of a word, and a cleared part and a shifted number put one in.
-/

namespace Ia32Wasm

open X86 (OperandSize)

/-! ### Masks -/

namespace X86.OperandSize

variable {size : OperandSize}

/-- Scalars have at most 32 bits. -/
theorem bits_le (h : size ≠ .bits128) : size.bits ≤ 32 := by cases size <;> first | decide | exact absurd rfl h

/-- Scalars have 8, 16 or 32 bits. -/
theorem bits_mem (h : size ≠ .bits128) : size.bits ∈ [8, 16, 32] := by
  cases size <;> first | decide | exact absurd rfl h

theorem bits_pos (size : OperandSize) : 0 < size.bits := by cases size <;> decide

private theorem toNat_mask (h : size ≠ .bits128) : size.mask.toNat = 2 ^ size.bits - 1 := by
  cases size <;> first | rfl | exact absurd rfl h

/-- The mask of a size keeps its low bits. -/
theorem toNat_and_mask (word : UInt32) (h : size ≠ .bits128) :
    (word &&& size.mask).toNat = word.toNat % 2 ^ size.bits := by
  rw [UInt32.toNat_and, toNat_mask h, Nat.and_two_pow_sub_one_eq_mod]

end X86.OperandSize

/-! ### Wrapping around -/

/-- The low bits of an integer are its remainder. -/
theorem natCast_wrap (width : Nat) (x : Int) : (wrap width x : Int) = x % 2 ^ width :=
  Int.toNat_of_nonneg (Int.emod_nonneg x (Int.ne_of_gt (Int.pow_pos (by omega))))

theorem wrap_lt (width : Nat) (x : Int) : wrap width x < 2 ^ width := by
  have hcast : ((2 ^ width : Nat) : Int) = 2 ^ width := Int.natCast_pow 2 width
  have hlt : x % 2 ^ width < 2 ^ width := Int.emod_lt_of_pos x (Int.pow_pos (by omega))
  have hwrap := natCast_wrap width x
  omega

/-- A natural number wraps around to its remainder. -/
theorem wrap_natCast (width n : Nat) : wrap width n = n % 2 ^ width := by
  have hcast : ((2 ^ width : Nat) : Int) = 2 ^ width := Int.natCast_pow 2 width
  have hwrap := natCast_wrap width n
  rw [← hcast, ← Int.natCast_emod] at hwrap
  exact Int.ofNat_inj.1 hwrap

/-- Low bits of sums are sums of low bits. -/
theorem wrap_add (width : Nat) (a b : Int) : (wrap width a + wrap width b) % 2 ^ width = wrap width (a + b) := by
  apply Int.ofNat_inj.1
  rw [Int.natCast_emod, Int.natCast_add, natCast_wrap, natCast_wrap, natCast_wrap, Int.natCast_pow]
  exact (Int.add_emod a b _).symm

/-- Low bits of products are products of low bits. -/
theorem wrap_mul (width : Nat) (a b : Int) : wrap width a * wrap width b % 2 ^ width = wrap width (a * b) := by
  apply Int.ofNat_inj.1
  rw [Int.natCast_emod, Int.natCast_mul, natCast_wrap, natCast_wrap, natCast_wrap, Int.natCast_pow]
  exact (Int.mul_emod a b _).symm

theorem wrap_bmod (width : Nat) (x : Int) : wrap width (x.bmod (2 ^ width)) = wrap width x := by
  have hcast : ((2 ^ width : Nat) : Int) = 2 ^ width := Int.natCast_pow 2 width
  rw [wrap, wrap, ← hcast, Int.bmod_emod]

/-! ### Parts -/

private theorem toNat_shiftCount {low : Nat} (h : low < 32) : (UInt32.ofNat low).toNat % 32 = low := by
  have hword : low % 2 ^ 32 = low := Nat.mod_eq_of_lt (by omega)
  rw [UInt32.toNat_ofNat', hword, Nat.mod_eq_of_lt h]

theorem wordPart_lt (word : UInt32) (low width : Nat) : wordPart word low width < 2 ^ width :=
  Nat.mod_lt _ (Nat.two_pow_pos width)

/-- Part of a word is taken by a shift and a mask. -/
theorem toNat_shiftRight_and_mask (word : UInt32) {size : OperandSize} {low : Nat} (hsize : size ≠ .bits128)
    (hlow : low < 32) : ((word >>> UInt32.ofNat low) &&& size.mask).toNat = wordPart word low size.bits := by
  rw [OperandSize.toNat_and_mask _ hsize, UInt32.toNat_shiftRight, toNat_shiftCount hlow, Nat.shiftRight_eq_div_pow,
    wordPart]

/-- One bit of a word, taken out by a shift. -/
theorem shiftRight_and_one (word : UInt32) {bit : Nat} (h : bit < 32) :
    (word >>> UInt32.ofNat bit) &&& 1 = if word.toNat.testBit bit then 1 else 0 := by
  apply UInt32.toNat_inj.1
  rw [UInt32.toNat_and, UInt32.toNat_shiftRight, toNat_shiftCount h, Nat.shiftRight_eq_div_pow,
    Nat.testBit_eq_decide_div_mod_eq]
  show word.toNat / 2 ^ bit &&& 1 = _
  rw [Nat.and_one_is_mod]
  split <;> simp_all

/-- To replace part of a word keeps the bits outside it. -/
theorem testBit_withPart {low width : Nat} (word : UInt32) (number : Nat) (h : low + width ≤ 32) (j : Nat) :
    (withPart word low width number).toNat.testBit j =
      if low ≤ j ∧ j < low + width then number.testBit (j - low) else word.toNat.testBit j := by
  have hlow : word.toNat % 2 ^ low < 2 ^ low := Nat.mod_lt _ (Nat.two_pow_pos low)
  have hnumber : number % 2 ^ width < 2 ^ width := Nat.mod_lt _ (Nat.two_pow_pos width)
  rw [withPart, UInt32.toNat_ofNat', Nat.testBit_mod_two_pow, Nat.add_comm, Nat.testBit_two_pow_mul_add _ hlow,
    Nat.add_comm (number % 2 ^ width), Nat.testBit_two_pow_mul_add _ hnumber, Nat.testBit_mod_two_pow,
    Nat.testBit_mod_two_pow, Nat.testBit_div_two_pow]
  by_cases hbelow : j < low
  · have hj : j < 32 := by omega
    simp [hbelow, hj, Nat.not_le.2 hbelow]
  · by_cases hinside : j < low + width
    · have hj : j < 32 := by omega
      have hoffset : j - low < width := by omega
      simp [hbelow, hj, hinside, hoffset, Nat.not_lt.1 hbelow]
    · have hoffset : ¬ j - low < width := by omega
      have hsum : j - low - width + (low + width) = j := by omega
      by_cases hj : j < 32
      · simp [hbelow, hj, hinside, hoffset, hsum]
      · have hhigh : word.toNat.testBit j = false :=
          Nat.testBit_lt_two_pow (Nat.lt_of_lt_of_le word.toNat_lt (Nat.pow_le_pow_right (by omega) (by omega)))
        simp [hj, hinside, hhigh]

/-- The bits of part of a word are those of the word, from its lowest on. -/
theorem testBit_wordPart (word : UInt32) (low width j : Nat) :
    (wordPart word low width).testBit j = (decide (j < width) && word.toNat.testBit (low + j)) := by
  rw [wordPart, Nat.testBit_mod_two_pow, Nat.testBit_div_two_pow, Nat.add_comm]

/-- What was put into a part of a word is there. -/
theorem wordPart_withPart {low width : Nat} (word : UInt32) (number : Nat) (h : low + width ≤ 32) :
    wordPart (withPart word low width number) low width = number % 2 ^ width := by
  apply Nat.eq_of_testBit_eq
  intro j
  rw [testBit_wordPart, testBit_withPart word number h, Nat.testBit_mod_two_pow]
  by_cases hj : j < width
  · have hinside : low ≤ low + j ∧ low + j < low + width := by omega
    rw [if_pos hinside, Nat.add_sub_cancel_left]
  · simp [hj]

/-- The other parts of a word stay as they are. -/
theorem wordPart_withPart_of_disjoint {low width low' width' : Nat} (word : UInt32) (number : Nat)
    (h : low + width ≤ 32) (hdisjoint : low' + width' ≤ low ∨ low + width ≤ low') :
    wordPart (withPart word low width number) low' width' = wordPart word low' width' := by
  apply Nat.eq_of_testBit_eq
  intro j
  rw [testBit_wordPart, testBit_withPart word number h, testBit_wordPart]
  by_cases hj : j < width'
  · have houtside : ¬ (low ≤ low' + j ∧ low' + j < low + width) := by omega
    rw [if_neg houtside]
  · simp [hj]

/-- All bits of a word are replaced at once. -/
theorem withPart_zero (word v : UInt32) : withPart word 0 32 v.toNat = v := by
  apply UInt32.toNat_inj.1
  apply Nat.eq_of_testBit_eq
  intro j
  rw [testBit_withPart word v.toNat (by omega)]
  by_cases hj : j < 32
  · simp [hj]
  · have hhigh : ∀ w : UInt32, w.toNat.testBit j = false := fun w =>
      Nat.testBit_lt_two_pow (Nat.lt_of_lt_of_le w.toNat_lt (Nat.pow_le_pow_right (by omega) (by omega)))
    simp [hj, hhigh]

/-- A number is put into a part of a word that is cleared before. -/
theorem or_shiftLeft_eq_withPart (word v : UInt32) {size : OperandSize} {low : Nat} (hsize : size ≠ .bits128)
    (hlow : low + size.bits ≤ 32)
    (hcleared : ∀ j < 32, (~~~(size.mask <<< UInt32.ofNat low)).toNat.testBit j =
      !decide (low ≤ j ∧ j < low + size.bits)) :
    word &&& ~~~(size.mask <<< UInt32.ofNat low) ||| (v &&& size.mask) <<< UInt32.ofNat low =
      withPart word low size.bits v.toNat := by
  have hpos := size.bits_pos
  apply UInt32.toNat_inj.1
  apply Nat.eq_of_testBit_eq
  intro j
  rw [testBit_withPart word v.toNat hlow, UInt32.toNat_or, UInt32.toNat_and, Nat.testBit_or, Nat.testBit_and,
    UInt32.toNat_shiftLeft, toNat_shiftCount (by omega), OperandSize.toNat_and_mask v hsize, Nat.testBit_mod_two_pow,
    Nat.testBit_shiftLeft, Nat.testBit_mod_two_pow]
  by_cases hj : j < 32
  · rw [hcleared j hj]
    by_cases hinside : low ≤ j ∧ j < low + size.bits
    · have hoffset : j - low < size.bits := by omega
      simp [hinside, hj, hoffset]
    · have houtside : low ≤ j → ¬ j - low < size.bits := by omega
      by_cases hbelow : low ≤ j
      · simp [hinside, houtside hbelow]
      · simp [hbelow]
  · have hinside : ¬ (low ≤ j ∧ j < low + size.bits) := by omega
    have hhigh : word.toNat.testBit j = false :=
      Nat.testBit_lt_two_pow (Nat.lt_of_lt_of_le word.toNat_lt (Nat.pow_le_pow_right (by omega) (by omega)))
    simp [hj, hinside, hhigh]

end Ia32Wasm
