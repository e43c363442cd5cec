import Ia32Wasm.Proofs.Machine.Arithmetic

/-!
# Division

A division is about two integers: the dividend, of twice the width of the divisor, and the divisor.  The quotient is
rounded towards zero and the remainder has the sign of the dividend.  Both go into registers of the width of the
divisor, where there may be no room for the quotient.

* `Division.effect` is what a division does to the registers; they then hold the low bits of quotient and remainder
  (`Division.value_quotient`, `Division.value_remainder`).
* The remainder always has the width of the divisor (`Division.leaves_remainder`), so where the quotient has it too,
  the registers stand for these integers (`toInteger_wrap`).
* The quotient of two integers of 64 bits has 64 bits, but for the least one and minus one, and these are operands of
  no division but a signed one of 32 bits (`X86.bits32_of_divisionBy_eq_extreme`).
-/

namespace Ia32Wasm

open X86 (Operand OperandSize)

variable {ω : Type} {signed : Bool} {width n : Nat} {size : OperandSize}

/-! ### Integers with a sign or without -/

/-- The integer that a number of `width` bits stands for, in two's complement if it has a sign. -/
def toInteger (signed : Bool) (width n : Nat) : Int := if signed then toSigned width n else n

/-- An integer is none of those that `width` bits stand for. -/
def leaves (signed : Bool) (width : Nat) (x : Int) : Bool :=
  if signed then leavesSigned width x else leavesUnsigned width x

private theorem leaves_signed_eq_false_iff {x : Int} :
    leaves true width x = false ↔ -(2 ^ (width - 1) : Nat) ≤ x ∧ x < (2 ^ (width - 1) : Nat) := by
  have hcast : ((2 ^ (width - 1) : Nat) : Int) = 2 ^ (width - 1) := Int.natCast_pow 2 _
  rw [leaves, if_pos rfl, leavesSigned, ← hcast, decide_eq_false_iff_not]
  omega

private theorem leaves_unsigned_eq_false_iff {x : Int} :
    leaves false width x = false ↔ 0 ≤ x ∧ x < (2 ^ width : Nat) := by
  have hcast : ((2 ^ width : Nat) : Int) = 2 ^ width := Int.natCast_pow 2 _
  rw [leaves, if_neg Bool.false_ne_true, leavesUnsigned, ← hcast, decide_eq_false_iff_not]
  omega

/-- An integer that is in range is the one that its low bits stand for. -/
theorem toInteger_wrap {x : Int} (hwidth : 0 < width) (h : leaves signed width x = false) :
    toInteger signed width (wrap width x) = x := by
  cases signed with
  | true =>
    have hsame : x = x.bmod (2 ^ width) := by
      rw [leaves, if_pos rfl, leavesSigned_eq hwidth, decide_eq_false_iff_not, not_not] at h
      exact h
    show toSigned width (wrap width x) = x
    rw [toSigned_wrap x (Nat.le_refl width), ← hsame]
  | false =>
    obtain ⟨hlow, hhigh⟩ := leaves_unsigned_eq_false_iff.1 h
    have hcast : ((2 ^ width : Nat) : Int) = 2 ^ width := Int.natCast_pow 2 _
    show (wrap width x : Int) = x
    rw [natCast_wrap, Int.emod_eq_of_lt hlow (by omega)]

/-- What a number stands for is in the range of its width. -/
theorem leaves_toInteger (signed : Bool) (hwidth : 0 < width) (hn : n < 2 ^ width) :
    leaves signed width (toInteger signed width n) = false := by
  cases signed with
  | true =>
    have hsigned := toSigned_eq hwidth hn
    rw [← Nat.two_pow_pred_mul_two hwidth] at hn
    rw [leaves_signed_eq_false_iff]
    show _ ≤ toSigned width n ∧ toSigned width n < _
    split at hsigned <;> omega
  | false =>
    rw [leaves_unsigned_eq_false_iff]
    show (0 : Int) ≤ n ∧ (n : Int) < _
    omega

/-- An integer that fits some bits fits more. -/
theorem leaves_mono {k : Nat} {x : Int} (hk : k ≤ width) (h : leaves signed k x = false) :
    leaves signed width x = false := by
  cases signed with
  | true =>
    have hpow : 2 ^ (k - 1) ≤ 2 ^ (width - 1) := Nat.pow_le_pow_right (by omega) (by omega)
    rw [leaves_signed_eq_false_iff] at h ⊢
    omega
  | false =>
    have hpow : 2 ^ k ≤ 2 ^ width := Nat.pow_le_pow_right (by omega) hk
    rw [leaves_unsigned_eq_false_iff] at h ⊢
    omega

/-- Only zero stands for zero. -/
theorem toInteger_eq_zero_iff (signed : Bool) (hwidth : 0 < width) (hn : n < 2 ^ width) :
    toInteger signed width n = 0 ↔ n = 0 := by
  cases signed with
  | true =>
    have hsigned := toSigned_eq hwidth hn
    rw [← Nat.two_pow_pred_mul_two hwidth] at hn
    show toSigned width n = 0 ↔ n = 0
    split at hsigned <;> omega
  | false =>
    show (n : Int) = 0 ↔ n = 0
    omega

/-! ### Quotient and remainder -/

/-- The integers of a division. -/
structure Division where
  dividend : Int
  divisor : Int
deriving DecidableEq

namespace Division

/-- The quotient, rounded towards zero. -/
def quotient (d : Division) : Int := d.dividend.tdiv d.divisor

/-- The remainder, with the sign of the dividend. -/
def remainder (d : Division) : Int := d.dividend.tmod d.divisor

/-- The least integer of 64 bits divided by minus one, whose quotient has more bits. -/
def extreme : Division := ⟨-2 ^ 63, -1⟩

variable {d : Division}

private theorem natAbs_remainder_lt (h : d.divisor ≠ 0) : d.remainder.natAbs < d.divisor.natAbs := by
  rw [remainder, Int.natAbs_tmod]
  exact Nat.mod_lt _ (by omega)

private theorem remainder_nonneg (h : 0 ≤ d.dividend) : 0 ≤ d.remainder := Int.tmod_nonneg _ h

/-- The remainder is in the range of the divisor. -/
theorem leaves_remainder (hdividend : signed = false → 0 ≤ d.dividend) (h : d.divisor ≠ 0)
    (hdivisor : leaves signed width d.divisor = false) : leaves signed width d.remainder = false := by
  have hlt := natAbs_remainder_lt h
  cases signed with
  | true =>
    rw [leaves_signed_eq_false_iff] at hdivisor ⊢
    omega
  | false =>
    have hnonneg := remainder_nonneg (hdividend rfl)
    rw [leaves_unsigned_eq_false_iff] at hdivisor ⊢
    omega

end Division

/-! ### Registers -/

namespace X86

/-- The number that is divided: `AX`, or the accumulator of the width of the divisor with its extension above it. -/
def dividendNumber (size : OperandSize) (s : Wasm.Store ω) : Nat :=
  if size = .bits8 then (Operand.reg 0 .bits16).value s
  else (Operand.reg 0 size).value s + 2 ^ size.bits * (Operand.reg 2 size).value s

/-- The division by an operand of a width. -/
def divisionBy (signed : Bool) (size : OperandSize) (s : Wasm.Store ω) (divisor : Operand) : Division where
  dividend := toInteger signed (2 * size.bits) (dividendNumber size s)
  divisor := toInteger signed size.bits (divisor.value s)

/-- The place of the remainder: `AH`, or the extension of the accumulator. -/
def remainderPlace (size : OperandSize) : Operand := if size = .bits8 then .reg 4 .bits8 else .reg 2 size

theorem value_reg_lt (s : Wasm.Store ω) (index : UInt8) (size : OperandSize) :
    (Operand.reg index size).value s < 2 ^ size.bits :=
  wordPart_lt _ _ _

/-- A register holds what was assigned to it, as far as there is room. -/
private theorem value_assign_reg (s : Wasm.Store ω) (index : UInt8) (number : Nat) (hsize : size ≠ .bits128) :
    (Operand.reg index size).value ((Operand.reg index size).assign s number) = number % 2 ^ size.bits := by
  have hfits : registerLow index size + size.bits ≤ 32 := by
    cases size with
    | bits8 => rcases ite_eq_or_eq (index.toNat < 4) 0 8 with h | h <;> simp [registerLow, OperandSize.bits, h]
    | bits16 | bits32 => exact Nat.le_of_ble_eq_true rfl
    | bits128 => exact absurd rfl hsize
  show wordPart ((s.set _ (withPart _ _ _ _)).get _) _ _ = _
  rw [Wasm.Store.get_set_self, wordPart_withPart _ _ hfits]

/-- An unsigned dividend is not negative. -/
theorem divisionBy_nonneg (size : OperandSize) (s : Wasm.Store ω) (divisor : Operand) (h : signed = false) :
    0 ≤ (divisionBy signed size s divisor).dividend := by
  subst h
  exact Int.natCast_nonneg _

/-- No dividend of 32 bits or less is the least integer of 64 bits. -/
theorem bits32_of_divisionBy_eq_extreme {s : Wasm.Store ω} {divisor : Operand} (hsize : size ≠ .bits128)
    (h : divisionBy signed size s divisor = .extreme) : signed = true ∧ size = .bits32 := by
  have hdividend : (divisionBy signed size s divisor).dividend = -2 ^ 63 := by
    rw [h]
    rfl
  cases signed with
  | false =>
    have hnonneg := divisionBy_nonneg size s divisor rfl
    omega
  | true =>
    refine ⟨rfl, ?_⟩
    by_contra hne
    have hwidth : 2 * size.bits ≤ 32 := by
      cases size with
      | bits8 | bits16 => decide
      | bits32 => exact absurd rfl hne
      | bits128 => exact absurd rfl hsize
    have hle : (divisionBy true size s divisor).dividend.natAbs ≤ 2 ^ 31 := natAbs_toSigned_le hwidth _
    omega

end X86

namespace Division

/-- The effect of a division by an operand of a width: the low bits of the quotient and of the remainder go into their
registers, and the flags stay as they are. -/
def effect (d : Division) (size : OperandSize) : Effect where
  assigned := [(.reg 0 size, wrap size.bits d.quotient), (X86.remainderPlace size, wrap size.bits d.remainder)]
  flags := fun _ => none

/-- A division changes the places of its quotient and remainder. -/
theorem apply_effect (d : Division) (size : OperandSize) (s : Wasm.Store ω) :
    (d.effect size).apply s = (X86.remainderPlace size).assign
      ((Operand.reg 0 size).assign s (wrap size.bits d.quotient)) (wrap size.bits d.remainder) :=
  Wasm.Store.setFlags_none _

/-- The register of the remainder is apart from that of the quotient, also where they are parts of one word. -/
private theorem value_assign_remainderPlace (s : Wasm.Store ω) (number : Nat) :
    (Operand.reg 0 size).value ((X86.remainderPlace size).assign s number) = (Operand.reg 0 size).value s := by
  by_cases hbyte : size = .bits8
  · subst hbyte
    have hapart : wordPart (withPart (s.get (X86.wideSlot 0)) 8 8 number) 0 8 =
      wordPart (s.get (X86.wideSlot 0)) 0 8 :=
      wordPart_withPart_of_disjoint _ _ (by decide) (.inl (by decide))
    show wordPart ((s.set (X86.wideSlot 0) (withPart _ 8 8 _)).get (X86.wideSlot 0)) 0 8 = wordPart (s.get _) 0 8
    rw [Wasm.Store.get_set_self]
    exact hapart
  · have hplace : X86.remainderPlace size = .reg 2 size := if_neg hbyte
    have hne : X86.registerSlot 0 size ≠ X86.registerSlot 2 size := by
      cases size <;> first | exact absurd rfl hbyte | decide
    rw [hplace]
    show wordPart ((s.set (X86.registerSlot 2 size) _).get (X86.registerSlot 0 size)) _ _ = _
    rw [Wasm.Store.get_set_of_ne _ _ hne]
    rfl

/-- The quotient is where a division leaves it. -/
theorem value_quotient (d : Division) (s : Wasm.Store ω) (hsize : size ≠ .bits128) :
    (Operand.reg 0 size).value ((d.effect size).apply s) = wrap size.bits d.quotient := by
  rw [apply_effect, value_assign_remainderPlace, X86.value_assign_reg _ _ _ hsize, Nat.mod_eq_of_lt (wrap_lt _ _)]

/-- The remainder is where a division leaves it. -/
theorem value_remainder (d : Division) (s : Wasm.Store ω) (hsize : size ≠ .bits128) :
    (X86.remainderPlace size).value ((d.effect size).apply s) = wrap size.bits d.remainder := by
  rw [apply_effect]
  unfold X86.remainderPlace
  split
  · rename_i hbyte
    subst hbyte
    rw [X86.value_assign_reg _ _ _ hsize, Nat.mod_eq_of_lt (wrap_lt _ _)]
  · rw [X86.value_assign_reg _ _ _ hsize, Nat.mod_eq_of_lt (wrap_lt _ _)]

end Division

end Ia32Wasm
