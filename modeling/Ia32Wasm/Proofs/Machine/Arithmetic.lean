import Ia32Wasm.Proofs.Machine.Words
import Ia32Wasm.Proofs.X86.Widths

/-!
# Results of arithmetic

What arithmetic instructions compute, told by integers: a sum, difference or product is computed exactly, the result
is what it wraps around to, and the flags say where the exact number is out of range.

* A `Result` is a number and a change of flags; `BinaryOp.result`, `UnaryOp.result`, `ShiftOp.result` and
  `Result.product` are those of the operations.
* `BinaryOp.effect` and its like are what instructions do to their operands with such results.
* The lemmas read carries and overflows off the bits of the numbers, as code does (`leavesSigned_add`,
  `leavesUnsigned_four_add` and their like), and say which integer a word stands for whose sign has been extended
  (`toInt_signedWord`).
-/

namespace Ia32Wasm

open Machine (Flag Slot)
open X86 (BinaryOp Operand OperandSize ShiftOp UnaryOp)

/-! ### Integers -/

/-- The integer that a number of `width` bits stands for in two's complement. -/
def toSigned (width n : Nat) : Int := (n : Int).bmod (2 ^ width)

/-- An integer is none of the numbers of `width` bits. -/
def leavesUnsigned (width : Nat) (x : Int) : Bool := decide (x < 0 ∨ 2 ^ width ≤ x)

/-- An integer is none of those that `width` bits stand for in two's complement. -/
def leavesSigned (width : Nat) (x : Int) : Bool := decide (x < -2 ^ (width - 1) ∨ 2 ^ (width - 1) ≤ x)

/-- The number of bits that are set in the low byte is even. -/
def evenParity (n : Nat) : Bool := (List.range 8).countP n.testBit % 2 == 0

/-! ### Results -/

/-- The number that an operation computes, and the flags that it changes. -/
structure Result where
  number : Nat
  flags : Flag → Option Bool

namespace Result

/-- The flags that say what a number of `width` bits is like. -/
def status (width n : Nat) : Flag → Option Bool
  | .zf => some (n == 0)
  | .sf => some (decide (toSigned width n < 0))
  | .pf => some (evenParity n)
  | _ => none

/-- The result of an operation that integers have: CF, OF and AF say that the exact number is out of range, taken of
the numbers, of the integers they stand for, and of their low four bits. -/
def exact (width : Nat) (f : Int → Int → Int) (a b : Nat) : Result where
  number := wrap width (f a b)
  flags
    | .cf => some (leavesUnsigned width (f a b))
    | .of => some (leavesSigned width (f (toSigned width a) (toSigned width b)))
    | .af => some (leavesUnsigned 4 (f ↑(a % 16) ↑(b % 16)))
    | g => status width (wrap width (f a b)) g

/-- The result of a bitwise operation, which clears CF, OF and AF. -/
def bitwise (width n : Nat) : Result where
  number := n
  flags
    | .cf | .of | .af => some false
    | g => status width n g

/-- The result with CF left as it is. -/
def keepingCarry (r : Result) : Result := { r with flags := fun g => if g = .cf then none else r.flags g }

end Result

/-- The result of a binary operation on numbers of `width` bits. -/
def X86.BinaryOp.result (op : BinaryOp) (width carry a b : Nat) : Result :=
  match op with
  | .add => .exact width (fun x y => x + y) a b
  | .adc => .exact width (fun x y => x + y + carry) a b
  | .sub | .cmp => .exact width (fun x y => x - y) a b
  | .sbb => .exact width (fun x y => x - y - carry) a b
  | .and | .test => .bitwise width (a &&& b)
  | .or => .bitwise width (a ||| b)
  | .xor => .bitwise width (a ^^^ b)

/-- The result of a unary operation on a number of `width` bits. -/
def X86.UnaryOp.result (op : UnaryOp) (width a : Nat) : Result :=
  match op with
  | .inc => (Result.exact width (fun x y => x + y) a 1).keepingCarry
  | .dec => (Result.exact width (fun x y => x - y) a 1).keepingCarry
  | .neg => .exact width (fun x y => x - y) 0 a
  | .not => ⟨2 ^ width - 1 - a, fun _ => none⟩

/-- The number of `width` bits that a shift by some bits leaves; to the right, the sign bit is taken along by
`sar`. -/
def X86.ShiftOp.number (op : ShiftOp) (width a count : Nat) : Nat :=
  match op with
  | .shl => wrap width (a * 2 ^ count)
  | .shr => wrap width (a / 2 ^ count)
  | .sar => wrap width (toSigned width a / 2 ^ count)

/-- The last bit that a shift by some bits moves out of a number of `width` bits. -/
def X86.ShiftOp.lastBit (op : ShiftOp) (width a count : Nat) : Bool :=
  match op with
  | .shl => decide (count ≤ width) && a.testBit (width - count)
  | .shr => decide (count ≤ width) && a.testBit (count - 1)
  | .sar => a.testBit (min (count - 1) (width - 1))

/-- OF after a shift: to the left, whether the sign has changed at last; to the right, the sign there was. -/
def X86.ShiftOp.overflow (op : ShiftOp) (width a count : Nat) : Bool :=
  match op with
  | .shl => (op.number width a count).testBit (width - 1) ^^ op.lastBit width a count
  | .shr => a.testBit (width - 1)
  | .sar => false

/-- The result of a shift, whose count is taken modulo 32; a shift by zero changes no flags. -/
def X86.ShiftOp.result (op : ShiftOp) (width a count : Nat) : Result where
  number := op.number width a (count % 32)
  flags g :=
    if count % 32 = 0 then none
    else
      match g with
      | .cf => some (op.lastBit width a (count % 32))
      | .of => some (op.overflow width a (count % 32))
      | g => Result.status width (op.number width a (count % 32)) g

/-- The product of two numbers of `width` bits, or of the integers that they stand for in two's complement. -/
def exactProduct (signed : Bool) (width a b : Nat) : Int :=
  if signed then toSigned width a * toSigned width b else a * b

/-- The product of two numbers of `width` bits, in twice as many bits; CF and OF say that it needs more than
`width`. -/
def Result.product (signed : Bool) (width a b : Nat) : Result where
  number := wrap (2 * width) (exactProduct signed width a b)
  flags
    | .cf | .of =>
      some ((if signed then leavesSigned else leavesUnsigned) width (exactProduct signed width a b))
    | _ => none

/-! ### Effects of instructions -/

namespace X86

variable {ω : Type}

/-- The effect of a binary operation on two operands of a width, the first of which is the destination if there is
one. -/
def BinaryOp.effect (op : BinaryOp) (size : OperandSize) (s : Wasm.Store ω) (first second : Operand) : Effect :=
  let result := op.result size.bits (s.get (.flag .cf)).toNat (first.value s) (second.value s)
  ⟨if op.writes then [(first, result.number)] else [], result.flags⟩

/-- The effect of a unary operation on an operand of a width. -/
def UnaryOp.effect (op : UnaryOp) (size : OperandSize) (s : Wasm.Store ω) (operand : Operand) : Effect :=
  let result := op.result size.bits (operand.value s)
  ⟨[(operand, result.number)], result.flags⟩

/-- The effect of a compare and exchange on operands of a width: the source goes into the destination if the
accumulator is equal to the destination, and else the destination goes into the accumulator. -/
def exchangeEffect (size : OperandSize) (s : Wasm.Store ω) (destination source : Operand) : Effect :=
  let accumulator := Operand.reg 0 size
  let a := accumulator.value s
  let b := destination.value s
  ⟨[if a = b then (destination, source.value s) else (accumulator, b)],
    (Result.exact size.bits (fun x y => x - y) a b).flags⟩

/-- The effect of a shift of an operand of a width. -/
def ShiftOp.effect (op : ShiftOp) (size : OperandSize) (s : Wasm.Store ω) (destination count : Operand) : Effect :=
  let result := op.result size.bits (destination.value s) (count.value s)
  ⟨[(destination, result.number)], result.flags⟩

/-- Where a number of twice a width goes: into `AX`, or the low half into the accumulator of the width and the high
half into its extension. -/
def accumulatorParts (size : OperandSize) (number : Nat) : List (Operand × Nat) :=
  if size = .bits8 then [(.reg 0 .bits16, number)]
  else [(.reg 0 size, number % 2 ^ size.bits), (.reg 2 size, number / 2 ^ size.bits)]

/-- The effect of a product of the accumulator and an operand of a width. -/
def accumulatorProduct (signed : Bool) (size : OperandSize) (s : Wasm.Store ω) (source : Operand) : Effect :=
  let result := Result.product signed size.bits ((Operand.reg 0 size).value s) (source.value s)
  ⟨accumulatorParts size result.number, result.flags⟩

/-- The effect of a signed product of two operands of a width into a third of this width. -/
def productInto (size : OperandSize) (s : Wasm.Store ω) (destination lhs rhs : Operand) : Effect :=
  let result := Result.product true size.bits (lhs.value s) (rhs.value s)
  ⟨[(destination, result.number % 2 ^ size.bits)], result.flags⟩

end X86

/-! ### Ranges in bits -/

variable {width a b c : Nat}

/-- The highest bit says that a number stands for a negative integer. -/
theorem testBit_top (hwidth : 0 < width) (ha : a < 2 ^ width) :
    a.testBit (width - 1) = decide (2 ^ (width - 1) ≤ a) := by
  rw [← Nat.two_pow_pred_mul_two hwidth] at ha
  rw [Nat.testBit_eq_decide_div_mod_eq]
  have hlt : a / 2 ^ (width - 1) < 2 := Nat.div_lt_of_lt_mul (by omega)
  have hle : 1 ≤ a / 2 ^ (width - 1) ↔ 2 ^ (width - 1) ≤ a := by
    rw [Nat.le_div_iff_mul_le (Nat.two_pow_pos _), Nat.one_mul]
  rw [decide_eq_decide, ← hle]
  generalize a / 2 ^ (width - 1) = quotient at hlt ⊢
  omega

/-- Numbers from the middle of the range on stand for negative integers. -/
theorem toSigned_eq (hwidth : 0 < width) (ha : a < 2 ^ width) :
    toSigned width a = if 2 ^ (width - 1) ≤ a then (a : Int) - 2 * (2 ^ (width - 1) : Nat) else a := by
  rw [toSigned, Int.bmod, ← Int.natCast_emod, Nat.mod_eq_of_lt ha]
  rw [← Nat.two_pow_pred_mul_two hwidth] at ha ⊢
  generalize 2 ^ (width - 1) = half at ha ⊢
  split <;> split <;> omega

/-- A number stands for a negative integer in the upper half of the range. -/
theorem toSigned_neg_iff (hwidth : 0 < width) (ha : a < 2 ^ width) : toSigned width a < 0 ↔ 2 ^ (width - 1) ≤ a := by
  have hsigned := toSigned_eq hwidth ha
  rw [← Nat.two_pow_pred_mul_two hwidth] at ha
  split at hsigned <;> omega

/-- The low bits of what an integer wraps around to do not depend on the width. -/
theorem wrap_mod_two_pow {k : Nat} (x : Int) (h : k ≤ width) : wrap width x % 2 ^ k = wrap k x := by
  have hdvd : (2 : Int) ^ k ∣ 2 ^ width := by exact_mod_cast Nat.pow_dvd_pow 2 h
  apply Int.ofNat_inj.1
  rw [Int.natCast_emod, natCast_wrap, natCast_wrap, Int.natCast_pow]
  exact Int.emod_emod_of_dvd x hdvd

private theorem testBit_wrap {j k : Nat} (x : Int) (hj : j < k) (h : k ≤ width) :
    (wrap width x).testBit j = (wrap k x).testBit j := by
  rw [← wrap_mod_two_pow x h, Nat.testBit_mod_two_pow, decide_eq_true hj, Bool.true_and]

/-- The result of a binary operation has the width of its sources. -/
theorem X86.BinaryOp.number_lt (op : BinaryOp) (carry : Nat) (ha : a < 2 ^ width) (hb : b < 2 ^ width) :
    (op.result width carry a b).number < 2 ^ width := by
  cases op with
  | add => exact wrap_lt width (a + b)
  | adc => exact wrap_lt width (a + b + carry)
  | sub | cmp => exact wrap_lt width (a - b)
  | sbb => exact wrap_lt width (a - b - carry)
  | and | test => exact Nat.and_lt_two_pow _ hb
  | or => exact Nat.or_lt_two_pow ha hb
  | xor => exact Nat.xor_lt_two_pow ha hb

theorem X86.ShiftOp.number_lt (op : ShiftOp) (width a count : Nat) : op.number width a count < 2 ^ width := by
  cases op <;> exact wrap_lt width _

/-- A word that an integer wraps around to, cut to a width. -/
theorem toNat_and_mask_eq_wrap {v : UInt32} {x : Int} {size : OperandSize} (hsize : size ≠ .bits128)
    (h : v.toNat = wrap 32 x) : (v &&& size.mask).toNat = wrap size.bits x := by
  rw [OperandSize.toNat_and_mask v hsize, h, wrap_mod_two_pow x (OperandSize.bits_le hsize)]

/-- An integer that is out of range by less than the range wraps around once. -/
theorem wrap_of_near (width : Nat) {x : Int} (hlow : -(2 ^ width : Nat) ≤ x) (hhigh : x < 2 * (2 ^ width : Nat)) :
    (wrap width x : Int) =
      if x < 0 then x + (2 ^ width : Nat) else if x < (2 ^ width : Nat) then x else x - (2 ^ width : Nat) := by
  have hcast : ((2 ^ width : Nat) : Int) = 2 ^ width := Int.natCast_pow 2 width
  rw [natCast_wrap, ← hcast]
  split
  · rw [← Int.add_emod_right, Int.emod_eq_of_lt (by omega) (by omega)]
  · split
    · exact Int.emod_eq_of_lt (by omega) (by omega)
    · rw [← Int.sub_emod_right, Int.emod_eq_of_lt (by omega) (by omega)]

/-- The low bits of an integer stand for its balanced remainder. -/
theorem toSigned_wrap {k : Nat} (x : Int) (h : k ≤ width) : toSigned k (wrap width x) = x.bmod (2 ^ k) := by
  have hdvd : ((2 ^ k : Nat) : Int) ∣ 2 ^ width := by exact_mod_cast Nat.pow_dvd_pow 2 h
  rw [toSigned, natCast_wrap, ← Int.emod_bmod, Int.emod_emod_of_dvd x hdvd, Int.emod_bmod]

/-- An integer is out of range when the integer that its low bits stand for is another one. -/
theorem leavesSigned_eq (hwidth : 0 < width) (x : Int) :
    leavesSigned width x = decide (x ≠ x.bmod (2 ^ width)) := by
  have hcast : ((2 ^ (width - 1) : Nat) : Int) = 2 ^ (width - 1) := Int.natCast_pow 2 _
  have hdouble := Nat.two_pow_pred_mul_two hwidth
  have hbmod : x.bmod (2 ^ width) = x ↔ -(2 ^ (width - 1) : Nat) ≤ x ∧ x < (2 ^ (width - 1) : Nat) := by
    rw [Int.bmod_eq_iff (Nat.two_pow_pos _), ← hdouble]
    have hself : ((2 ^ (width - 1) * 2 : Nat) : Int) ∣ x - x := by simp
    constructor
    · rintro ⟨hlow, hhigh, -⟩
      omega
    · intro h
      exact ⟨by omega, by omega, hself⟩
  rw [leavesSigned, ← hcast, decide_eq_decide, ne_eq, eq_comm, hbmod]
  omega

/-- Integers of at most 32 bits have at most half of the range as their magnitude. -/
theorem natAbs_toSigned_le (hwidth : width ≤ 32) (n : Nat) : (toSigned width n).natAbs ≤ 2 ^ 31 := by
  have hpow : 2 ^ width ≤ 2 ^ 32 := Nat.pow_le_pow_right (by omega) hwidth
  have hlow : -(((2 ^ width : Nat) : Int) / 2) ≤ toSigned width n := Int.le_bmod (Nat.two_pow_pos _)
  have hhigh : toSigned width n < (((2 ^ width : Nat) : Int) + 1) / 2 := Int.bmod_lt (Nat.two_pow_pos _)
  omega

/-- A sum of integers is out of range when both have a sign that the result has not. -/
theorem leavesSigned_add (hwidth : 0 < width) (ha : a < 2 ^ width) (hb : b < 2 ^ width) (hc : c ≤ 1) :
    leavesSigned width (toSigned width a + toSigned width b + c) =
      ((a.testBit (width - 1) ^^ (wrap width (a + b + c)).testBit (width - 1)) &&
        (b.testBit (width - 1) ^^ (wrap width (a + b + c)).testBit (width - 1))) := by
  have hr := wrap_lt width (a + b + c)
  have hwrap := wrap_of_near width (x := a + b + c) (by omega) (by omega)
  have hsa := toSigned_eq hwidth ha
  have hsb := toSigned_eq hwidth hb
  have hcast : ((2 ^ (width - 1) : Nat) : Int) = 2 ^ (width - 1) := Int.natCast_pow 2 _
  rw [testBit_top hwidth ha, testBit_top hwidth hb, testBit_top hwidth hr, leavesSigned, ← hcast]
  rw [← Nat.two_pow_pred_mul_two hwidth] at ha hb hr hwrap
  generalize wrap width (a + b + c) = r at hr hwrap ⊢
  generalize toSigned width a = x at hsa ⊢
  generalize toSigned width b = y at hsb ⊢
  generalize 2 ^ (width - 1) = half at *
  rw [Bool.eq_iff_iff]
  simp only [decide_eq_true_eq, Bool.and_eq_true, bne_iff_ne, ne_eq, decide_eq_decide]
  grind

/-- A difference of integers is out of range when the first has a sign that neither the second nor the result has. -/
theorem leavesSigned_sub (hwidth : 0 < width) (ha : a < 2 ^ width) (hb : b < 2 ^ width) (hc : c ≤ 1) :
    leavesSigned width (toSigned width a - toSigned width b - c) =
      ((a.testBit (width - 1) ^^ b.testBit (width - 1)) &&
        (a.testBit (width - 1) ^^ (wrap width (a - b - c)).testBit (width - 1))) := by
  have hr := wrap_lt width (a - b - c)
  have hwrap := wrap_of_near width (x := a - b - c) (by omega) (by omega)
  have hsa := toSigned_eq hwidth ha
  have hsb := toSigned_eq hwidth hb
  have hcast : ((2 ^ (width - 1) : Nat) : Int) = 2 ^ (width - 1) := Int.natCast_pow 2 _
  rw [testBit_top hwidth ha, testBit_top hwidth hb, testBit_top hwidth hr, leavesSigned, ← hcast]
  rw [← Nat.two_pow_pred_mul_two hwidth] at ha hb hr hwrap
  generalize wrap width (a - b - c) = r at hr hwrap ⊢
  generalize toSigned width a = x at hsa ⊢
  generalize toSigned width b = y at hsb ⊢
  generalize 2 ^ (width - 1) = half at *
  rw [Bool.eq_iff_iff]
  simp only [decide_eq_true_eq, Bool.and_eq_true, bne_iff_ne, ne_eq, decide_eq_decide]
  grind

private theorem testBit_four (n : Nat) : n.testBit 4 = decide (16 ≤ n % 32) := by
  have hlow : (n % 2 ^ 5).testBit 4 = n.testBit 4 := by rw [Nat.testBit_mod_two_pow]; rfl
  rw [← hlow]
  exact testBit_top (by omega) (Nat.mod_lt n (Nat.two_pow_pos 5))

/-- A carry out of the low four bits shows in the bit above them. -/
theorem leavesUnsigned_four_add (hwidth : 5 ≤ width) (hc : c ≤ 1) :
    leavesUnsigned 4 (↑(a % 16) + ↑(b % 16) + c) =
      (a.testBit 4 ^^ b.testBit 4 ^^ (wrap width (a + b + c)).testBit 4) := by
  have hwrap : (wrap 5 (a + b + c) : Int) = (a + b + c) % 32 := natCast_wrap 5 _
  rw [testBit_wrap _ (Nat.lt_succ_self 4) hwidth, leavesUnsigned, testBit_four a, testBit_four b, testBit_four]
  generalize wrap 5 (a + b + c) = r at hwrap ⊢
  by_cases ha : 16 ≤ a % 32 <;> by_cases hb : 16 ≤ b % 32 <;>
    simp only [ha, hb, decide_true, decide_false, Bool.xor_true, Bool.xor_false, Bool.not_true, Bool.not_false,
      Bool.true_xor, Bool.false_xor, ← decide_not, decide_eq_decide] <;> omega

/-- A borrow into the low four bits shows in the bit above them. -/
theorem leavesUnsigned_four_sub (hwidth : 5 ≤ width) (hc : c ≤ 1) :
    leavesUnsigned 4 (↑(a % 16) - ↑(b % 16) - c) =
      (a.testBit 4 ^^ b.testBit 4 ^^ (wrap width (a - b - c)).testBit 4) := by
  have hwrap : (wrap 5 (a - b - c) : Int) = (a - b - c) % 32 := natCast_wrap 5 _
  rw [testBit_wrap _ (Nat.lt_succ_self 4) hwidth, leavesUnsigned, testBit_four a, testBit_four b, testBit_four]
  generalize wrap 5 (a - b - c) = r at hwrap ⊢
  by_cases ha : 16 ≤ a % 32 <;> by_cases hb : 16 ≤ b % 32 <;>
    simp only [ha, hb, decide_true, decide_false, Bool.xor_true, Bool.xor_false, Bool.not_true, Bool.not_false,
      Bool.true_xor, Bool.false_xor, ← decide_not, decide_eq_decide] <;> omega

/-! ### Signed words -/

/-- A word whose bits beyond a width are replaced by the highest bit of the width. -/
def signedWord (size : OperandSize) (word : UInt32) : UInt32 :=
  .ofBitVec ((word.toBitVec.setWidth size.bits).signExtend 32)

/-- Such a word stands for the integer that its low bits stand for. -/
theorem toInt_signedWord {size : OperandSize} (word : UInt32) (hsize : size ≠ .bits128) :
    (signedWord size word).toInt32.toInt = toSigned size.bits word.toNat := by
  show ((word.toBitVec.setWidth size.bits).signExtend 32).toInt = _
  rw [BitVec.toInt_signExtend_of_le (OperandSize.bits_le hsize), BitVec.toInt_setWidth]
  rfl

/-- A word is extended by repeating its highest bit. -/
theorem testBit_signedWord (size : OperandSize) (word : UInt32) {k : Nat} (hk : k < 32) :
    (signedWord size word).toNat.testBit k = word.toNat.testBit (min k (size.bits - 1)) := by
  have hpos := size.bits_pos
  show ((word.toBitVec.setWidth size.bits).signExtend 32).getLsbD k = word.toBitVec.getLsbD (min k (size.bits - 1))
  rw [BitVec.getLsbD_signExtend, decide_eq_true hk, Bool.true_and]
  split
  · rename_i hlt
    rw [BitVec.getLsbD_setWidth, decide_eq_true hlt, Nat.min_eq_left (by omega), Bool.true_and]
  · rw [BitVec.msb_setWidth, Nat.min_eq_right (by omega), decide_eq_true hpos, Bool.true_and]

theorem toNat_toUInt32 (v : Int32) : v.toUInt32.toNat = wrap 32 v.toInt := by
  have hofInt : (BitVec.ofInt 32 v.toBitVec.toInt).toNat = wrap 32 v.toBitVec.toInt := BitVec.toNat_ofInt _
  rw [BitVec.ofInt_toInt] at hofInt
  exact hofInt

/-- A signed shift of a word by a count that is not reduced. -/
theorem toBitVec_shiftRight_toInt32 (v : UInt32) {count : UInt32} (h : count.toNat < 32) :
    (v.toInt32 >>> count.toInt32).toBitVec = v.toBitVec.sshiftRight count.toNat := by
  have hmsb : count.toBitVec.msb = false :=
    BitVec.msb_eq_false_iff_two_mul_lt.2 (show 2 * count.toNat < 2 ^ 32 by omega)
  have hcount : count.toBitVec.smod 32 = count.toBitVec := by
    apply BitVec.eq_of_toNat_eq
    rw [BitVec.smod_eq, hmsb]
    exact Nat.mod_eq_of_lt h
  rw [Int32.toBitVec_shiftRight]
  exact congrArg v.toBitVec.sshiftRight' hcount

end Ia32Wasm
