import Ia32Wasm.Proofs.Lowering.Arithmetic
import Ia32Wasm.Proofs.Lowering.Control

/-!
# Conditions after a comparison

A comparison sets the flags of a difference, and a conditional instruction reads some of them.  Together they decide a
relation between the two numbers that have been compared (`Condition.compares`).  That `SF` differs from `OF` exactly
when the first number is less than the second in two's complement is `sign_ne_overflow`.
-/

namespace Ia32Wasm

open Machine (Flag Slot)
open Wasm (Completes Host)
open X86 (BinaryOp Condition Instruction Operand OperandSize)

/-- What a condition says of two numbers of `width` bits that have been compared. -/
def X86.Condition.compares (width a b : Nat) : Condition → Bool
  | .b => decide (a < b)
  | .ae => decide (b ≤ a)
  | .be => decide (a ≤ b)
  | .a => decide (b < a)
  | .l => decide (toSigned width a < toSigned width b)
  | .ge => decide (toSigned width b ≤ toSigned width a)
  | .le => decide (toSigned width a ≤ toSigned width b)
  | .g => decide (toSigned width b < toSigned width a)
  | .e => a == b
  | .ne => a != b
  | .s => decide (toSigned width (wrap width (a - b)) < 0)
  | .ns => decide (0 ≤ toSigned width (wrap width (a - b)))
  | .o => leavesSigned width (toSigned width a - toSigned width b)
  | .no => !leavesSigned width (toSigned width a - toSigned width b)
  | .p => evenParity (wrap width (a - b))
  | .np => !evenParity (wrap width (a - b))

/-! ### Flags of a difference -/

variable {width a b : Nat}

private theorem leavesUnsigned_sub (ha : a < 2 ^ width) : leavesUnsigned width (a - b) = decide (a < b) := by
  have hcast : ((2 ^ width : Nat) : Int) = 2 ^ width := Int.natCast_pow 2 width
  rw [leavesUnsigned, ← hcast, decide_eq_decide]
  omega

private theorem wrap_sub_eq_zero (ha : a < 2 ^ width) (hb : b < 2 ^ width) : wrap width (a - b) = 0 ↔ a = b := by
  have hwrap := wrap_of_near width (x := a - b) (by omega) (by omega)
  grind

private theorem toSigned_inj (hwidth : 0 < width) (ha : a < 2 ^ width) (hb : b < 2 ^ width) :
    toSigned width a = toSigned width b ↔ a = b := by
  have hsa := toSigned_eq hwidth ha
  have hsb := toSigned_eq hwidth hb
  rw [← Nat.two_pow_pred_mul_two hwidth] at ha hb
  grind

/-- The sign of a difference, reversed where the difference is out of range, says which number is less. -/
theorem sign_ne_overflow (hwidth : 0 < width) (ha : a < 2 ^ width) (hb : b < 2 ^ width) :
    decide (toSigned width (wrap width (a - b)) < 0) ≠ leavesSigned width (toSigned width a - toSigned width b) ↔
      toSigned width a < toSigned width b := by
  have hr := wrap_lt width (a - b)
  have hwrap := wrap_of_near width (x := a - b) (by omega) (by omega)
  have hsa := toSigned_eq hwidth ha
  have hsb := toSigned_eq hwidth hb
  have hcast : ((2 ^ (width - 1) : Nat) : Int) = 2 ^ (width - 1) := Int.natCast_pow 2 _
  rw [leavesSigned, ← hcast, ne_eq, decide_eq_decide, toSigned_neg_iff hwidth hr]
  rw [← Nat.two_pow_pred_mul_two hwidth] at ha hb hr hwrap
  generalize wrap width (a - b) = r at hr hwrap ⊢
  generalize toSigned width a = x at hsa ⊢
  generalize toSigned width b = y at hsb ⊢
  generalize 2 ^ (width - 1) = half at *
  grind

private theorem toUInt32_ne_zero (p : Bool) : p.toUInt32 ≠ 0 ↔ p = true := by cases p <;> decide

private theorem toUInt32_inj (p q : Bool) : p.toUInt32 = q.toUInt32 ↔ p = q := by cases p <;> cases q <;> decide

/-- Under the flags of a difference, a condition decides how the two numbers compare. -/
private theorem holds_iff_compares {flags : Flag → UInt32} (hwidth : 0 < width) (ha : a < 2 ^ width)
    (hb : b < 2 ^ width)
    (h : ∀ f p, (Result.exact width (fun x y => x - y) a b).flags f = some p → flags f = p.toUInt32) (c : Condition) :
    c.Holds flags ↔ c.compares width a b = true := by
  have hcf : flags .cf ≠ 0 ↔ a < b := by
    rw [h .cf _ rfl, toUInt32_ne_zero, leavesUnsigned_sub ha, decide_eq_true_iff]
  have hzf : flags .zf ≠ 0 ↔ a = b := by
    rw [h .zf _ rfl, toUInt32_ne_zero, beq_iff_eq, wrap_sub_eq_zero ha hb]
  have hsf : flags .sf ≠ 0 ↔ toSigned width (wrap width (a - b)) < 0 := by
    rw [h .sf _ rfl, toUInt32_ne_zero, decide_eq_true_iff]
  have hof : flags .of ≠ 0 ↔ leavesSigned width (toSigned width a - toSigned width b) = true := by
    rw [h .of _ rfl, toUInt32_ne_zero]
  have hpf : flags .pf ≠ 0 ↔ evenParity (wrap width (a - b)) = true := by
    rw [h .pf _ rfl, toUInt32_ne_zero]
  have hless : flags .sf ≠ flags .of ↔ toSigned width a < toSigned width b := by
    rw [h .sf _ rfl, h .of _ rfl, ne_eq, toUInt32_inj, ← sign_ne_overflow hwidth ha hb]
  have hequal := toSigned_inj hwidth ha hb
  cases c <;> simp only [Condition.Holds, Condition.compares, decide_eq_true_iff, beq_iff_eq, bne_iff_ne] <;> grind

namespace Lowering

variable {ω : Type} {host : Host Callee ω} {m : Wasm.Machine ω} {i : Instruction}

/-- Under truth values in the flags, the code of a condition leaves whether it holds. -/
theorem completes_condition_ofBool (host : Host Callee ω) (c : Condition) {p : Bool}
    (hflags : ∀ f, f ≠ .df → ∃ q : Bool, m.store.get (.flag f) = q.toUInt32)
    (hp : c.Holds (fun f => m.store.get (.flag f)) ↔ p = true) :
    Completes host (condition c) m (m.push (.ofBool p)) := by
  obtain ⟨v, hcompletes, hholds, htruth⟩ := completes_condition host c m
  obtain ⟨q, rfl⟩ := htruth hflags
  have hq : q = p := by
    rw [Bool.eq_iff_iff, ← hp, ← toUInt32_ne_zero]
    exact hholds
  rwa [hq] at hcompletes

/-- A conditional jump or a conditional byte after a comparison or a subtraction decides the relation that its
condition stands for: its test leaves the truth value of this relation between the numbers that have been
compared. -/
theorem condition_after_comparison {bytes : List UInt8} {address : UInt32} {n : Nat} {op : BinaryOp}
    (h : X86.decode bytes address = .ok (i, n)) (hm : i.mnemonic = .binary op) (hop : op = .cmp ∨ op = .sub)
    (host : Host Callee ω) (chunk : UInt32) (toLoop : Nat) (m : Wasm.Machine ω)
    (hbounds : ∀ op ∈ i.operands, op.InBounds m.store) :
    ∃ size first second m', size.bits ∈ [8, 16, 32] ∧ first.Writable size ∧ second.Readable size ∧
      i.operands = (if op.writes then [first, first, second] else [first, second]) ∧
      (instruction chunk toLoop i).outcome = .ok () ∧ Completes host (instruction chunk toLoop i).code m m' ∧
      ∀ j c, j.mnemonic = .jumpIf c ∨ j.mnemonic = .set c →
        (testCondition j).outcome = .ok () ∧
        Completes host (testCondition j).code m'
          (m'.push (.ofBool (c.compares size.bits (first.value m.store) (second.value m.store)))) ∧
        (j.mnemonic = .jumpIf c → (j.Takes m'.store.globals ↔
          c.compares size.bits (first.value m.store) (second.value m.store) = true)) := by
  obtain ⟨size, first, second, hfirst, hsecond, hoperands⟩ := X86.operands_of_binary h hm
  have hmem : first ∈ i.operands ∧ second ∈ i.operands := by
    rw [hoperands]
    cases op.writes <;> simp
  obtain ⟨hok, m', scratch, hcompletes, -, hstore⟩ := performs_binary host chunk toLoop hm hfirst hsecond hoperands
    (by grind) (hbounds first hmem.1) (hbounds second hmem.2)
  have hflags : ∀ f p, (Result.exact size.bits (fun x y => x - y) (first.value m.store)
    (second.value m.store)).flags f =
      some p → m'.store.get (.flag f) = p.toUInt32 := by
    intro f p hp
    have heffect : (op.effect size m.store first second).flags f = some p := by
      rcases hop with rfl | rfl <;> exact hp
    rw [hstore, Wasm.Store.get_set_of_ne _ _ Slot.noConfusion, Effect.apply, Wasm.Store.get_setFlags, heffect]
    rfl
  have hdecides := holds_iff_compares (OperandSize.bits_pos _) (hfirst.value_lt m.store)
    (hsecond.value_lt m.store) hflags
  refine ⟨size, first, second, m', OperandSize.bits_mem hfirst.scalar, hfirst, hsecond, hoperands, hok, hcompletes,
    fun j c hj => ?_⟩
  have htest : testCondition j = emit (condition c) := by
    unfold testCondition
    rcases hj with hj | hj <;> rw [hj]
  rw [htest]
  refine ⟨rfl, ?_, fun hj => ?_⟩
  · refine completes_condition_ofBool host c (fun f hf => ?_) (hdecides c)
    cases f with
    | df => exact absurd rfl hf
    | cf | zf | sf | of | pf | af => exact ⟨_, hflags _ _ rfl⟩
  · rw [Instruction.Takes, hj]
    exact hdecides c

/-- The least byte in two's complement is less than one and above one, and the difference overflows. -/
theorem condition_after_comparison_overflowing :
    ∃ i m', X86.decode [0x3c, 0x01] 0x1000 = .ok (i, 2) ∧ (∀ op ∈ i.operands, op.InBounds overflowing) ∧
      Completes (fun _ _ => .error .trap) (instruction 0 0 i).code (.start overflowing) m' ∧
      ∀ c ∈ [Condition.l, .a, .o], Completes (fun _ _ => .error .trap) (condition c) m' (m'.push (.ofBool true)) := by
  have hdecode : X86.decode [0x3c, 0x01] 0x1000 =
      .ok (⟨{}, 0x3c, .binary .cmp, [.reg 0 .bits8, .imm 1 .bits8], 0x1000, 0x1002⟩, 2) := by
    decide +kernel
  have hbounds : ∀ op ∈ [Operand.reg 0 .bits8, .imm 1 .bits8], op.InBounds overflowing := by decide +kernel
  obtain ⟨size, first, second, m', -, hfirst, -, hoperands, -, hcompletes, hconditions⟩ :=
    condition_after_comparison hdecode rfl (.inl rfl) (fun _ _ => .error .trap) 0 0 (.start overflowing) hbounds
  cases hoperands
  cases hfirst.size?_eq
  refine ⟨_, m', hdecode, hbounds, hcompletes, fun c hc => ?_⟩
  have hcompares : ∀ c ∈ [Condition.l, .a, .o], c.compares 8 0x80 1 = true := by decide
  have htest := (hconditions ⟨{}, 0x0f, .jumpIf c, [], 0, 0⟩ c (.inl rfl)).2.1
  have hvalue : (Operand.reg 0 .bits8).value overflowing = 0x80 := by decide +kernel
  rw [← hcompares c hc]
  simp only [Wasm.Machine.start, hvalue] at htest
  exact htest

end Lowering

end Ia32Wasm
