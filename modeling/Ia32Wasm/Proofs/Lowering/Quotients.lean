import Ia32Wasm.Proofs.Lowering.Products
import Ia32Wasm.Proofs.Machine.Division

/-!
# Quotients

A quotient and a remainder are computed in 64 bits.  The divisor is put into a local first, so it does not matter that
the quotient may replace it.

* A zero divisor raises interrupt zero before a register is changed (`attains_divide`).
* With another divisor the registers get the low bits of quotient and remainder (`executes_divide`), whether or not
  the quotient has the width of its register.  Only where it has more than 64 bits, there is a trap
  (`attains_divide_extreme`).
-/

namespace Ia32Wasm

open Machine (Slot)
open Wasm (Attains Completes Config Host exec exec_append)
open X86 (Instruction Operand OperandSize)

variable {signed : Bool} {size : OperandSize} {a b : UInt64} {d : Division}

/-! ### Words of 64 bits -/

theorem toInt_toInt64 (a : UInt64) : a.toInt64.toInt = toInteger true 64 a.toNat := by
  have hbits : a.toInt64.toInt = (a.toNat : Int).bmod (2 ^ 64) := BitVec.toInt_eq_toNat_bmod _
  rw [hbits, toInteger, if_pos rfl, toSigned]

private theorem toInteger_wideWord (signed : Bool) (hsize : size ≠ .bits128) {word : UInt32}
    (hword : word.toNat < 2 ^ size.bits) :
    toInteger signed 64 (wideWord signed size word).toNat = toInteger signed size.bits word.toNat := by
  have hle := OperandSize.bits_le hsize
  have hrange : leaves signed 64 (toInteger signed size.bits word.toNat) = false :=
    leaves_mono (by omega) (leaves_toInteger signed size.bits_pos hword)
  rw [toNat_wideWord signed hsize]
  exact toInteger_wrap (by omega) hrange

/-- Two words of 64 bits stand for the integers of a division. -/
structure Division.Words (d : Division) (signed : Bool) (a b : UInt64) : Prop where
  dividend : toInteger signed 64 a.toNat = d.dividend
  divisor : toInteger signed 64 b.toNat = d.divisor

namespace Division.Words

private theorem ne_zero (h : d.Words signed a b) (hdivisor : d.divisor ≠ 0) : b ≠ 0 := by
  rintro rfl
  apply hdivisor
  rw [← h.divisor]
  exact (toInteger_eq_zero_iff signed (by omega) (by decide)).2 rfl

/-- The two words that have no signed quotient. -/
private theorem eq_extreme_iff (h : d.Words true a b) :
    a.toInt64 = Int64.minValue ∧ b.toInt64 = -1 ↔ d = .extreme := by
  have hdividend : a.toInt64 = Int64.minValue ↔ d.dividend = -2 ^ 63 := by
    rw [← Int64.toInt_inj, toInt_toInt64, h.dividend, Int64.toInt_minValue]
  have hdivisor : b.toInt64 = -1 ↔ d.divisor = -1 := by
    rw [← Int64.toInt_inj, toInt_toInt64, h.divisor]
    rfl
  rw [hdividend, hdivisor]
  constructor
  · rintro ⟨hx, hy⟩
    obtain ⟨x, y⟩ := d
    simp only at hx hy
    rw [hx, hy]
    rfl
  · rintro rfl
    exact ⟨rfl, rfl⟩

/-- The quotient of two words, if there is one, is the quotient that the division has, in 64 bits. -/
private theorem apply_quotient (h : d.Words signed a b) (hdivisor : d.divisor ≠ 0) (hextreme : d ≠ .extreme) :
    ∃ p : UInt64, p.toNat = wrap 64 d.quotient ∧ ∀ stack : List Wasm.Value,
      (if signed then Wasm.Numeric.i64DivS else .i64DivU).apply (.i64 b :: .i64 a :: stack) =
      .ok (.i64 p :: stack) := by
  have hb := h.ne_zero hdivisor
  cases signed with
  | true =>
    have hquotient : Wasm.signedQuotient a b = some (a.toInt64 / b.toInt64).toUInt64 := by
      refine if_neg ?_
      rw [h.eq_extreme_iff]
      exact not_or.2 ⟨hb, hextreme⟩
    refine ⟨(a.toInt64 / b.toInt64).toUInt64, ?_, fun stack => ?_⟩
    · rw [toNat_toUInt64, Int64.toInt_div, toInt_toInt64, toInt_toInt64, h.dividend, h.divisor, wrap_bmod]
      rfl
    · simp only [if_true, Wasm.Numeric.apply, Wasm.partial64, hquotient]
  | false =>
    refine ⟨a / b, ?_, fun stack => ?_⟩
    · have hlt := (a / b).toNat_lt
      have hquotient : d.quotient = ((a / b).toNat : Int) := by
        rw [Division.quotient, ← h.dividend, ← h.divisor, UInt64.toNat_div, Int.ofNat_tdiv]
        rfl
      rw [hquotient, wrap_natCast, Nat.mod_eq_of_lt hlt]
    · simp [Wasm.Numeric.apply, Wasm.partial64, hb]

private theorem apply_remainder (h : d.Words signed a b) (hdivisor : d.divisor ≠ 0) :
    ∃ p : UInt64, p.toNat = wrap 64 d.remainder ∧ ∀ stack : List Wasm.Value,
      (if signed then Wasm.Numeric.i64RemS else .i64RemU).apply (.i64 b :: .i64 a :: stack) =
      .ok (.i64 p :: stack) := by
  have hb := h.ne_zero hdivisor
  cases signed with
  | true =>
    refine ⟨(a.toInt64 % b.toInt64).toUInt64, ?_, fun stack => ?_⟩
    · rw [toNat_toUInt64, Int64.toInt_mod, toInt_toInt64, toInt_toInt64, h.dividend, h.divisor]
      rfl
    · simp [Wasm.Numeric.apply, Wasm.partial64, Wasm.signedRemainder, hb]
  | false =>
    refine ⟨a % b, ?_, fun stack => ?_⟩
    · have hlt := (a % b).toNat_lt
      have hremainder : d.remainder = ((a % b).toNat : Int) := by
        rw [Division.remainder, ← h.dividend, ← h.divisor, UInt64.toNat_mod, Int.ofNat_tmod]
        rfl
      rw [hremainder, wrap_natCast, Nat.mod_eq_of_lt hlt]
    · simp [Wasm.Numeric.apply, Wasm.partial64, hb]

end Division.Words

namespace Lowering

variable {ω : Type} {host : Host Callee ω} {m m₁ m' : Wasm.Machine ω} {i : Instruction} {v : UInt32}

/-! ### Dividends -/

/-- A number above another one of the same width, as the code puts them together. -/
private theorem shiftLeft_mod_or {k low high : Nat} (hlow : low < 2 ^ k) (hhigh : high < 2 ^ k) :
    high <<< k % 2 ^ (2 * k) ||| low = low + 2 ^ k * high := by
  have hlt : high <<< k < 2 ^ (2 * k) := by
    rw [Nat.shiftLeft_eq, Nat.two_mul, Nat.pow_add]
    exact Nat.mul_lt_mul_of_pos_right hhigh (Nat.two_pow_pos k)
  rw [Nat.mod_eq_of_lt hlt, ← Nat.shiftLeft_add_eq_or_of_lt hlow, Nat.shiftLeft_eq, Nat.mul_comm, Nat.add_comm]

private theorem executes_loadRegister (host : Host Callee ω) {index : UInt8} (size : OperandSize)
    (hindex : index.toNat < 8) (hsize : size ≠ .bits128) (m : Wasm.Machine ω) :
    ∃ v, Executes host (loadRegister index size) () m (m.push (.i32 v)) ∧
    v.toNat = (Operand.reg index size).value m.store :=
  have hreadable := (Operand.writable_reg hindex hsize).toReadable
  ⟨_, executes_loadOperand hreadable (Operand.inBounds_reg m.store index size), hreadable.toNat_value m.store⟩

/-- The code of the dividend pushes a word of 64 bits that stands for it. -/
private theorem executes_dividend (host : Host Callee ω) (signed : Bool) (hsize : size ≠ .bits128)
    (m : Wasm.Machine ω) :
    ∃ p, Executes host (dividend size signed) () m (m.push (.i64 p)) ∧
      toInteger signed 64 p.toNat = toInteger signed (2 * size.bits) (X86.dividendNumber size m.store) := by
  have haccumulator : (0 : UInt8).toNat < 8 := by decide
  have hextension : (2 : UInt8).toNat < 8 := by decide
  cases size with
  | bits8 =>
    obtain ⟨v, hload, hv⟩ := executes_loadRegister host .bits16 haccumulator (by decide) m
    have hlt := X86.value_reg_lt m.store 0 .bits16
    refine ⟨_, executes_bind hload (executes_emit (exec_extendWide signed (by decide) m v)), ?_⟩
    rw [toInteger_wideWord signed (by decide) (hv ▸ hlt), hv]
    rfl
  | bits16 =>
    obtain ⟨high, hloadHigh, hhigh⟩ := executes_loadRegister host .bits16 hextension (by decide) m
    obtain ⟨low, hloadLow, hlow⟩ :=
      executes_loadRegister host .bits16 haccumulator (by decide) (m.push (.i32 (high <<< 16)))
    have hnumber : (high <<< 16 ||| low).toNat = X86.dividendNumber .bits16 m.store := by
      rw [UInt32.toNat_or, UInt32.toNat_shiftLeft, hhigh, hlow]
      exact shiftLeft_mod_or (X86.value_reg_lt m.store 0 .bits16) (X86.value_reg_lt m.store 2 .bits16)
    have hextend : exec (extendWide .bits32 signed) (m.push (.i32 (high <<< 16 ||| low))) = .ok (m.push _) :=
      exec_extendWide signed (by decide) m (high <<< 16 ||| low)
    refine ⟨_, executes_bind hloadHigh (executes_bind (executes_emit rfl) (executes_bind hloadLow
      (executes_emit hextend))), ?_⟩
    rw [toInteger_wideWord signed (by decide) (UInt32.toNat_lt _), hnumber]
    rfl
  | bits32 =>
    obtain ⟨high, hloadHigh, hhigh⟩ := executes_loadRegister host .bits32 hextension (by decide) m
    obtain ⟨low, hloadLow, hlow⟩ :=
      executes_loadRegister host .bits32 haccumulator (by decide) (m.push (.i64 (high.toUInt64 <<< 32)))
    have hnumber : (high.toUInt64 <<< 32 ||| low.toUInt64).toNat = X86.dividendNumber .bits32 m.store := by
      rw [UInt64.toNat_or, UInt64.toNat_shiftLeft, UInt32.toNat_toUInt64, UInt32.toNat_toUInt64, hhigh, hlow]
      exact shiftLeft_mod_or (X86.value_reg_lt m.store 0 .bits32) (X86.value_reg_lt m.store 2 .bits32)
    refine ⟨_, executes_bind hloadHigh
      (executes_bind (executes_emit rfl) (executes_bind hloadLow (executes_emit rfl))), ?_⟩
    rw [hnumber]
    rfl
  | bits128 => exact absurd rfl hsize

/-! ### Division by zero -/

/-- The configuration calls the handler of an interrupt whose number is in `t1`, with the store otherwise as given,
and the code does not go on after the call. -/
def Interrupts (host : Host Callee ω) (number : UInt32) (s : Wasm.Store ω) (c : Config Callee ω) : Prop :=
  ∃ rest labels m, c = ⟨callHook .interrupt :: rest, labels, m⟩ ∧ m.store = s.set .t1 number ∧
    ∀ m', Config.step host ⟨rest, labels, m'⟩ = .stopped .trap

private theorem attains_checkDivisor (host : Host Callee ω) (h : m.locals Local.rhs = .i32 0) :
    Attains host checkDivisor m (Interrupts host 0 m.store) := by
  have htest : Wasm.Runs host [.localGet Local.rhs] m (m.push (.i32 0)) := by
    refine Wasm.runs_of_exec ?_
    rw [Wasm.exec_localGet, h]
    rfl
  have hset : Wasm.Runs host ([.i32Const 0, setSlot .t1] : Code) m { m with store := m.store.set .t1 0 } :=
    Wasm.runs_of_exec rfl
  have hcall : Attains host ([callHook .interrupt, .unreachable] : Code) { m with store := m.store.set .t1 0 }
      (Interrupts host 0 m.store) := fun rest labels => ⟨_, .refl, _, _, _, rfl, rfl, fun _ => rfl⟩
  exact Wasm.attains_through htest (Wasm.attains_append hset hcall)

/-- Another divisor passes the check. -/
private theorem runs_checkDivisor (host : Host Callee ω) (h : m.locals Local.rhs = .i32 v) (hv : v ≠ 0) :
    Wasm.Runs host checkDivisor m m := by
  have htest : Wasm.Runs host [.localGet Local.rhs] m (m.push (.i32 v)) := by
    refine Wasm.runs_of_exec ?_
    rw [Wasm.exec_localGet, h]
    rfl
  have hbody : Wasm.nest 0 0 ([.i32Const 0, setSlot .t1, callHook .interrupt, .unreachable] : Code) = some 0 := rfl
  exact Wasm.runs_skip htest hv rfl hbody

/-- A zero divisor raises interrupt zero before anything but `t1` is changed. -/
theorem attains_divide {divisor : Operand} (host : Host Callee ω) (signed : Bool) (hdivisor : divisor.Writable size)
    (hoperands : i.operands = [divisor]) (hbounds : divisor.InBounds m.store) (hzero : divisor.value m.store = 0) :
    Attains host (divide signed i).code m (Interrupts host 0 m.store) := by
  have hload : Executes host (loadOperand divisor) () m _ := executes_loadOperand hdivisor.toReadable hbounds
  have hlocal : Wasm.Runs host [.localSet Local.rhs] (m.push (.i32 (UInt32.ofNat 0)))
      (m.setLocal Local.rhs (.i32 0)) := Wasm.runs_of_exec rfl
  rw [hzero] at hload
  rw [divide, hoperands]
  refine attains_bind (executes_scalarSize hdivisor.toReadable m) (attains_bind hload (attains_bind_left ?_ _))
  exact Wasm.attains_append hlocal (attains_checkDivisor host rfl)

/-! ### Division by other numbers -/

/-- The machine with the divisor and the dividend in their locals. -/
def dividing (m : Wasm.Machine ω) (v : UInt32) (p : UInt64) : Wasm.Machine ω :=
  (m.setLocal Local.rhs (.i32 v)).setLocal Local.wide (.i64 p)

/-- The parts of the code in front of the quotient: they put the divisor and the dividend into the locals. -/
private theorem exists_dividing {divisor : Operand} (host : Host Callee ω) (signed : Bool)
    (hdivisor : divisor.Writable size)
    (hbounds : divisor.InBounds m.store) (hzero : divisor.value m.store ≠ 0) :
    ∃ v p, (X86.divisionBy signed size m.store divisor).Words signed p (wideWord signed size v) ∧
      Executes host (loadOperand divisor) () m (m.push (.i32 v)) ∧
      Executes host (emit (.localSet Local.rhs :: checkDivisor)) () (m.push (.i32 v))
      (m.setLocal Local.rhs (.i32 v)) ∧
      Executes host (dividend size signed) () (m.setLocal Local.rhs (.i32 v))
        ((m.setLocal Local.rhs (.i32 v)).push (.i64 p)) := by
  have hscalar := hdivisor.scalar
  have hload : Executes host (loadOperand divisor) () m _ := executes_loadOperand hdivisor.toReadable hbounds
  have hv := hdivisor.toNat_value m.store
  have hlt := hdivisor.value_lt m.store
  generalize UInt32.ofNat (divisor.value m.store) = v at hload hv
  have hne : v ≠ 0 := by
    rintro rfl
    exact hzero hv.symm
  have hlocal : Wasm.Runs host [.localSet Local.rhs] (m.push (.i32 v)) (m.setLocal Local.rhs (.i32 v)) :=
    Wasm.runs_of_exec rfl
  obtain ⟨p, hdividend, hp⟩ := executes_dividend host signed hscalar (m.setLocal Local.rhs (.i32 v))
  refine ⟨v, p, ⟨hp, ?_⟩, hload, ⟨rfl, ?_⟩, hdividend⟩
  · rw [toInteger_wideWord signed hscalar (hv ▸ hlt), hv]
    rfl
  · exact Wasm.runs_append hlocal (runs_checkDivisor host rfl hne)

/-- The code in front of an operation pushes the dividend and the divisor. -/
private theorem exec_dividing {p : UInt64} (hsize : size ≠ .bits128) (hwide : m.locals Local.wide = .i64 p)
    (hrhs : m.locals Local.rhs = .i32 v) :
    exec (.localGet Local.wide :: .localGet Local.rhs :: extendWide size signed) m =
      .ok ((m.push (.i64 p)).push (.i64 (wideWord signed size v))) := by
  rw [Wasm.exec_localGet, hwide, Wasm.exec_localGet, Wasm.Machine.locals_push, hrhs]
  exact exec_extendWide signed hsize _ v

/-- The result of an operation on the dividend and the divisor goes into a register. -/
private theorem executes_divideInto {op : Wasm.Numeric} {p q : UInt64} {z : Int} (host : Host Callee ω)
    (register : UInt8)
    (hsize : size ≠ .bits128) (hregister : register.toNat < 8) (hwide : m.locals Local.wide = .i64 p)
    (hrhs : m.locals Local.rhs = .i32 v) (hq : q.toNat = wrap 64 z)
    (hop : ∀ stack, op.apply (.i64 (wideWord signed size v) :: .i64 p :: stack) = .ok (.i64 q :: stack)) :
    ∃ w, Executes host (divideInto op size signed register) () m
      (assigned m (.reg register size) (wrap size.bits z) w) := by
  have hresult : exec ([.op op, .op .i32WrapI64] : Code) ((m.push (.i64 p)).push (.i64 (wideWord signed size v))) =
      .ok (m.push (.i32 q.toUInt32)) := by
    rw [Wasm.exec_op, Wasm.Machine.stack_push, Wasm.Machine.stack_push, hop]
    rfl
  obtain ⟨w, hstore⟩ := executes_storeOperand host (m := m) (Operand.writable_reg hregister hsize)
    (Operand.inBounds_reg m.store register size) (q.toUInt32 &&& size.mask)
  rw [toNat_lowPart hsize hq] at hstore
  refine ⟨w, executes_bind (executes_emit ?_) hstore⟩
  exact (exec_append ((exec_append (exec_dividing hsize hwide hrhs)).trans hresult)).trans
    (exec_maskTo size m q.toUInt32)

/-- The register of the remainder is the place of the remainder. -/
private theorem reg_remainderRegister (size : OperandSize) :
    Operand.reg (remainderRegister size) size = X86.remainderPlace size := by
  unfold remainderRegister X86.remainderPlace
  split
  · rename_i hbyte
    rw [hbyte]
  · rfl

/-- With a divisor other than zero, the low bits of quotient and remainder go into their registers. -/
theorem executes_divide {divisor : Operand} (host : Host Callee ω) (signed : Bool) (hdivisor : divisor.Writable size)
    (hoperands : i.operands = [divisor]) (hbounds : divisor.InBounds m.store) (hzero : divisor.value m.store ≠ 0)
    (hextreme : X86.divisionBy signed size m.store divisor ≠ .extreme) :
    ∃ m₂, Executes host (divide signed i) () m m₂ ∧ m₂.stack = m.stack ∧
      m₂.store = ((X86.divisionBy signed size m.store divisor).effect size).apply m.store := by
  have hscalar := hdivisor.scalar
  have hne : (X86.divisionBy signed size m.store divisor).divisor ≠ 0 := fun h =>
    hzero ((toInteger_eq_zero_iff signed size.bits_pos (hdivisor.value_lt m.store)).1 h)
  obtain ⟨v, p, hwords, hload, hcheck, hdividend⟩ := exists_dividing host signed hdivisor hbounds hzero
  obtain ⟨q, hq, hquotient⟩ := hwords.apply_quotient hne hextreme
  obtain ⟨r, hr, hremainder⟩ := hwords.apply_remainder hne
  obtain ⟨w, hstoreQuotient⟩ := executes_divideInto (m := dividing m v p) host 0 hscalar
    (by decide) rfl rfl hq hquotient
  -- The locals that the second operation reads are not the one that a store may use.
  obtain ⟨w', hstoreRemainder⟩ := executes_divideInto
    (m := assigned (dividing m v p) (.reg 0 size) _ w) host (remainderRegister size) hscalar
    (by unfold remainderRegister; split <;> decide) rfl rfl hr hremainder
  rw [divide, hoperands]
  refine ⟨_, executes_bind (executes_scalarSize hdivisor.toReadable m) (executes_bind hload (executes_bind hcheck
    (executes_bind hdividend (executes_bind (executes_emit rfl) (executes_bind hstoreQuotient hstoreRemainder))))),
    rfl, ?_⟩
  rw [Division.apply_effect, ← reg_remainderRegister]
  rfl

/-- A numeric instruction of the configuration traps, with the store as given. -/
def TrapsOn (host : Host Callee ω) (s : Wasm.Store ω) (c : Config Callee ω) : Prop :=
  (∃ op rest, c.code = .op op :: rest) ∧ c.machine.store = s ∧ c.step host = .stopped .trap

/-- A quotient of more than 64 bits traps before the store is changed. -/
theorem attains_divide_extreme {divisor : Operand} (host : Host Callee ω) (hdivisor : divisor.Writable size)
    (hoperands : i.operands = [divisor]) (hbounds : divisor.InBounds m.store)
    (hextreme : X86.divisionBy true size m.store divisor = .extreme) :
    Attains host (divide true i).code m (TrapsOn host m.store) := by
  have hscalar := hdivisor.scalar
  have hminus : toInteger true size.bits (divisor.value m.store) = -1 := congrArg Division.divisor hextreme
  have hzero : divisor.value m.store ≠ 0 := by
    intro hzero
    have hinteger := (toInteger_eq_zero_iff true size.bits_pos (hdivisor.value_lt m.store)).2 hzero
    omega
  obtain ⟨v, p, hwords, hload, hcheck, hdividend⟩ := exists_dividing host true hdivisor hbounds hzero
  have hquotient : Wasm.signedQuotient p (wideWord true size v) = none :=
    if_pos (.inr (hwords.eq_extreme_iff.2 hextreme))
  have hwide : Executes host (emit [.localSet Local.wide]) () ((m.setLocal Local.rhs (.i32 v)).push (.i64 p))
      (dividing m v p) := executes_emit rfl
  rw [divide, hoperands]
  refine attains_bind (executes_scalarSize hdivisor.toReadable m) (attains_bind hload (attains_bind hcheck
    (attains_bind hdividend (attains_bind hwide (attains_bind_left (attains_bind_left ?_ _) _)))))
  rw [code_emit, List.append_assoc]
  refine Wasm.attains_append (Wasm.runs_of_exec (exec_dividing hscalar rfl rfl)) fun rest labels =>
    ⟨_, .refl, ⟨_, _, rfl⟩, rfl, ?_⟩
  show Config.step host ⟨.op .i64DivS :: _, _, _⟩ = _
  simp only [Config.step, Wasm.Instr.apply, Wasm.Numeric.apply, Wasm.partial64, Wasm.Machine.stack_push, hquotient]
  rfl

/-! ### Interrupts that are not raised -/

/-- What comes after an interrupt is the interrupt itself or a trap. -/
private theorem Interrupts.cases_of_reaches {c e : Config Callee ω} {number : UInt32} {s : Wasm.Store ω}
    (hc : Interrupts host number s c) (h : Config.Reaches host c e) :
    e = c ∨ ∀ m, Config.step host ⟨e.code, e.labels, m⟩ = .stopped .trap := by
  obtain ⟨rest, labels, m, rfl, -, hstop⟩ := hc
  rcases Relation.ReflTransGen.cases_head h with heq | ⟨e', he', hreaches⟩
  · exact .inl heq.symm
  · -- The call comes back, and the configuration after it is the last one.
    right
    obtain ⟨m', rfl⟩ : ∃ m', e' = ⟨rest, labels, m'⟩ := by
      simp only [Config.Steps, Config.step, callHook] at he'
      split at he'
      · cases he'
        exact ⟨_, rfl⟩
      · cases he'
    rw [Wasm.eq_of_reaches_of_stopped hreaches (hstop m')]
    exact hstop

private theorem not_interrupts_of_completes {code : Code} {c : Config Callee ω} {number : UInt32} {s : Wasm.Store ω}
    (hcompletes : Completes host code m m') (hreaches : Config.Reaches host ⟨code, [], m⟩ c) :
    ¬ Interrupts host number s c := by
  intro hc
  rcases Wasm.reaches_total hcompletes hreaches with h | h
  · obtain ⟨rest, labels, m'', rfl, -, -⟩ := hc
    rcases Relation.ReflTransGen.cases_head h with heq | ⟨e, he, -⟩
    · cases heq
    · cases he
  · rcases hc.cases_of_reaches h with heq | hstop
    · obtain ⟨rest, labels, m'', rfl, -, -⟩ := hc
      cases heq
    · cases hstop m'

private theorem not_interrupts_of_trapsOn {c e : Config Callee ω} {number : UInt32} {s s' : Wasm.Store ω}
    {start : Config Callee ω} (htraps : TrapsOn host s' e) (he : Config.Reaches host start e)
    (hreaches : Config.Reaches host start c) : ¬ Interrupts host number s c := by
  intro hc
  obtain ⟨⟨op, rest, hcode⟩, -, hstopped⟩ := htraps
  have hne : e ≠ c := by
    rintro rfl
    obtain ⟨_, _, _, rfl, -, -⟩ := hc
    cases hcode
  rcases Wasm.reaches_total he hreaches with h | h
  · exact hne (Wasm.eq_of_reaches_of_stopped h hstopped).symm
  · rcases hc.cases_of_reaches h with heq | hstop
    · exact hne heq
    · -- Without operands a numeric instruction is not valid, so it does not trap on every machine.
      have hempty := hstop { e.machine with stack := [] }
      rw [hcode] at hempty
      cases op <;> cases hempty

/-! ### Instructions -/

private theorem outcome_of_divide (chunk : UInt32) (toLoop : Nat) (hi : i.Formed) (hm : i.mnemonic = .divide signed) :
    (instruction chunk toLoop i).outcome = .ok () := by
  have hgap : i.isGap = false := Instruction.isGap_of_ne (by rw [hm]; nofun) (by rw [hm]; nofun)
  rw [outcome_of_formed chunk toLoop hi (by rw [hm]; rfl), hgap]
  rfl

/-- With a divisor other than zero, the instruction leaves quotient and remainder in their registers, unless the
quotient has more than 64 bits. -/
private theorem completes_divide {divisor : Operand} (host : Host Callee ω) (chunk : UInt32) (toLoop : Nat)
    (hm : i.mnemonic = .divide signed) (hdivisor : divisor.Writable size) (hoperands : i.operands = [divisor])
    (hbounds : divisor.InBounds m.store) (hzero : divisor.value m.store ≠ 0)
    (hextreme : X86.divisionBy signed size m.store divisor ≠ .extreme) :
    ∃ m', Completes host (instruction chunk toLoop i).code m m' ∧ m'.stack = m.stack ∧
      m'.store = ((X86.divisionBy signed size m.store divisor).effect size).apply m.store := by
  obtain ⟨m', hbody, hstack, hstore⟩ := executes_divide host signed hdivisor hoperands hbounds hzero hextreme
  have hcode : computation? i = some (divide signed i) := by rw [computation?, hm]
  have hflags : updateFlags i = pure () := by
    rw [updateFlags, hm]
    rfl
  have hall : Executes host (instruction chunk toLoop i) () m m' := by
    unfold instruction
    rw [prologue_of_computation hcode, body_of_computation hcode, hflags]
    exact executes_bind (executes_pure () m) (executes_bind hbody (executes_pure () m'))
  exact ⟨m', Wasm.completes_of_runs hall.runs, hstack, hstore⟩

/-- A quotient that is in the range of the divisor is not the extreme one. -/
private theorem ne_extreme_of_leaves {divisor : Operand} {s : Wasm.Store ω} (hsize : size ≠ .bits128)
    (h : leaves signed size.bits (X86.divisionBy signed size s divisor).quotient = false) :
    X86.divisionBy signed size s divisor ≠ .extreme := by
  intro hextreme
  obtain ⟨rfl, rfl⟩ := X86.bits32_of_divisionBy_eq_extreme hsize hextreme
  rw [hextreme] at h
  exact absurd h (by decide)

/-- The code of a decoded division divides exactly where the quotient has the width of the divisor.  From every state
with the divisor in memory where there is memory, a zero divisor raises interrupt zero before anything but `t1` is
changed, and the code does not go on after that.  With another divisor and a quotient in range, the code completes
with the quotient and the remainder in their registers; it changes nothing else. -/
theorem divides_of_decode {bytes : List UInt8} {address : UInt32} {n : Nat} {signed : Bool}
    (h : X86.decode bytes address = .ok (i, n)) (hm : i.mnemonic = .divide signed) (host : Host Callee ω)
    (chunk : UInt32) (toLoop : Nat) (m : Wasm.Machine ω) (hbounds : ∀ op ∈ i.operands, op.InBounds m.store) :
    (instruction chunk toLoop i).outcome = .ok () ∧
    ∃ size divisor, size.bits ∈ [8, 16, 32] ∧ divisor.Writable size ∧ i.operands = [divisor] ∧
      (divisor.value m.store = 0 → Attains host (instruction chunk toLoop i).code m (Interrupts host 0 m.store)) ∧
      (divisor.value m.store ≠ 0 → ∀ d, d = X86.divisionBy signed size m.store divisor →
        leaves signed size.bits d.quotient = false →
        ∃ m', Completes host (instruction chunk toLoop i).code m m' ∧ m'.stack = m.stack ∧
          m'.store = (d.effect size).apply m.store ∧
          toInteger signed size.bits ((Operand.reg 0 size).value m'.store) = d.quotient ∧
          toInteger signed size.bits ((X86.remainderPlace size).value m'.store) = d.remainder) := by
  obtain ⟨size, divisor, hdivisor, hoperands⟩ := X86.operands_of_divide h hm
  have hscalar := hdivisor.scalar
  have hdivisorBounds := hbounds divisor (by simp [hoperands])
  refine ⟨outcome_of_divide chunk toLoop (X86.formed_of_decode h) hm, size, divisor,
    OperandSize.bits_mem hscalar, hdivisor,
    hoperands, ?_, ?_⟩
  · intro hzero
    exact attains_instruction (by rw [computation?, hm])
      (attains_divide host signed hdivisor hoperands hdivisorBounds hzero)
  · rintro hzero d rfl hrange
    have hlt := hdivisor.value_lt m.store
    have hne : (X86.divisionBy signed size m.store divisor).divisor ≠ 0 := fun h =>
      hzero ((toInteger_eq_zero_iff signed size.bits_pos hlt).1 h)
    have hremainder := Division.leaves_remainder (X86.divisionBy_nonneg size m.store divisor) hne
      (leaves_toInteger signed size.bits_pos hlt)
    obtain ⟨m', hcompletes, hstack, hstore⟩ := completes_divide host chunk toLoop hm hdivisor hoperands hdivisorBounds
      hzero (ne_extreme_of_leaves hscalar hrange)
    refine ⟨m', hcompletes, hstack, hstore, ?_, ?_⟩
    · rw [hstore, Division.value_quotient _ _ hscalar, toInteger_wrap size.bits_pos hrange]
    · rw [hstore, Division.value_remainder _ _ hscalar, toInteger_wrap size.bits_pos hremainder]

/-- A store with words in the first registers. -/
def holding (eax ecx edx : UInt32) : Wasm.Store Unit where
  globals := fun index => if index = 0 then eax else if index = 1 then ecx else if index = 2 then edx else 0
  memory := ⟨0, fun _ => 0⟩
  world := ()

/-- A signed division of −521 by its own low byte, which is −9. -/
theorem divides_of_decode_holding :
    ∃ i m', X86.decode [0xf6, 0xf8] 0x1000 = .ok (i, 2) ∧ i.mnemonic = .divide true ∧
      (∀ op ∈ i.operands, op.InBounds (holding 0x1234fdf7 0 0)) ∧
      Completes (fun _ _ => .error .trap) (instruction 0 0 i).code (.start (holding 0x1234fdf7 0 0)) m' ∧
      m'.store.get .eax = 0x1234f839 := by
  have hdecode : X86.decode [0xf6, 0xf8] 0x1000 =
      .ok (⟨{}, 0xf6, .divide true, [.register 0 .bits8 false none], 0x1000, 0x1002⟩, 2) := by
    decide +kernel
  have hbounds : ∀ op ∈ [Operand.register 0 .bits8 false none], op.InBounds (holding 0x1234fdf7 0 0) := by
    decide +kernel
  obtain ⟨-, size, divisor, -, hdivisor, hoperands, -, hdivides⟩ :=
    divides_of_decode hdecode rfl (fun _ _ => .error .trap) 0 0 (.start (holding 0x1234fdf7 0 0)) hbounds
  cases hoperands
  cases hdivisor.size?_eq
  obtain ⟨m', hcompletes, -, hstore, -⟩ := hdivides (by decide +kernel) _ rfl (by decide +kernel)
  refine ⟨_, m', hdecode, rfl, hbounds, hcompletes, ?_⟩
  rw [hstore]
  decide +kernel

/-- Where the quotient has more bits than the divisor, the code of a decoded division does not raise an interrupt.  It
completes with the low bits of the quotient and the remainder in their registers; only the quotient of the least
integer of 64 bits and minus one, in a signed division by 32 bits, traps. -/
theorem truncates_of_decode {bytes : List UInt8} {address : UInt32} {n : Nat} {signed : Bool}
    (h : X86.decode bytes address = .ok (i, n)) (hm : i.mnemonic = .divide signed) (host : Host Callee ω)
    (chunk : UInt32) (toLoop : Nat) (m : Wasm.Machine ω) (hbounds : ∀ op ∈ i.operands, op.InBounds m.store) :
    ∃ size divisor, size.bits ∈ [8, 16, 32] ∧ divisor.Writable size ∧ i.operands = [divisor] ∧
      (divisor.value m.store ≠ 0 → ∀ d, d = X86.divisionBy signed size m.store divisor →
        leaves signed size.bits d.quotient = true →
        (∀ c, Config.Reaches host ⟨(instruction chunk toLoop i).code, [], m⟩ c → ¬ Interrupts host 0 m.store c) ∧
        ((d = .extreme ∧ signed = true ∧ size = .bits32 ∧
            Attains host (instruction chunk toLoop i).code m (TrapsOn host m.store)) ∨
          (d ≠ .extreme ∧ ∃ m', Completes host (instruction chunk toLoop i).code m m' ∧ m'.stack = m.stack ∧
            m'.store = (d.effect size).apply m.store ∧
            (Operand.reg 0 size).value m'.store = wrap size.bits d.quotient))) := by
  obtain ⟨size, divisor, hdivisor, hoperands⟩ := X86.operands_of_divide h hm
  have hscalar := hdivisor.scalar
  have hdivisorBounds := hbounds divisor (by simp [hoperands])
  refine ⟨size, divisor, OperandSize.bits_mem hscalar, hdivisor, hoperands, ?_⟩
  rintro hzero d rfl -
  by_cases hextreme : X86.divisionBy signed size m.store divisor = .extreme
  · obtain ⟨rfl, rfl⟩ := X86.bits32_of_divisionBy_eq_extreme hscalar hextreme
    have htraps : Attains host (instruction chunk toLoop i).code m (TrapsOn host m.store) :=
      attains_instruction (by rw [computation?, hm])
        (attains_divide_extreme host hdivisor hoperands hdivisorBounds hextreme)
    refine ⟨fun c hc => ?_, .inl ⟨hextreme, rfl, rfl, htraps⟩⟩
    obtain ⟨e, he, htrap⟩ := htraps.exists_reaches
    exact not_interrupts_of_trapsOn htrap he hc
  · obtain ⟨m', hcompletes, hstack, hstore⟩ := completes_divide host chunk toLoop hm hdivisor hoperands hdivisorBounds
      hzero hextreme
    refine ⟨fun c hc => not_interrupts_of_completes hcompletes hc,
      .inr ⟨hextreme, m', hcompletes, hstack, hstore, ?_⟩⟩
    rw [hstore, Division.value_quotient _ _ hscalar]

/-- The least integer of 64 bits, in two registers, by minus one. -/
theorem truncates_of_decode_holding :
    ∃ i, X86.decode [0xf7, 0xf9] 0x1000 = .ok (i, 2) ∧ i.mnemonic = .divide true ∧
      (∀ op ∈ i.operands, op.InBounds (holding 0 0xffffffff 0x80000000)) ∧
      Attains (fun _ _ => .error .trap) (instruction 0 0 i).code (.start (holding 0 0xffffffff 0x80000000))
        (TrapsOn (fun _ _ => .error .trap) (holding 0 0xffffffff 0x80000000)) := by
  have hdecode : X86.decode [0xf7, 0xf9] 0x1000 =
      .ok (⟨{}, 0xf7, .divide true, [.register 1 .bits32 false none], 0x1000, 0x1002⟩, 2) := by
    decide +kernel
  have hbounds : ∀ op ∈ [Operand.register 1 .bits32 false none], op.InBounds (holding 0 0xffffffff 0x80000000) := by
    decide +kernel
  obtain ⟨size, divisor, -, hdivisor, hoperands, htruncates⟩ :=
    truncates_of_decode hdecode rfl (fun _ _ => .error .trap) 0 0 (.start (holding 0 0xffffffff 0x80000000)) hbounds
  cases hoperands
  cases hdivisor.size?_eq
  obtain ⟨-, ⟨-, -, -, htraps⟩ | ⟨hne, -⟩⟩ := htruncates (by decide +kernel) _ rfl (by decide +kernel)
  · exact ⟨_, hdecode, rfl, hbounds, htraps⟩
  · exact absurd (by decide +kernel) hne

/-- A division of 512 by one, whose quotient has no room in a byte, leaves zero there. -/
theorem not_interrupts_holding :
    ∃ i m', X86.decode [0xf6, 0xf1] 0x1000 = .ok (i, 2) ∧ i.mnemonic = .divide false ∧
      i.operands = [.reg 1 .bits8] ∧ (Operand.reg 1 .bits8).InBounds (holding 512 1 0) ∧
      (Operand.reg 1 .bits8).value (holding 512 1 0) = 1 ∧
      (X86.divisionBy false .bits8 (holding 512 1 0) (.reg 1 .bits8)).quotient = 512 ∧
      Completes (fun _ _ => .error .trap) (instruction 0 0 i).code (.start (holding 512 1 0)) m' ∧
      m'.store.get .eax = 0 ∧
      ¬ Attains (fun _ _ => .error .trap) (instruction 0 0 i).code (.start (holding 512 1 0))
        (Interrupts (fun _ _ => .error .trap) 0 (holding 512 1 0)) := by
  have hdecode : X86.decode [0xf6, 0xf1] 0x1000 =
      .ok (⟨{}, 0xf6, .divide false, [.reg 1 .bits8], 0x1000, 0x1002⟩, 2) := by
    decide +kernel
  obtain ⟨m', hcompletes, -, hstore⟩ :=
    completes_divide (i := ⟨{}, 0xf6, .divide false, [.reg 1 .bits8], 0x1000, 0x1002⟩)
    (m := .start (holding 512 1 0)) (fun _ _ => .error .trap) 0 0 rfl
    (Operand.writable_reg (by decide) (by decide : OperandSize.bits8 ≠ .bits128)) rfl
      (Operand.inBounds_reg _ 1 .bits8)
    (by decide +kernel) (by decide +kernel)
  refine ⟨_, m', hdecode, rfl, rfl, nofun, by decide +kernel, by decide +kernel, hcompletes, ?_, fun hattains => ?_⟩
  · rw [hstore]
    decide +kernel
  · obtain ⟨c, hreaches, hc⟩ := hattains.exists_reaches
    exact not_interrupts_of_completes hcompletes hreaches hc

end Lowering

end Ia32Wasm
