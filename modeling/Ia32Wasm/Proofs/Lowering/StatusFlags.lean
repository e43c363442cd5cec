import Ia32Wasm.Proofs.Lowering.FlagsWord
import Ia32Wasm.Proofs.Lowering.Operands
import Ia32Wasm.Proofs.Machine.Arithmetic

/-!
# The code of the status flags

After an operation its sources are in the locals and its result is in `t1`, and code computes the flags from their
bits. The flags that it sets are those of the exact result.

* `Sets` is about code that changes flags and nothing else; such code is put together with `Sets.append`.
* `sets_resultFlags` is about ZF, SF and PF, and `sets_auxiliaryFlag` about AF.
* `exec_addFlags`, `exec_subFlags` and `sets_logicFlags` are about all flags of a sum, a difference and a bitwise
  operation.
* `exec_carryAndOverflow` is about operations that set CF and OF in their own way.
-/

namespace Ia32Wasm

open Machine (Flag Slot)
open X86 (OperandSize)

/-- The machine with some flags set or cleared. -/
def Wasm.Machine.setFlags {ω : Type} (m : Wasm.Machine ω) (changes : Flag → Option Bool) : Wasm.Machine ω :=
  { m with store := m.store.setFlags changes }

theorem Wasm.Machine.setFlags_none {ω : Type} (m : Wasm.Machine ω) : (m.setFlags fun _ => none) = m := by
  rw [setFlags, Wasm.Store.setFlags_none]

/-- Of two changes of one flag the second counts. -/
theorem Wasm.Machine.setFlags_setFlags {ω : Type} (m : Wasm.Machine ω) (first second : Flag → Option Bool) :
    (m.setFlags first).setFlags second = m.setFlags fun f => (second f).or (first f) := by
  simp only [setFlags, Wasm.Store.setFlags_setFlags]

namespace Lowering

open Wasm (Value exec exec_append exec_cons)
open Wasm.Store (only)

variable {ω : Type} {m : Wasm.Machine ω} {size : OperandSize} {x y r : UInt32}

/-! ### Single flags -/

@[simp] theorem exec_getSlot_cons (slot : Slot) (code : Code) (m : Wasm.Machine ω) :
    exec (getSlot slot :: code) m = exec code (m.push (.i32 (m.store.get slot))) :=
  exec_cons rfl

private theorem exec_setFlag {value : Code} {b : Bool} (f : Flag) (h : exec value m = .ok (m.push (.ofBool b))) :
    exec (setFlag f value) m = .ok (m.setFlags (only f b)) := by
  have hword : (if b then 1 else 0 : UInt32) = b.toUInt32 := by cases b <;> rfl
  rw [setFlag, exec_append h, Wasm.Machine.setFlags, ← Wasm.Store.set_flag, ← hword]
  rfl

/-- One bit of the value on the stack as a truth value. -/
theorem exec_bitAt_eq_ofBool (m : Wasm.Machine ω) (word : UInt32) {bit : Nat} (h : bit < 32) :
    exec (bitAt bit) (m.push (.i32 word)) = .ok (m.push (.ofBool (word.toNat.testBit bit))) := by
  rw [exec_bitAt, shiftRight_and_one word h]
  rfl

private theorem exec_signOf (m : Wasm.Machine ω) {word : UInt32} (hsize : size ≠ .bits128)
    (h : word.toNat < 2 ^ size.bits) :
    exec (signOf size) (m.push (.i32 word)) =
    .ok (m.push (.ofBool (decide (toSigned size.bits word.toNat < 0)))) := by
  have hle := OperandSize.bits_le hsize
  have hpos := size.bits_pos
  rw [signOf, exec_bitAt_eq_ofBool m word (by omega), testBit_top hpos h]
  simp only [toSigned_neg_iff hpos h]

/-! ### Code that sets flags -/

/-- The sources and the result of an operation are where the code of the flags looks for them. -/
structure Staged (m : Wasm.Machine ω) (x y r : UInt32) : Prop where
  lhs : m.locals Local.lhs = .i32 x
  rhs : m.locals Local.rhs = .i32 y
  result : m.store.get .t1 = r

theorem Staged.setFlags (h : Staged m x y r) (changes : Flag → Option Bool) : Staged (m.setFlags changes) x y r :=
  ⟨h.lhs, h.rhs, (m.store.get_setFlags_of_ne changes fun _ => Slot.noConfusion).trans h.result⟩

/-- The machine with its sources and its result in view, so that code on them can be run. -/
theorem Staged.eq_mk (h : Staged m x y r) :
    m = ⟨m.stack, fun i => if i = Local.lhs then .i32 x else if i = Local.rhs then .i32 y else m.locals i,
      m.store.set .t1 r⟩ := by
  obtain ⟨stack, locals, s⟩ := m
  obtain ⟨hlhs, hrhs, hresult⟩ := h
  have hlocals : (fun i => if i = Local.lhs then .i32 x else if i = Local.rhs then .i32 y else locals i) =
    locals := by
    funext i
    by_cases hi : i = Local.lhs
    · rw [if_pos hi, hi, ← hlhs]
    · by_cases hj : i = Local.rhs
      · rw [if_neg hi, if_pos hj, hj, ← hrhs]
      · rw [if_neg hi, if_neg hj]
  rw [hlocals, ← hresult, Wasm.Store.set_get]

/-- From the sources and the result of an operation, code changes flags and nothing else. -/
def Sets (x y r : UInt32) (code : Code) (changes : Flag → Option Bool) : Prop :=
  ∀ (ω : Type) (m : Wasm.Machine ω), Staged m x y r → exec code m = .ok (m.setFlags changes)

/-- Code behind other code sets its flags last. -/
theorem Sets.append {first second : Code} {changes changes' : Flag → Option Bool} (hfirst : Sets x y r first changes)
    (hsecond : Sets x y r second changes') :
    Sets x y r (first ++ second) fun f => (changes' f).or (changes f) := by
  intro ω m hm
  rw [exec_append (hfirst ω m hm), hsecond ω _ (hm.setFlags changes), Wasm.Machine.setFlags_setFlags]

theorem Sets.congr {code : Code} {changes changes' : Flag → Option Bool} (h : Sets x y r code changes)
    (heq : ∀ f, changes f = changes' f) : Sets x y r code changes' :=
  funext heq ▸ h

/-- A test that computes a truth value sets a flag to it. -/
private theorem sets_setFlag {value : Code} {b : Bool} (f : Flag)
    (h : ∀ (ω : Type) (m : Wasm.Machine ω), Staged m x y r → exec value m = .ok (m.push (.ofBool b))) :
    Sets x y r (setFlag f value) (only f b) := fun ω m hm => exec_setFlag f (h ω m hm)

/-- The parity of the low byte, counted on the whole word that it leaves. -/
private theorem bitCount_low_byte (word : UInt32) :
    (Wasm.bitCount (word &&& 0xff) &&& 1 == 0) = evenParity word.toNat := by
  have hbyte : (word &&& 0xff).toNat = word.toNat % 2 ^ 8 := @OperandSize.toNat_and_mask .bits8 word (by decide)
  have hcount : (List.range 32).countP (word.toNat % 2 ^ 8).testBit = (List.range 8).countP word.toNat.testBit := by
    have hrange : List.range 32 = List.range 8 ++ (List.range 24).map (8 + ·) := rfl
    have hhigh : (List.range 24).countP ((word.toNat % 2 ^ 8).testBit ∘ (8 + ·)) = 0 := by
      rw [List.countP_eq_zero]
      intro j _
      rw [Function.comp_apply, Nat.testBit_mod_two_pow, decide_eq_false (by omega)]
      exact Bool.false_ne_true
    have hlow : (List.range 8).countP (word.toNat % 2 ^ 8).testBit = (List.range 8).countP word.toNat.testBit := by
      refine List.countP_congr fun j hj => ?_
      rw [Nat.testBit_mod_two_pow, decide_eq_true (List.mem_range.1 hj), Bool.true_and]
    rw [hrange, List.countP_append, List.countP_map, hhigh, hlow]
    rfl
  have hle : (List.range 8).countP word.toNat.testBit ≤ 8 := List.countP_le_length
  rw [Wasm.bitCount, hbyte, hcount, evenParity]
  generalize (List.range 8).countP word.toNat.testBit = count at hle ⊢
  revert count
  decide

private theorem toNat_beq_zero (word : UInt32) : (word.toNat == 0) = (word == 0) := by
  rw [Bool.eq_iff_iff, beq_iff_eq, beq_iff_eq]
  exact UInt32.toNat_inj (b := 0)

/-- Zero, sign and parity are those of the result. -/
theorem sets_resultFlags (hsize : size ≠ .bits128) (hr : r.toNat < 2 ^ size.bits) :
    Sets x y r (resultFlags size) (Result.status size.bits r.toNat) := by
  have hzero : Sets x y r (setFlag .zf [getSlot .t1, .op .i32Eqz]) (only .zf (r.toNat == 0)) := by
    refine sets_setFlag .zf fun ω m hm => ?_
    rw [toNat_beq_zero, hm.eq_mk]
    rfl
  have hsign : Sets x y r (setFlag .sf (getSlot .t1 :: signOf size))
      (only .sf (decide (toSigned size.bits r.toNat < 0))) := by
    refine sets_setFlag .sf fun ω m hm => ?_
    rw [exec_getSlot_cons, hm.result, exec_signOf m hsize hr]
  have hparity : Sets x y r (setFlag .pf [getSlot .t1, .i32Const 0xff, .op .i32And, .op .i32Popcnt, .i32Const 1,
      .op .i32And, .op .i32Eqz]) (only .pf (evenParity r.toNat)) := by
    refine sets_setFlag .pf fun ω m hm => ?_
    rw [← bitCount_low_byte, hm.eq_mk]
    rfl
  exact ((hzero.append hsign).append hparity).congr fun f => by cases f <;> rfl

/-- The auxiliary carry is the carry out of the low four bits. -/
theorem sets_auxiliaryFlag :
    Sets x y r auxiliaryFlag (only .af (x.toNat.testBit 4 ^^ y.toNat.testBit 4 ^^ r.toNat.testBit 4)) := by
  refine sets_setFlag .af fun ω m hm => ?_
  have hbits : exec [.localGet Local.lhs, .localGet Local.rhs, .op .i32Xor, getSlot .t1, .op .i32Xor] m =
      .ok (m.push (.i32 (x ^^^ y ^^^ r))) := by
    rw [hm.eq_mk]
    rfl
  rw [exec_append hbits, exec_bitAt_eq_ofBool m _ (by omega), UInt32.toNat_xor, UInt32.toNat_xor, Nat.testBit_xor,
    Nat.testBit_xor]

/-! ### Flags of exact results -/

/-- All flags of an exact result but CF. -/
private theorem sets_exceptCarry {f : Int → Int → Int} (word : UInt32) {overflow : Code} (hsize : size ≠ .bits128)
    (hr : r.toNat = wrap size.bits (f x.toNat y.toNat))
    (hword : ∀ (ω : Type) (m : Wasm.Machine ω), Staged m x y r → exec overflow m = .ok (m.push (.i32 word)))
    (hoverflow : word.toNat.testBit (size.bits - 1) =
      leavesSigned size.bits (f (toSigned size.bits x.toNat) (toSigned size.bits y.toNat)))
    (hauxiliary : (x.toNat.testBit 4 ^^ y.toNat.testBit 4 ^^ r.toNat.testBit 4) =
      leavesUnsigned 4 (f ↑(x.toNat % 16) ↑(y.toNat % 16))) :
    Sets x y r (setFlag .of (overflow ++ signOf size) ++ auxiliaryFlag ++ resultFlags size)
      (Result.exact size.bits f x.toNat y.toNat).keepingCarry.flags := by
  have hle := OperandSize.bits_le hsize
  have hpos := size.bits_pos
  have hof : Sets x y r (setFlag .of (overflow ++ signOf size))
      (only .of (leavesSigned size.bits (f (toSigned size.bits x.toNat) (toSigned size.bits y.toNat)))) := by
    refine sets_setFlag .of fun ω m hm => ?_
    rw [exec_append (hword ω m hm), signOf, exec_bitAt_eq_ofBool m _ (by omega), hoverflow]
  have hstatus : Sets x y r (resultFlags size) (Result.status size.bits r.toNat) :=
    sets_resultFlags hsize (hr ▸ wrap_lt _ _)
  refine ((hof.append sets_auxiliaryFlag).append hstatus).congr fun g => ?_
  rw [hauxiliary, hr]
  cases g <;> rfl

/-- The flags of an exact result, CF first. -/
private theorem exec_exactFlags {f : Int → Int → Int} {carry rest : Code} (h : Staged m x y r)
    (hcarry : exec carry m = .ok (m.push (.ofBool (leavesUnsigned size.bits (f x.toNat y.toNat)))))
    (hrest : Sets x y r rest (Result.exact size.bits f x.toNat y.toNat).keepingCarry.flags) :
    exec (setFlag .cf carry ++ rest) m = .ok (m.setFlags (Result.exact size.bits f x.toNat y.toNat).flags) := by
  rw [exec_append (exec_setFlag .cf hcarry), hrest _ _ (h.setFlags _), Wasm.Machine.setFlags_setFlags]
  refine congrArg (fun changes => Except.ok (m.setFlags changes)) ?_
  funext g
  cases g <;> rfl

/-! ### Sums -/

/-- A 64-bit number has a bit beyond a width when no number of the width is equal to it. -/
theorem exec_exceeds (m : Wasm.Machine ω) (word : UInt64) (hsize : size ≠ .bits128) :
    exec (exceeds size) (m.push (.i64 word)) = .ok (m.push (.ofBool (leavesUnsigned size.bits word.toNat))) := by
  have hbits : (UInt64.ofNat size.bits).toNat % 64 = size.bits := by
    cases size <;> first | rfl | exact absurd rfl hsize
  have hcast : ((2 ^ size.bits : Nat) : Int) = 2 ^ size.bits := Int.natCast_pow 2 _
  have hzero : word >>> UInt64.ofNat size.bits = 0 ↔ word.toNat < 2 ^ size.bits := by
    rw [← UInt64.toNat_inj, UInt64.toNat_shiftRight, hbits, Nat.shiftRight_eq_div_pow]
    exact Nat.div_eq_zero_iff_lt (Nat.two_pow_pos _)
  have htest : (word >>> UInt64.ofNat size.bits != 0) = leavesUnsigned size.bits word.toNat := by
    rw [Bool.eq_iff_iff, bne_iff_ne, ne_eq, hzero, leavesUnsigned, decide_eq_true_eq, ← hcast]
    omega
  rw [← htest]
  rfl

/-- All flags of a sum but CF. -/
theorem sets_addFlags (carryIn : Bool) (hsize : size ≠ .bits128) (hx : x.toNat < 2 ^ size.bits)
    (hy : y.toNat < 2 ^ size.bits) {carry : Nat} (hcarry : carry ≤ 1)
    (hr : r.toNat = wrap size.bits (x.toNat + y.toNat + carry)) :
    Sets x y r (addFlags size carryIn false)
      (Result.exact size.bits (fun a b => a + b + carry) x.toNat y.toNat).keepingCarry.flags := by
  have hfive : 5 ≤ size.bits := by cases size <;> decide
  refine sets_exceptCarry ((x ^^^ r) &&& (y ^^^ r)) hsize hr (fun ω m hm => ?_) ?_ ?_
  · rw [hm.eq_mk]
    rfl
  · rw [leavesSigned_add size.bits_pos hx hy hcarry, ← hr]
    simp only [UInt32.toNat_and, UInt32.toNat_xor, Nat.testBit_and, Nat.testBit_xor]
  · rw [leavesUnsigned_four_add hfive hcarry, hr]

/-- The flags of a sum of two numbers of a width, and of the carry if it is added too. -/
theorem exec_addFlags (h : Staged m x y r) (carryIn : Bool) (hsize : size ≠ .bits128) (hx : x.toNat < 2 ^ size.bits)
    (hy : y.toNat < 2 ^ size.bits) {carry : Nat} (hcarry : carry ≤ 1)
    (hin : carry = if carryIn then (m.store.get (.flag .cf)).toNat else 0)
    (hr : r.toNat = wrap size.bits (x.toNat + y.toNat + carry)) :
    exec (addFlags size carryIn true) m =
      .ok (m.setFlags (Result.exact size.bits (fun a b => a + b + carry) x.toNat y.toNat).flags) := by
  have hx' := x.toNat_lt
  have hy' := y.toNat_lt
  obtain ⟨word, hword, hsum⟩ : ∃ word : UInt64,
      exec (wideSources ++ ([.op .i64Add] : Code) ++ if carryIn then addWideCarry else []) m =
        .ok (m.push (.i64 word)) ∧
        word.toNat = x.toNat + y.toNat + carry := by
    cases carryIn with
    | false =>
      have hzero : carry = 0 := hin
      refine ⟨x.toUInt64 + y.toUInt64, ?_, ?_⟩
      · rw [h.eq_mk]
        rfl
      · rw [UInt64.toNat_add, UInt32.toNat_toUInt64, UInt32.toNat_toUInt64]
        omega
    | true =>
      have hflag : carry = (m.store.get (.flag .cf)).toNat := hin
      refine ⟨x.toUInt64 + y.toUInt64 + (m.store.get (.flag .cf)).toUInt64, ?_, ?_⟩
      · rw [h.eq_mk]
        rfl
      · rw [UInt64.toNat_add, UInt64.toNat_add, UInt32.toNat_toUInt64, UInt32.toNat_toUInt64, UInt32.toNat_toUInt64]
        omega
  have hcode : addFlags size carryIn true =
      setFlag .cf (wideSources ++ ([.op .i64Add] : Code) ++ (if carryIn then addWideCarry else []) ++ exceeds size) ++
        addFlags size carryIn false := by
    simp [addFlags]
  rw [hcode]
  refine exec_exactFlags h ?_ (sets_addFlags carryIn hsize hx hy hcarry hr)
  rw [exec_append hword, exec_exceeds m word hsize, hsum]
  rfl

/-! ### Differences -/

/-- All flags of a difference but CF. -/
theorem sets_subFlags (borrowIn : Bool) (hsize : size ≠ .bits128) (hx : x.toNat < 2 ^ size.bits)
    (hy : y.toNat < 2 ^ size.bits) {borrow : Nat} (hborrow : borrow ≤ 1)
    (hr : r.toNat = wrap size.bits (x.toNat - y.toNat - borrow)) :
    Sets x y r (subFlags size borrowIn false)
      (Result.exact size.bits (fun a b => a - b - borrow) x.toNat y.toNat).keepingCarry.flags := by
  have hfive : 5 ≤ size.bits := by cases size <;> decide
  refine sets_exceptCarry ((x ^^^ y) &&& (x ^^^ r)) hsize hr (fun ω m hm => ?_) ?_ ?_
  · rw [hm.eq_mk]
    rfl
  · rw [leavesSigned_sub size.bits_pos hx hy hborrow, ← hr]
    simp only [UInt32.toNat_and, UInt32.toNat_xor, Nat.testBit_and, Nat.testBit_xor]
  · rw [leavesUnsigned_four_sub hfive hborrow, hr]

/-- The flags of a difference of two numbers of a width, and of the borrow if it is taken away too. -/
theorem exec_subFlags (h : Staged m x y r) (borrowIn : Bool) (hsize : size ≠ .bits128) (hx : x.toNat < 2 ^ size.bits)
    (hy : y.toNat < 2 ^ size.bits) {borrow : Nat} (hborrow : borrow ≤ 1)
    (hin : borrow = if borrowIn then (m.store.get (.flag .cf)).toNat else 0)
    (hr : r.toNat = wrap size.bits (x.toNat - y.toNat - borrow)) :
    exec (subFlags size borrowIn true) m =
      .ok (m.setFlags (Result.exact size.bits (fun a b => a - b - borrow) x.toNat y.toNat).flags) := by
  have hcast : ((2 ^ size.bits : Nat) : Int) = 2 ^ size.bits := Int.natCast_pow 2 _
  have hleaves : leavesUnsigned size.bits (x.toNat - y.toNat - borrow) = decide (x.toNat < y.toNat + borrow) := by
    rw [leavesUnsigned, decide_eq_decide, ← hcast]
    omega
  have hcode : subFlags size borrowIn true =
      setFlag .cf (if borrowIn then wideSources ++ addWideCarry ++ ([.op .i64LtU] : Code)
        else [.localGet Local.lhs, .localGet Local.rhs, .op .i32LtU]) ++ subFlags size borrowIn false := by
    simp [subFlags]
  rw [hcode]
  refine exec_exactFlags h ?_ (sets_subFlags borrowIn hsize hx hy hborrow hr)
  rw [hleaves]
  cases borrowIn with
  | false =>
    have hzero : borrow = 0 := hin
    have htest : decide (x < y) = decide (x.toNat < y.toNat + borrow) := by
      rw [decide_eq_decide, UInt32.lt_iff_toNat_lt, hzero, Nat.add_zero]
    rw [← htest, h.eq_mk]
    rfl
  | true =>
    have hflag : borrow = (m.store.get (.flag .cf)).toNat := hin
    have htest : decide (x.toUInt64 < y.toUInt64 + (m.store.get (.flag .cf)).toUInt64) =
        decide (x.toNat < y.toNat + borrow) := by
      have hy' := y.toNat_lt
      rw [decide_eq_decide, UInt64.lt_iff_toNat_lt, UInt64.toNat_add, UInt32.toNat_toUInt64, UInt32.toNat_toUInt64,
        UInt32.toNat_toUInt64]
      omega
    rw [← htest, h.eq_mk]
    rfl

/-! ### Bitwise operations -/

private theorem sets_clearFlag (x y r : UInt32) (f : Flag) : Sets x y r (clearFlag f) (only f false) :=
  sets_setFlag f fun _ _ _ => rfl

/-- A bitwise operation clears carry and overflow. -/
theorem sets_logicFlags (hsize : size ≠ .bits128) (hr : r.toNat < 2 ^ size.bits) :
    Sets x y r (logicFlags size) (Result.bitwise size.bits r.toNat).flags := by
  have hcleared := ((sets_clearFlag x y r .cf).append (sets_clearFlag x y r .of)).append (sets_clearFlag x y r .af)
  exact (hcleared.append (sets_resultFlags hsize hr)).congr fun f => by cases f <;> rfl

/-! ### CF and OF alone -/

/-- A change of CF and OF. -/
def carryAndOverflow (p q : Bool) : Flag → Option Bool
  | .cf => some p
  | .of => some q
  | _ => none

/-- OF is set after CF and may be computed from it. -/
theorem exec_carryAndOverflow {carry overflow : Code} {p q : Bool} (hcarry : exec carry m = .ok (m.push (.ofBool p)))
    (hoverflow : exec overflow (m.setFlags (only .cf p)) = .ok ((m.setFlags (only .cf p)).push (.ofBool q))) :
    exec (setFlag .cf carry ++ setFlag .of overflow) m = .ok (m.setFlags (carryAndOverflow p q)) := by
  rw [exec_append (exec_setFlag .cf hcarry), exec_setFlag .of hoverflow, Wasm.Machine.setFlags_setFlags]
  refine congrArg (fun changes => Except.ok (m.setFlags changes)) ?_
  funext f
  cases f <;> rfl

end Lowering

end Ia32Wasm
