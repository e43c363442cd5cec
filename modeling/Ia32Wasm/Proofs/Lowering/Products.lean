import Ia32Wasm.Proofs.Lowering.Results

/-!
# Products

The product of two numbers of at most 32 bits is formed in 64 bits, which is enough for it to be exact
(`toNat_wideProduct`).  Its parts go into the destinations, and the flags say whether the low part alone stands for
the product (`exec_multiplyFlags`).  The flags are computed last, from the 64 bits and not from the destinations, so
it does not matter that these may be the sources.
-/

namespace Ia32Wasm

open Machine (Flag Slot)
open Wasm (Completes Host exec exec_append)
open Wasm.Store (only)
open X86 (Instruction Operand OperandSize)

/-! ### Exact products -/

private theorem natAbs_signedProduct_le {width : Nat} (hwidth : width ≤ 32) (a b : Nat) :
    (exactProduct true width a b).natAbs ≤ 2 ^ 62 := by
  show (toSigned width a * toSigned width b).natAbs ≤ 2 ^ 31 * 2 ^ 31
  rw [Int.natAbs_mul]
  exact Nat.mul_le_mul (natAbs_toSigned_le hwidth a) (natAbs_toSigned_le hwidth b)

/-- Integers that are not too large are told apart by 64 bits. -/
private theorem wrap_inj_of_natAbs_le {u v : Int} (hu : u.natAbs ≤ 2 ^ 62) (hv : v.natAbs ≤ 2 ^ 62) :
    wrap 64 u = wrap 64 v ↔ u = v := by
  have hwrapU : (wrap 64 u : Int) = u % 2 ^ 64 := natCast_wrap 64 u
  have hwrapV : (wrap 64 v : Int) = v % 2 ^ 64 := natCast_wrap 64 v
  omega

/-! ### Words of 64 bits -/

variable {size : OperandSize} {x y : UInt32} {p : UInt64}

/-- A word of 32 bits extended to 64. -/
def wideWord (signed : Bool) (size : OperandSize) (word : UInt32) : UInt64 :=
  if signed then (signedWord size word).toInt32.toInt64.toUInt64 else word.toUInt64

theorem toNat_toUInt64 (v : Int64) : v.toUInt64.toNat = wrap 64 v.toInt := by
  have hofInt : (BitVec.ofInt 64 v.toBitVec.toInt).toNat = wrap 64 v.toBitVec.toInt := BitVec.toNat_ofInt _
  rw [BitVec.ofInt_toInt] at hofInt
  exact hofInt

/-- A factor is extended to 64 bits by its sign or by zeros. -/
theorem toNat_wideWord (signed : Bool) (hsize : size ≠ .bits128) (word : UInt32) :
    (wideWord signed size word).toNat = wrap 64 (if signed then toSigned size.bits word.toNat else word.toNat) := by
  cases signed with
  | true =>
    show (signedWord size word).toInt32.toInt64.toUInt64.toNat = wrap 64 (toSigned size.bits word.toNat)
    rw [toNat_toUInt64, Int32.toInt_toInt64, toInt_signedWord word hsize]
  | false =>
    have hlt := word.toNat_lt
    show word.toUInt64.toNat = wrap 64 word.toNat
    rw [UInt32.toNat_toUInt64, wrap_natCast, Nat.mod_eq_of_lt (by omega)]

/-- The product of extended factors is the exact one up to 64 bits. -/
theorem toNat_wideProduct (signed : Bool) (hsize : size ≠ .bits128) (x y : UInt32) :
    (wideWord signed size x * wideWord signed size y).toNat =
    wrap 64 (exactProduct signed size.bits x.toNat y.toNat) := by
  rw [UInt64.toNat_mul, toNat_wideWord signed hsize, toNat_wideWord signed hsize, wrap_mul]
  cases signed <;> rfl

variable {z : Int}

/-- The low part of what an integer wraps around to. -/
theorem toNat_lowPart (hsize : size ≠ .bits128) (hp : p.toNat = wrap 64 z) :
    (p.toUInt32 &&& size.mask).toNat = wrap size.bits z := by
  refine toNat_and_mask_eq_wrap hsize ?_
  rw [UInt64.toNat_toUInt32, hp, wrap_mod_two_pow z (by omega)]

/-- The part above the low part of what an integer wraps around to. -/
private theorem toNat_highPart (hsize : size ≠ .bits128) (hp : p.toNat = wrap 64 z) :
    ((p >>> UInt64.ofNat size.bits).toUInt32 &&& size.mask).toNat = wrap (2 * size.bits) z / 2 ^ size.bits := by
  have hle := OperandSize.bits_le hsize
  have hcount : (UInt64.ofNat size.bits).toNat % 64 = size.bits := by
    cases size <;> first | rfl | exact absurd rfl hsize
  have hdvd : 2 ^ size.bits ∣ 2 ^ 32 := Nat.pow_dvd_pow 2 hle
  rw [OperandSize.toNat_and_mask _ hsize, UInt64.toNat_toUInt32, Nat.mod_mod_of_dvd _ hdvd, UInt64.toNat_shiftRight,
    hcount, Nat.shiftRight_eq_div_pow, hp]
  rw [← Nat.mod_mul_right_div_self, ← Nat.pow_add, ← Nat.two_mul, wrap_mod_two_pow z (by omega)]

/-- A product is out of range when its low part, taken as a signed number, is another number. -/
private theorem bne_wideWord (hsize : size ≠ .bits128) (hp : p.toNat = wrap 64 z) (hz : z.natAbs ≤ 2 ^ 62) :
    (p != wideWord true size p.toUInt32) = leavesSigned size.bits z := by
  have hle := OperandSize.bits_le hsize
  have hlow : toSigned size.bits p.toUInt32.toNat = z.bmod (2 ^ size.bits) := by
    rw [UInt64.toNat_toUInt32, hp, wrap_mod_two_pow z (by omega), toSigned_wrap z hle]
  have hwide : (wideWord true size p.toUInt32).toNat = wrap 64 (toSigned size.bits p.toUInt32.toNat) :=
    toNat_wideWord true hsize p.toUInt32
  have hsmall := Nat.le_trans (natAbs_toSigned_le hle p.toUInt32.toNat) (by decide : 2 ^ 31 ≤ 2 ^ 62)
  rw [leavesSigned_eq size.bits_pos, Bool.eq_iff_iff, bne_iff_ne, decide_eq_true_iff, ne_eq, ← UInt64.toNat_inj,
    hp, hwide,
    wrap_inj_of_natAbs_le hz hsmall, hlow]

namespace Lowering

variable {ω : Type} {host : Host Callee ω} {m m' : Wasm.Machine ω} {i : Instruction} {r : UInt32}

/-! ### Code of products -/

/-- The code of the extension computes it. -/
theorem exec_extendWide (signed : Bool) (hsize : size ≠ .bits128) (m : Wasm.Machine ω) (word : UInt32) :
    exec (extendWide size signed) (m.push (.i32 word)) = .ok (m.push (.i64 (wideWord signed size word))) := by
  cases signed with
  | true => exact (exec_append (exec_signExtend hsize m word)).trans rfl
  | false => rfl

/-- The machine with two words in the locals for sources and a product in the one for 64 bits. -/
def multiplied (m : Wasm.Machine ω) (x y : UInt32) (p : UInt64) : Wasm.Machine ω :=
  (staging m x y).setLocal Local.wide (.i64 p)

private theorem exec_wideProduct (signed : Bool) (hsize : size ≠ .bits128) (m : Wasm.Machine ω) (x y : UInt32) :
    exec (wideProduct size signed) (staging m x y) =
      .ok (multiplied m x y (wideWord signed size x * wideWord signed size y)) := by
  have hlhs : exec (.localGet Local.lhs :: extendWide size signed) (staging m x y) =
      .ok ((staging m x y).push (.i64 (wideWord signed size x))) := exec_extendWide signed hsize _ x
  have hrhs : exec (.localGet Local.rhs :: extendWide size signed)
      ((staging m x y).push (.i64 (wideWord signed size x))) =
      .ok (((staging m x y).push (.i64 (wideWord signed size x))).push (.i64 (wideWord signed size y))) :=
    exec_extendWide signed hsize _ y
  rw [wideProduct, List.append_assoc, exec_append hlhs]
  exact (exec_append hrhs).trans rfl

private theorem exec_lowHalf (hwide : m.locals Local.wide = .i64 p) :
    exec lowHalf m = .ok (m.push (.i32 p.toUInt32)) := by
  rw [lowHalf, Wasm.exec_localGet, hwide]
  rfl

/-- The code of CF computes whether the product is out of the range of the sources. -/
private theorem exec_productLeaves (signed : Bool) (hsize : size ≠ .bits128) {a b : Nat} (ha : a < 2 ^ size.bits)
    (hb : b < 2 ^ size.bits) (hwide : m.locals Local.wide = .i64 p)
    (hp : p.toNat = wrap 64 (exactProduct signed size.bits a b)) :
    exec (.localGet Local.wide ::
      (if signed then lowHalf ++ signExtend size ++ ([.op .i64ExtendI32S, .op .i64Ne] : Code) else exceeds size)) m =
      .ok (m.push (.ofBool
        ((if signed then leavesSigned else leavesUnsigned) size.bits (exactProduct signed size.bits a b)))) := by
  have hle := OperandSize.bits_le hsize
  rw [Wasm.exec_localGet, hwide]
  cases signed with
  | true =>
    have hlow : exec lowHalf (m.push (.i64 p)) = .ok ((m.push (.i64 p)).push (.i32 p.toUInt32)) := exec_lowHalf hwide
    have hextend : exec (lowHalf ++ signExtend size) (m.push (.i64 p)) =
        .ok ((m.push (.i64 p)).push (.i32 (signedWord size p.toUInt32))) :=
      (exec_append hlow).trans (exec_signExtend hsize _ p.toUInt32)
    have hleaves := bne_wideWord hsize hp (natAbs_signedProduct_le hle a b)
    rw [if_pos rfl, if_pos rfl, exec_append hextend, ← hleaves]
    rfl
  | false =>
    have hpow : 2 ^ size.bits ≤ 2 ^ 32 := Nat.pow_le_pow_right (by omega) hle
    have hlt : a * b < 2 ^ 64 := calc
      a * b < 2 ^ 32 * 2 ^ 32 := Nat.mul_lt_mul'' (Nat.lt_of_lt_of_le ha hpow) (Nat.lt_of_lt_of_le hb hpow)
      _ = 2 ^ 64 := by decide
    have hexact : (p.toNat : Int) = exactProduct false size.bits a b := by
      have hproduct : exactProduct false size.bits a b = (a * b : Nat) := rfl
      rw [hp, hproduct, wrap_natCast, Nat.mod_eq_of_lt hlt]
    rw [← hexact]
    exact exec_exceeds m p hsize

/-- The flags of a product say whether it fits the size of its factors. -/
theorem exec_multiplyFlags (signed : Bool) (hsize : size ≠ .bits128) {a b : Nat} (ha : a < 2 ^ size.bits)
    (hb : b < 2 ^ size.bits) (hwide : m.locals Local.wide = .i64 p)
    (hp : p.toNat = wrap 64 (exactProduct signed size.bits a b)) :
    exec (multiplyFlags size signed) m = .ok (m.setFlags (Result.product signed size.bits a b).flags) := by
  have hcopy : ∀ q : Bool, exec [getFlag .cf] (m.setFlags (only .cf q)) =
      .ok ((m.setFlags (only .cf q)).push (.ofBool q)) := by
    intro q
    refine (exec_getSlot_cons (.flag .cf) [] _).trans ?_
    rw [Wasm.exec_nil, Wasm.Machine.setFlags, Wasm.Store.get_setFlags]
    cases q <;> rfl
  have hflags : (Result.product signed size.bits a b).flags = carryAndOverflow
      ((if signed then leavesSigned else leavesUnsigned) size.bits (exactProduct signed size.bits a b))
      ((if signed then leavesSigned else leavesUnsigned) size.bits (exactProduct signed size.bits a b)) := by
    funext f
    cases f <;> rfl
  rw [hflags]
  exact exec_carryAndOverflow (exec_productLeaves signed hsize ha hb hwide hp) (hcopy _)

/-! ### Instructions -/

/-- A signed product goes into a destination as far as there is room. -/
private theorem performs_productInto {destination lhs rhs : Operand} (host : Host Callee ω) (chunk : UInt32)
    (toLoop : Nat)
    (hm : i.mnemonic = .multiply true) (hdestination : destination.Writable size) (hlhs : lhs.Readable size)
    (hrhs : rhs.Readable size) (hoperands : i.operands = [destination, lhs, rhs])
    (hdestinationBounds : destination.InBounds m.store) (hlhsBounds : lhs.InBounds m.store)
    (hrhsBounds : rhs.InBounds m.store) :
    Performs host chunk toLoop i m (X86.productInto size m.store destination lhs rhs) := by
  have hscalar := hdestination.scalar
  have hx := hlhs.toNat_value m.store
  have hy := hrhs.toNat_value m.store
  have hstage : Executes host (stage lhs rhs) () m _ := executes_stage hlhs hrhs hlhsBounds hrhsBounds
  generalize UInt32.ofNat (lhs.value m.store) = x at hx hstage
  generalize UInt32.ofNat (rhs.value m.store) = y at hy hstage
  have hproduct := toNat_wideProduct true hscalar x y
  have hwide := exec_wideProduct true hscalar m x y
  generalize wideWord true size x * wideWord true size y = p at hproduct hwide
  have hcode : exec (wideProduct size true ++ lowHalf) (staging m x y) =
      .ok ((multiplied m x y p).push (.i32 p.toUInt32)) := (exec_append hwide).trans (exec_lowHalf rfl)
  obtain ⟨m₂, hfinish, hfinished⟩ := executes_finishResult host size (some destination) (m := multiplied m x y p)
    (by rintro _ ⟨⟩; exact ⟨hdestination, hdestinationBounds⟩) rfl rfl p.toUInt32
  have hbody : Executes host (multiply true i) () m m₂ := by
    rw [multiply, hoperands]
    exact executes_bind (executes_scalarSize hdestination.toReadable m)
      (executes_bind hstage (executes_bind (executes_emit hcode) hfinish))
  have hflags := exec_multiplyFlags true hscalar (hlhs.value_lt m.store) (hrhs.value_lt m.store) hfinished.wide
    (by rw [hproduct, hx, hy])
  refine performs_of_finished (by rw [computation?, hm]) hbody (executes_updateFlags (by rw [hm]; rfl)
    (by rw [hoperands]; rfl) hdestination.toReadable (Wasm.runs_of_exec hflags)) hfinished rfl rfl ?_
  rw [toNat_lowPart hscalar hproduct, hx, hy, ← wrap_mod_two_pow _ (by omega : size.bits ≤ 2 * size.bits)]
  rfl

/-- The halves of a product go into the accumulator and its extension. -/
private theorem executes_storeProduct (host : Host Callee ω) (hsize : size ≠ .bits128)
    (hwide : m.locals Local.wide = .i64 p)
    (hp : p.toNat = wrap 64 z) (hlow : m.store.get .t1 = p.toUInt32 &&& size.mask) :
    ∃ m₂, Executes host (if size = .bits8 then do
        emit (lowHalf ++ ([.i32Const 0xffff, .op .i32And] : Code))
        storeRegister 0 .bits16
      else do
        emit [getSlot .t1]
        storeRegister 0 size
        emit (highPart size)
        storeRegister 2 size) () m m₂ ∧
      m₂.stack = m.stack ∧ m₂.locals Local.wide = m.locals Local.wide ∧
      m₂.store = (X86.accumulatorParts size (wrap (2 * size.bits) z)).foldl
      (fun s x => x.1.assign s x.2) m.store := by
  by_cases hbyte : size = .bits8
  · have hwhole : exec (lowHalf ++ ([.i32Const 0xffff, .op .i32And] : Code)) m =
        .ok (m.push (.i32 (p.toUInt32 &&& OperandSize.bits16.mask))) := (exec_append (exec_lowHalf hwide)).trans rfl
    obtain ⟨w, hstore⟩ := executes_storeOperand host (m := m) (Operand.writable_reg (by decide) (by decide))
      (Operand.inBounds_reg m.store 0 .bits16) (p.toUInt32 &&& OperandSize.bits16.mask)
    rw [toNat_lowPart (by decide) hp] at hstore
    subst hbyte
    exact ⟨_, executes_bind (executes_emit hwhole) hstore, rfl, rfl, rfl⟩
  · have hhalf : wrap size.bits z = wrap (2 * size.bits) z % 2 ^ size.bits := (wrap_mod_two_pow z (by omega)).symm
    have hload : exec [getSlot .t1] m = .ok (m.push (.i32 (p.toUInt32 &&& size.mask))) := by
      rw [exec_getSlot, hlow]
    obtain ⟨w, hstoreLow⟩ := executes_storeOperand host (m := m) (Operand.writable_reg (by decide) hsize)
      (Operand.inBounds_reg m.store 0 size) (p.toUInt32 &&& size.mask)
    rw [toNat_lowPart hsize hp, hhalf] at hstoreLow
    generalize hfirst : assigned m (.reg 0 size) (wrap (2 * size.bits) z % 2 ^ size.bits) w = m₁ at hstoreLow
    have hhigh : exec (highPart size) m₁ =
        .ok (m₁.push (.i32 ((p >>> UInt64.ofNat size.bits).toUInt32 &&& size.mask))) := by
      have hkept : m₁.locals Local.wide = .i64 p := hfirst ▸ hwide
      refine (exec_append ?_).trans (exec_maskTo size m₁ (p >>> UInt64.ofNat size.bits).toUInt32)
      rw [Wasm.exec_localGet, hkept]
      rfl
    obtain ⟨w', hstoreHigh⟩ := executes_storeOperand host (m := m₁) (Operand.writable_reg (by decide) hsize)
      (Operand.inBounds_reg m₁.store 2 size) ((p >>> UInt64.ofNat size.bits).toUInt32 &&& size.mask)
    rw [toNat_highPart hsize hp] at hstoreHigh
    rw [if_neg hbyte]
    refine ⟨_, executes_bind (executes_emit hload) (executes_bind hstoreLow
      (executes_bind (executes_emit hhigh) hstoreHigh)), ?_, ?_, ?_⟩
    · exact hfirst ▸ rfl
    · exact hfirst ▸ rfl
    · rw [X86.accumulatorParts, if_neg hbyte]
      exact hfirst ▸ rfl

private theorem foldl_assign_set_t1 (assigned : List (Operand × Nat)) (s : Wasm.Store ω) (word : UInt32) :
    assigned.foldl (fun s x => x.1.assign s x.2) (s.set .t1 word) =
      (assigned.foldl (fun s x => x.1.assign s x.2) s).set .t1 word := by
  induction assigned generalizing s with
  | nil => rfl
  | cons x assigned ih => rw [List.foldl_cons, Operand.assign_set_t1, ih, List.foldl_cons]

/-- The body of a product into the accumulator assigns the product, in one register or in two, and leaves it in the
local for 64 bits. -/
private theorem executes_multiplyAccumulator {source : Operand} (host : Host Callee ω) (signed : Bool)
    (hsource : source.Writable size) (hbounds : source.InBounds m.store) :
    ∃ m₂ p r, Executes host (multiplyAccumulator signed source) () m m₂ ∧ m₂.stack = m.stack ∧
      m₂.locals Local.wide = .i64 p ∧
      p.toNat = wrap 64 (exactProduct signed size.bits ((Operand.reg 0 size).value m.store) (source.value m.store)) ∧
      m₂.store = ((X86.accumulatorProduct signed size m.store source).assigned.foldl (fun s x => x.1.assign s x.2)
        m.store).set .t1 r := by
  have hscalar := hsource.scalar
  have haccumulator : (Operand.reg 0 size).Writable size := Operand.writable_reg (by decide) hscalar
  have hx := haccumulator.toNat_value m.store
  have hy := hsource.toNat_value m.store
  have hstage : Executes host (stage (.reg 0 size) source) () m _ :=
    executes_stage haccumulator.toReadable hsource.toReadable (Operand.inBounds_reg m.store 0 size) hbounds
  generalize UInt32.ofNat ((Operand.reg 0 size).value m.store) = x at hx hstage
  generalize UInt32.ofNat (source.value m.store) = y at hy hstage
  have hproduct := toNat_wideProduct signed hscalar x y
  have hwide := exec_wideProduct signed hscalar m x y
  generalize wideWord signed size x * wideWord signed size y = p at hproduct hwide
  have hlow : exec (wideProduct size signed ++ lowHalf) (staging m x y) =
      .ok ((multiplied m x y p).push (.i32 p.toUInt32)) := (exec_append hwide).trans (exec_lowHalf rfl)
  have hcode : exec (wideProduct size signed ++ lowHalf ++ maskTo size ++ [setSlot .t1]) (staging m x y) =
      .ok { multiplied m x y p with store := m.store.set .t1 (p.toUInt32 &&& size.mask) } :=
    (exec_append ((exec_append hlow).trans (exec_maskTo size _ _))).trans rfl
  rw [hx, hy] at hproduct
  obtain ⟨m₂, hstore, hstack, hkept, hassigned⟩ := executes_storeProduct host hscalar
    (m := { multiplied m x y p with store := m.store.set .t1 (p.toUInt32 &&& size.mask) }) rfl hproduct
    (Wasm.Store.get_set_self _ _ _)
  refine ⟨m₂, p, p.toUInt32 &&& size.mask, ?_, hstack, hkept, hproduct, ?_⟩
  · exact executes_bind (executes_scalarSize hsource.toReadable m)
      (executes_bind hstage (executes_bind (executes_emit hcode) hstore))
  · rw [hassigned]
    exact foldl_assign_set_t1 _ m.store _

/-- A product of the accumulator and an operand goes into the accumulator and its extension as a whole. -/
private theorem performs_accumulatorProduct {signed : Bool} {source : Operand} (host : Host Callee ω) (chunk : UInt32)
    (toLoop : Nat) (hm : i.mnemonic = .multiply signed) (hsource : source.Writable size)
    (hoperands : i.operands = [source]) (hbounds : source.InBounds m.store) :
    Performs host chunk toLoop i m (X86.accumulatorProduct signed size m.store source) := by
  have hscalar := hsource.scalar
  have haccumulator : (Operand.reg 0 size).Writable size := Operand.writable_reg (by decide) hscalar
  obtain ⟨m₂, p, r, hbody, hstack, hwide, hp, hstore⟩ := executes_multiplyAccumulator host signed hsource hbounds
  have hflags := exec_multiplyFlags signed hscalar (haccumulator.value_lt m.store) (hsource.value_lt m.store) hwide hp
  refine performs_of_executes (by rw [computation?, hm]) ?_ (executes_updateFlags (by rw [hm]; rfl)
    (by rw [hoperands]; rfl) hsource.toReadable (Wasm.runs_of_exec hflags)) hstack hstore
  rw [multiply, hoperands]
  exact hbody

/-- The code of a decoded multiplication computes exactly: from every state with the operands in memory where there is
memory, it assigns the whole product to the accumulator and its extension, or the low part of a signed one to the
destination, and sets CF and OF if the product is out of the range of its sources; it changes nothing else. -/
theorem performs_product_of_decode {bytes : List UInt8} {address : UInt32} {n : Nat} {signed : Bool}
    (h : X86.decode bytes address = .ok (i, n)) (hm : i.mnemonic = .multiply signed) (host : Host Callee ω)
    (chunk : UInt32) (toLoop : Nat) (m : Wasm.Machine ω) (hbounds : ∀ op ∈ i.operands, op.InBounds m.store) :
    (∃ size source, size.bits ∈ [8, 16, 32] ∧ source.Writable size ∧ i.operands = [source] ∧
      Performs host chunk toLoop i m (X86.accumulatorProduct signed size m.store source)) ∨
    signed = true ∧ ∃ size destination lhs rhs, size.bits ∈ [8, 16, 32] ∧ destination.Writable size ∧
      lhs.Readable size ∧ rhs.Readable size ∧ i.operands = [destination, lhs, rhs] ∧
      Performs host chunk toLoop i m (X86.productInto size m.store destination lhs rhs) := by
  rcases X86.operands_of_multiply h hm with ⟨size, source, hsource, hoperands⟩ |
    ⟨rfl, size, destination, lhs, rhs, hdestination, hlhs, hrhs, hoperands⟩
  · have hmem : source ∈ i.operands := by simp [hoperands]
    exact .inl ⟨size, source, OperandSize.bits_mem hsource.scalar, hsource, hoperands,
      performs_accumulatorProduct host chunk toLoop hm hsource hoperands (hbounds source hmem)⟩
  · have hmem : destination ∈ i.operands ∧ lhs ∈ i.operands ∧ rhs ∈ i.operands := by simp [hoperands]
    exact .inr ⟨rfl, size, destination, lhs, rhs, OperandSize.bits_mem hdestination.scalar, hdestination, hlhs, hrhs,
      hoperands, performs_productInto host chunk toLoop hm hdestination hlhs hrhs hoperands (hbounds _ hmem.1)
        (hbounds _ hmem.2.1) (hbounds _ hmem.2.2)⟩

/-- A register and the memory full of ones, and an address in the register that a high half goes to. -/
def multiplying : Wasm.Store Unit where
  globals := fun index => if index = 0 then 0xffffffff else if index = 2 then 4 else 0
  memory := ⟨64, fun _ => 0xff⟩
  world := ()

/-- The greatest product, whose high half replaces the address of a source. -/
theorem performs_product_of_decode_multiplying :
    ∃ i m', X86.decode [0xf7, 0x22] 0x1000 = .ok (i, 2) ∧ (∀ op ∈ i.operands, op.InBounds multiplying) ∧
      Completes (fun _ _ => .error .trap) (instruction 0 0 i).code (.start multiplying) m' ∧
      m'.store.get .eax = 1 ∧ m'.store.get .edx = 0xfffffffe ∧
      Flag.all.map (fun f => m'.store.get (.flag f)) = [1, 0, 0, 0, 0, 0, 1] := by
  have hdecode : X86.decode [0xf7, 0x22] 0x1000 =
      .ok (⟨{}, 0xf7, .multiply false, [.register 2 .bits32 true none], 0x1000, 0x1002⟩, 2) := by
    decide +kernel
  have hbounds : ∀ op ∈ [Operand.register 2 .bits32 true none], op.InBounds multiplying := by decide +kernel
  obtain ⟨size, source, -, hsource, hoperands, -, m', scratch, hcompletes, -, hstore⟩ | ⟨hsigned, -⟩ :=
    performs_product_of_decode hdecode rfl (fun _ _ => .error .trap) 0 0 (.start multiplying) hbounds
  · cases hoperands
    cases hsource.size?_eq
    have hget : ∀ x, x ≠ Slot.t1 → m'.store.get x = ((X86.accumulatorProduct false .bits32 multiplying
        (.register 2 .bits32 true none)).apply multiplying).get x := fun x hx =>
      hstore ▸ Wasm.Store.get_set_of_ne _ _ hx
    refine ⟨_, m', hdecode, hbounds, hcompletes, (hget _ Slot.noConfusion).trans (by decide +kernel),
      (hget _ Slot.noConfusion).trans (by decide +kernel), ?_⟩
    rw [funext fun f => hget (.flag f) Slot.noConfusion]
    decide +kernel
  · cases hsigned

end Lowering

end Ia32Wasm
