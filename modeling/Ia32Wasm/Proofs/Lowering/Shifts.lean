import Ia32Wasm.Proofs.Lowering.Results
import Ia32Wasm.Proofs.Lowering.Tame

/-!
# Shifts

The code of a shift works on words of 32 bits, or of 64 bits where a bit is shifted out at the top, and takes the
count modulo 32.  It computes the shift of a number of the width of the operand (`toNat_shiftWord`) and the last bit
that has been shifted out of this width (`testBit_outWord`), and it steps over the flags when the count is zero
(`runs_shiftFlags`).
-/

namespace Ia32Wasm.Lowering

open Machine (Flag Slot)
open Wasm (Completes Host exec exec_append)
open Wasm.Store (only)
open X86 (Instruction Operand OperandSize ShiftOp)

variable {ω : Type} {host : Host Callee ω} {m m' : Wasm.Machine ω} {i : Instruction} {size : OperandSize}
  {x y r : UInt32}

/-! ### Results -/

/-- The word that the code of a shift computes. -/
def shiftWord (size : OperandSize) (x y : UInt32) : ShiftOp → UInt32
  | .shl => x <<< y
  | .shr => x >>> y
  | .sar => ((signedWord size x).toInt32 >>> y.toInt32).toUInt32

private theorem exec_shiftCode (op : ShiftOp) (hsize : size ≠ .bits128) (m : Wasm.Machine ω) (x y : UInt32) :
    exec (shiftCode op size) (staging m x y) = .ok ((staging m x y).push (.i32 (shiftWord size x y op))) := by
  cases op with
  | shl | shr => rfl
  | sar =>
    have hsource : exec (.localGet Local.lhs :: signExtend size : Code) (staging m x y) =
        .ok ((staging m x y).push (.i32 (signedWord size x))) := exec_signExtend hsize _ x
    exact (exec_append hsource).trans rfl

private theorem toNat_sar_signedWord (hsize : size ≠ .bits128) (x : UInt32) (hy : y.toNat < 32) :
    ((signedWord size x).toInt32 >>> y.toInt32).toUInt32.toNat =
      wrap 32 (toSigned size.bits x.toNat / 2 ^ y.toNat) := by
  rw [toNat_toUInt32, Int32.toInt, toBitVec_shiftRight_toInt32 _ hy, BitVec.toInt_sshiftRight,
    Int.shiftRight_eq_div_pow]
  exact congrArg (fun z => wrap 32 (z / 2 ^ y.toNat)) (toInt_signedWord x hsize)

/-- A word that is shifted and cut is the shifted number. -/
theorem toNat_shiftWord (op : ShiftOp) (hsize : size ≠ .bits128) (x : UInt32) (hy : y.toNat < 32) :
    (shiftWord size x y op &&& size.mask).toNat = op.number size.bits x.toNat y.toNat := by
  have hcount : y.toNat % 32 = y.toNat := Nat.mod_eq_of_lt hy
  cases op with
  | shl =>
    refine toNat_and_mask_eq_wrap hsize ?_
    have hcast : (x.toNat * 2 ^ y.toNat : Int) = (x.toNat * 2 ^ y.toNat : Nat) := by simp
    rw [hcast, wrap_natCast, ← Nat.shiftLeft_eq, ← hcount]
    exact UInt32.toNat_shiftLeft x y
  | shr =>
    refine toNat_and_mask_eq_wrap hsize ?_
    have hcast : (x.toNat / 2 ^ y.toNat : Int) = (x.toNat / 2 ^ y.toNat : Nat) := by simp
    have hlt : x.toNat / 2 ^ y.toNat < 2 ^ 32 := Nat.lt_of_le_of_lt (Nat.div_le_self _ _) x.toNat_lt
    rw [hcast, wrap_natCast, Nat.mod_eq_of_lt hlt, ← Nat.shiftRight_eq_div_pow, ← hcount]
    exact UInt32.toNat_shiftRight x y
  | sar => exact toNat_and_mask_eq_wrap hsize (toNat_sar_signedWord hsize x hy)

/-! ### Flags -/

/-- Whether the sign of the result differs from CF. -/
private theorem exec_signXorCarry {p : Bool} (hsize : size ≠ .bits128) (hresult : m.store.get .t1 = r)
    (hcarry : m.store.get (.flag .cf) = p.toUInt32) :
    exec (getSlot .t1 :: signOf size ++ [getFlag .cf, .op .i32Xor]) m =
      .ok (m.push (.ofBool (r.toNat.testBit (size.bits - 1) ^^ p))) := by
  have hbits := OperandSize.bits_le hsize
  have hpos := size.bits_pos
  have hsign : exec (getSlot .t1 :: signOf size) m = .ok (m.push (.ofBool (r.toNat.testBit (size.bits - 1)))) := by
    rw [exec_getSlot_cons, hresult, signOf, exec_bitAt_eq_ofBool m r (by omega)]
  have hxor : ∀ q : Bool, (if q then 1 else 0 : UInt32) ^^^ p.toUInt32 = if q ^^ p then 1 else 0 := by
    cases p <;> decide
  rw [exec_append hsign]
  refine congrArg (fun word => Except.ok (m.push (.i32 word))) (Eq.trans ?_ (hxor _))
  exact congrArg _ hcarry

/-- The word that the code of CF computes, whose lowest bit is the flag. -/
def outWord (size : OperandSize) (x y : UInt32) : ShiftOp → UInt32
  | .shl => ((x.toUInt64 <<< y.toUInt64) >>> UInt64.ofNat size.bits).toUInt32
  | .shr => x >>> (y - 1)
  | .sar => ((signedWord size x).toInt32 >>> (y - 1).toInt32).toUInt32

/-- The lowest bit of the word for the carry is the last one that is shifted out. -/
theorem testBit_outWord (op : ShiftOp) (hsize : size ≠ .bits128) (hx : x.toNat < 2 ^ size.bits) (hpos : 0 < y.toNat)
    (hy : y.toNat < 32) : (outWord size x y op).toNat.testBit 0 = op.lastBit size.bits x.toNat y.toNat := by
  have hle := OperandSize.bits_le hsize
  have hpred : (y - 1).toNat = y.toNat - 1 := by
    have hone : (1 : UInt32) ≤ y := UInt32.le_iff_toNat_le.2 hpos
    exact UInt32.toNat_sub_of_le y 1 hone
  have hpredLt : (y - 1).toNat < 32 := by omega
  cases op with
  | shl =>
    have hwidth : (UInt64.ofNat size.bits).toNat % 64 = size.bits := by
      cases size <;> first | rfl | exact absurd rfl hsize
    have hcount : y.toUInt64.toNat % 64 = y.toNat := by
      rw [UInt32.toNat_toUInt64]
      omega
    rw [outWord, UInt64.toNat_toUInt32, Nat.testBit_mod_two_pow, UInt64.toNat_shiftRight, hwidth,
      Nat.testBit_shiftRight,
      UInt64.toNat_shiftLeft, hcount, Nat.testBit_mod_two_pow, decide_eq_true (by omega : size.bits + 0 < 64),
      Nat.testBit_shiftLeft]
    rfl
  | shr =>
    rw [outWord, UInt32.toNat_shiftRight, Nat.mod_eq_of_lt hpredLt, Nat.testBit_shiftRight, hpred, Nat.add_zero]
    by_cases hout : y.toNat ≤ size.bits
    · rw [ShiftOp.lastBit, decide_eq_true hout, Bool.true_and]
    · have hpow : 2 ^ size.bits ≤ 2 ^ (y.toNat - 1) := Nat.pow_le_pow_right (by omega) (by omega)
      rw [ShiftOp.lastBit, decide_eq_false hout, Bool.false_and]
      exact Nat.testBit_lt_two_pow (Nat.lt_of_lt_of_le hx hpow)
  | sar =>
    show ((signedWord size x).toInt32 >>> (y - 1).toInt32).toBitVec.getLsbD 0 = _
    rw [toBitVec_shiftRight_toInt32 _ hpredLt, BitVec.getLsbD_sshiftRight, Nat.add_zero, if_pos hpredLt]
    rw [ShiftOp.lastBit, ← hpred, ← testBit_signedWord size x hpredLt]
    rfl

private theorem sets_shiftedOut (op : ShiftOp) (hsize : size ≠ .bits128) (hx : x.toNat < 2 ^ size.bits)
    (hpos : 0 < y.toNat)
    (hy : y.toNat < 32) (hr : r.toNat = op.number size.bits x.toNat y.toNat) :
    Sets x y r (shiftedOut op size)
      (carryAndOverflow (op.lastBit size.bits x.toNat y.toNat) (op.overflow size.bits x.toNat y.toNat)) := by
  intro ω m h
  have hbits := OperandSize.bits_le hsize
  have hlowest : exec (bitAt 0) (m.push (.i32 (outWord size x y op))) =
      .ok (m.push (.ofBool (op.lastBit size.bits x.toNat y.toNat))) := by
    rw [exec_bitAt_eq_ofBool m _ (by omega), testBit_outWord op hsize hx hpos hy]
  have hstaged := h.setFlags (only .cf (op.lastBit size.bits x.toNat y.toNat))
  cases op with
  | shl =>
    have hword : exec (wideSources ++
        ([.op .i64Shl, .i64Const (UInt64.ofNat size.bits), .op .i64ShrU, .op .i32WrapI64] : Code)) m =
        .ok (m.push (.i32 (outWord size x y .shl))) := by
      rw [h.eq_mk]
      rfl
    refine exec_carryAndOverflow ((exec_append hword).trans hlowest) ?_
    rw [exec_signXorCarry hsize hstaged.result (m.store.get_setFlags _ .cf), hr]
    rfl
  | shr =>
    have hword : exec ([.localGet Local.lhs, .localGet Local.rhs, .i32Const 1, .op .i32Sub, .op .i32ShrU] : Code) m =
        .ok (m.push (.i32 (outWord size x y .shr))) := by
      rw [h.eq_mk]
      rfl
    refine exec_carryAndOverflow ((exec_append hword).trans hlowest) ?_
    rw [Wasm.exec_localGet, hstaged.lhs, signOf, exec_bitAt_eq_ofBool _ x (by omega)]
    rfl
  | sar =>
    have hsource : exec (.localGet Local.lhs :: signExtend size : Code) m =
      .ok (m.push (.i32 (signedWord size x))) := by
      rw [Wasm.exec_localGet, h.lhs, exec_signExtend hsize]
    have hword : exec ([.localGet Local.rhs, .i32Const 1, .op .i32Sub, .op .i32ShrS] : Code)
        (m.push (.i32 (signedWord size x))) = .ok (m.push (.i32 (outWord size x y .sar))) := by
      rw [h.eq_mk]
      rfl
    exact exec_carryAndOverflow ((exec_append hsource).trans ((exec_append hword).trans hlowest)) rfl

/-- The flags of a shift, which are stepped over when the count is zero. -/
theorem runs_shiftFlags (op : ShiftOp) (host : Host Callee ω) (h : Staged m x y r) (hsize : size ≠ .bits128)
    (hx : x.toNat < 2 ^ size.bits) {count : Nat} (hy : y.toNat = count % 32)
    (hr : r.toNat = op.number size.bits x.toNat y.toNat) :
    Wasm.Runs host (shiftFlags op size) m (m.setFlags (op.result size.bits x.toNat count).flags) := by
  have hcode : shiftFlags op size = Wasm.Instr.block :: [.localGet Local.rhs, .op .i32Eqz] ++ .brIf 0 ::
      (shiftedOut op size ++ resultFlags size) ++ ([.close] : Code) := by
    simp [shiftFlags]
  have htest : exec ([.localGet Local.rhs, .op .i32Eqz] : Code) m = .ok (m.push (.ofBool (y == 0))) := by
    rw [h.eq_mk]
    rfl
  rw [hcode]
  by_cases hzero : y = 0
  · have hcount : count % 32 = 0 := by rw [← hy, hzero]; rfl
    have hflags : (op.result size.bits x.toNat count).flags = fun _ => none := funext fun f => if_pos hcount
    have hbody : BenignCode True (shiftedOut op size ++ resultFlags size) := by simp
    rw [hflags, Wasm.Machine.setFlags_none]
    rw [beq_iff_eq.2 hzero] at htest
    exact Wasm.runs_skip (Wasm.runs_of_exec htest) (by decide) rfl (nest_of_benignCode hbody 0)
  · have hcount : count % 32 ≠ 0 := fun hcount => hzero (UInt32.toNat_inj.1 (hy.trans hcount))
    have hout := sets_shiftedOut op hsize hx (by omega) (by omega) hr
    have hresult : Sets x y r (resultFlags size) _ := sets_resultFlags hsize (hr ▸ op.number_lt _ _ _)
    have hflags : Sets x y r (shiftedOut op size ++ resultFlags size) (op.result size.bits x.toNat count).flags := by
      refine (hout.append hresult).congr fun f => ?_
      rw [hr, hy]
      refine Eq.trans ?_ (if_neg hcount).symm
      cases f <;> rfl
    rw [beq_eq_false_iff_ne.2 hzero] at htest
    exact Wasm.runs_through (Wasm.runs_of_exec htest) (Wasm.runs_of_exec (hflags ω m h))

/-! ### Instructions -/

/-- A shift puts its result into its destination, and sets the flags unless the count is zero. -/
private theorem performs_shift {op : ShiftOp} {destination count : Operand} (host : Host Callee ω) (chunk : UInt32)
    (toLoop : Nat)
    (hm : i.mnemonic = .shift op) (hdestination : destination.Writable size) (hcount : count.Readable .bits8)
    (hoperands : i.operands = [destination, destination, count]) (hdestinationBounds : destination.InBounds m.store)
    (hcountBounds : count.InBounds m.store) :
    Performs host chunk toLoop i m (op.effect size m.store destination count) := by
  have hscalar := hdestination.scalar
  have hx := hdestination.toNat_value m.store
  have hxlt := hdestination.value_lt m.store
  rw [← hx] at hxlt
  generalize hsource : UInt32.ofNat (destination.value m.store) = x at hx hxlt
  generalize hamount : UInt32.ofNat (count.value m.store) &&& 31 = y
  have hy : y.toNat = count.value m.store % 32 := by
    rw [← hamount, UInt32.toNat_and, hcount.toNat_value m.store]
    exact Nat.and_two_pow_sub_one_eq_mod _ 5
  have hload : Executes host (loadOperand destination) () m (m.push (.i32 x)) := by
    rw [← hsource]
    exact executes_loadOperand hdestination.toReadable hdestinationBounds
  have hloadCount : Executes host (loadOperand count) () (m.setLocal Local.lhs (.i32 x))
      ((m.setLocal Local.lhs (.i32 x)).push (.i32 (UInt32.ofNat (count.value m.store)))) :=
    executes_loadOperand hcount hcountBounds
  have hword : exec (([.i32Const 31, .op .i32And, .localSet Local.rhs] : Code) ++ shiftCode op size)
      ((m.setLocal Local.lhs (.i32 x)).push (.i32 (UInt32.ofNat (count.value m.store)))) =
      .ok ((staging m x y).push (.i32 (shiftWord size x y op))) := by
    rw [← hamount]
    exact (exec_append rfl).trans (exec_shiftCode op hscalar m x _)
  obtain ⟨m₂, hfinish, hfinished⟩ := executes_finishResult host size (some destination) (m := staging m x y)
    (by rintro _ ⟨⟩; exact ⟨hdestination, hdestinationBounds⟩) rfl rfl (shiftWord size x y op)
  have hnumber := toNat_shiftWord op hscalar x (y := y) (by omega)
  have hbody : Executes host (shift op i) () m m₂ := by
    rw [shift, hoperands]
    exact executes_bind (executes_scalarSize hdestination.toReadable m) (executes_bind hload
      (executes_bind (executes_emit rfl) (executes_bind hloadCount (executes_bind (executes_emit hword) hfinish))))
  have hflags := runs_shiftFlags op host hfinished.staged hscalar hxlt hy hnumber
  refine performs_of_finished (by rw [computation?, hm]) hbody (executes_updateFlags (by rw [hm]; rfl)
    (by rw [hoperands]; rfl) hdestination.toReadable ?_) hfinished rfl rfl ?_
  · rw [hx] at hflags
    exact hflags
  · rw [hnumber, hx, hy]
    rfl

/-- The code of a decoded shift shifts by the count modulo 32: from every state with the operands in memory where
there is memory, it assigns the shifted number to the destination and sets the flags if the count is not zero, and it
changes nothing else. -/
theorem performs_shift_of_decode {bytes : List UInt8} {address : UInt32} {n : Nat} {op : ShiftOp}
    (h : X86.decode bytes address = .ok (i, n)) (hm : i.mnemonic = .shift op) (host : Host Callee ω) (chunk : UInt32)
    (toLoop : Nat) (m : Wasm.Machine ω) (hbounds : ∀ op ∈ i.operands, op.InBounds m.store) :
    ∃ size destination count, size.bits ∈ [8, 16, 32] ∧ destination.Writable size ∧ count.Readable .bits8 ∧
      i.operands = [destination, destination, count] ∧
      Performs host chunk toLoop i m (op.effect size m.store destination count) := by
  obtain ⟨size, destination, count, hdestination, hcount, hoperands⟩ := X86.operands_of_shift h hm
  have hmem : destination ∈ i.operands ∧ count ∈ i.operands := by simp [hoperands]
  exact ⟨size, destination, count, OperandSize.bits_mem hdestination.scalar, hdestination, hcount, hoperands,
    performs_shift host chunk toLoop hm hdestination hcount hoperands (hbounds destination hmem.1)
      (hbounds count hmem.2)⟩

/-- A count of three modulo 32 in the low byte of a register that has more bits above it. -/
def counting : Wasm.Store Unit where
  globals := fun index => if index = 1 then 0x1a3 else 0
  memory := ⟨64, fun _ => 0⟩
  world := ()

/-- A byte is shifted by itself, which is by three: a bit goes out, and the bits above the byte stay. -/
theorem performs_shift_of_decode_counting :
    ∃ i m', X86.decode [0xd2, 0xe1] 0x1000 = .ok (i, 2) ∧ (∀ op ∈ i.operands, op.InBounds counting) ∧
      Completes (fun _ _ => .error .trap) (instruction 0 0 i).code (.start counting) m' ∧
      m'.store.get .ecx = 0x118 ∧ Flag.all.map (fun f => m'.store.get (.flag f)) = [1, 1, 0, 0, 0, 0, 1] := by
  have hdecode : X86.decode [0xd2, 0xe1] 0x1000 =
      .ok (⟨{}, 0xd2, .shift .shl, [.reg 1 .bits8, .reg 1 .bits8, .reg 1 .bits8], 0x1000, 0x1002⟩, 2) := by
    decide +kernel
  have hbounds : ∀ op ∈ [Operand.reg 1 .bits8, .reg 1 .bits8, .reg 1 .bits8], op.InBounds counting := by
    decide +kernel
  obtain ⟨size, destination, count, -, hdestination, -, hoperands, -, m', scratch, hcompletes, -, hstore⟩ :=
    performs_shift_of_decode hdecode rfl (fun _ _ => .error .trap) 0 0 (.start counting) hbounds
  cases hoperands
  cases hdestination.size?_eq
  have hget : ∀ x, x ≠ Slot.t1 → m'.store.get x =
      ((ShiftOp.shl.effect .bits8 counting (.reg 1 .bits8) (.reg 1 .bits8)).apply counting).get x := fun x hx =>
    hstore ▸ Wasm.Store.get_set_of_ne _ _ hx
  refine ⟨_, m', hdecode, hbounds, hcompletes, (hget _ Slot.noConfusion).trans (by decide +kernel), ?_⟩
  rw [funext fun f => hget (.flag f) Slot.noConfusion]
  decide +kernel

end Ia32Wasm.Lowering
