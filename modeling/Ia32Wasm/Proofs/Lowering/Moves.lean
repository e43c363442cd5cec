import Ia32Wasm.Proofs.Lowering.Comparison
import Ia32Wasm.Proofs.Machine.Locations
import Ia32Wasm.Proofs.X86.Moves

/-!
# Moves of data

A move puts a number where its destination is and touches nothing else: not the other bits of the register, no other
byte of memory, and no flag.  An exchange does so with two numbers.  It writes its first operand first, since the
address of memory may use the register that it is exchanged with.
-/

namespace Ia32Wasm.Lowering

open Machine (Flag Slot)
open Wasm (Completes Host)
open X86 (Condition Instruction Operand OperandSize)

variable {ω : Type} {host : Host Callee ω} {chunk : UInt32} {toLoop : Nat} {i : Instruction} {m m' : Wasm.Machine ω}
  {size size' : OperandSize} {destination source : Operand}

/-- The code of the instruction is there and is gone through, with the operands of the code around it left as they are
and with a property of the store behind it. -/
def Leaves (host : Host Callee ω) (chunk : UInt32) (toLoop : Nat) (i : Instruction) (m : Wasm.Machine ω)
    (P : Wasm.Store ω → Prop) : Prop :=
  (instruction chunk toLoop i).outcome = .ok () ∧
    ∃ m', Completes host (instruction chunk toLoop i).code m m' ∧ m'.stack = m.stack ∧ P m'.store

/-- An instruction without flags does what its body does. -/
private theorem executes_instruction (hprologue : prologue i = pure ()) (hflags : flagsOf? i.mnemonic = none)
    (hbody : Executes host (body chunk toLoop i) () m m') : Executes host (instruction chunk toLoop i) () m m' := by
  have hupdate : updateFlags i = pure () := by
    unfold updateFlags
    rw [hflags]
  unfold instruction
  rw [hprologue, hupdate]
  exact executes_bind (executes_pure () m) (executes_bind hbody (executes_pure () m'))

private theorem leaves_of_executes {P : Wasm.Store ω → Prop} (h : Executes host (instruction chunk toLoop i) () m m')
    (hstack : m'.stack = m.stack) (hP : P m'.store) : Leaves host chunk toLoop i m P :=
  ⟨h.outcome, m', Wasm.completes_of_runs h.runs, hstack, hP⟩

/-- A computation without flags leaves what its code leaves. -/
theorem leaves_computation {code : Lowering Unit} {P : Wasm.Store ω → Prop} (hcode : computation? i = some code)
    (hflags : flagsOf? i.mnemonic = none) (h : Executes host code () m m') (hstack : m'.stack = m.stack)
    (hP : P m'.store) : Leaves host chunk toLoop i m P := by
  have hbody : Executes host (body chunk toLoop i) () m m' := by
    rwa [body_of_computation hcode]
  exact leaves_of_executes (executes_instruction (prologue_of_computation hcode) hflags hbody) hstack hP

/-! ### Plain and widening moves -/

private theorem leaves_move (host : Host Callee ω) (chunk : UInt32) (toLoop : Nat) (hm : i.mnemonic = .mov)
    (hdestination : destination.Writable size) (hsource : source.Readable size)
    (hoperands : i.operands = [destination, source]) (hbounds : destination.InBounds m.store)
    (hbounds' : source.InBounds m.store) :
    Leaves host chunk toLoop i m fun s =>
      m.store.Moved s [(destination.location m.store, source.value m.store)] := by
  obtain ⟨w, hstore⟩ := executes_storeOperand host hdestination hbounds (UInt32.ofNat (source.value m.store))
  rw [hsource.toNat_value] at hstore
  have hbody : Executes host (body chunk toLoop i) () m (assigned m destination (source.value m.store) w) := by
    unfold body move
    rw [hm, hoperands]
    exact executes_bind (executes_loadOperand hsource hbounds') hstore
  have hprologue : prologue i = pure () := by
    unfold prologue
    rw [hm]
  refine leaves_of_executes (executes_instruction hprologue (by rw [hm]; rfl) hbody) rfl ?_
  exact m.store.moved_assign hdestination (hsource.value_lt m.store)

/-- The number of a widened source. -/
def widened (signed : Bool) (size size' : OperandSize) (number : Nat) : Nat :=
  if signed then wrap size.bits (toSigned size'.bits number) else number

private theorem widened_lt (signed : Bool) {number : Nat} (hnumber : number < 2 ^ size'.bits)
    (hle : size'.bits ≤ size.bits) :
    widened signed size size' number < 2 ^ size.bits := by
  unfold widened
  split
  · exact wrap_lt _ _
  · exact Nat.lt_of_lt_of_le hnumber (Nat.pow_le_pow_right (by omega) hle)

private theorem leaves_widen {signed : Bool} (host : Host Callee ω) (chunk : UInt32) (toLoop : Nat)
    (hm : i.mnemonic = .widen signed) (hdestination : destination.Writable size) (hsource : source.Readable size')
    (hle : size'.bits ≤ size.bits) (hoperands : i.operands = [destination, source])
    (hbounds : destination.InBounds m.store) (hbounds' : source.InBounds m.store) :
    Leaves host chunk toLoop i m fun s =>
      m.store.Moved s [(destination.location m.store, widened signed size size' (source.value m.store))] := by
  have hbody : ∃ w, Executes host (widen signed i) () m
      (assigned m destination (widened signed size size' (source.value m.store)) w) := by
    unfold widen
    rw [hoperands]
    cases signed with
    | false =>
      obtain ⟨w, hstore⟩ := executes_storeOperand host hdestination hbounds (UInt32.ofNat (source.value m.store))
      rw [hsource.toNat_value] at hstore
      refine ⟨w, executes_bind (executes_scalarSize hsource m) ?_⟩
      exact executes_bind (executes_loadOperand hsource hbounds') hstore
    | true =>
      have hsigned : (signedWord size' (UInt32.ofNat (source.value m.store))).toNat =
          wrap 32 (toSigned size'.bits (source.value m.store)) := by
        have hword := toNat_toUInt32 (signedWord size' (UInt32.ofNat (source.value m.store))).toInt32
        rwa [toInt_signedWord _ hsource.scalar, hsource.toNat_value] at hword
      obtain ⟨w, hstore⟩ := executes_storeOperand host hdestination hbounds
        (signedWord size' (UInt32.ofNat (source.value m.store)) &&& size.mask)
      rw [toNat_and_mask_eq_wrap hdestination.scalar hsigned] at hstore
      refine ⟨w, executes_bind (executes_scalarSize hsource m) ?_⟩
      refine executes_bind (executes_loadOperand hsource hbounds') ?_
      refine executes_bind (executes_emit (exec_signExtend hsource.scalar m _)) ?_
      refine executes_bind (executes_scalarSize hdestination.toReadable _) ?_
      exact executes_bind (executes_emit (exec_maskTo size m _)) hstore
  obtain ⟨w, hbody⟩ := hbody
  refine leaves_computation (by rw [computation?, hm]) (by rw [hm]; rfl) hbody rfl ?_
  exact m.store.moved_assign hdestination (widened_lt signed (hsource.value_lt m.store) hle)

/-! ### Exchanges -/

/-- Two numbers change places, also where the address of the first operand is computed from the register. -/
private theorem moved_exchange {first : Operand} {index : UInt8} (hfirst : first.Writable size)
    (hsecond : (Operand.reg index size).Writable size) (s : Wasm.Store ω) :
    s.Moved ((Operand.reg index size).assign (first.assign s ((Operand.reg index size).value s)) (first.value s))
      [(first.location s, (Operand.reg index size).value s),
        ((Operand.reg index size).location s, first.value s)] := by
  have hmoved := s.moved_assign hfirst (hsecond.value_lt s)
  have hmoved' := (first.assign s ((Operand.reg index size).value s)).moved_assign hsecond (hfirst.value_lt s)
  refine hmoved.append hmoved' ?_
  intro x hx
  obtain rfl := List.mem_singleton.1 hx
  -- The register is where it was, so that the two are the same place or apart.
  rcases hfirst.location_eq_or_disjoint s index with hsame | hapart
  · have hvalue : (Operand.reg index size).value s = first.value s := by
      rw [← hsecond.number_location s, ← hfirst.number_location s, hsame]
    rw [hsame, hvalue]
    exact .inl (List.mem_singleton_self _)
  · refine .inr fun y hy => ?_
    obtain rfl := List.mem_singleton.1 hy
    exact hapart

private theorem leaves_exchange {first : Operand} {index : UInt8} (host : Host Callee ω) (chunk : UInt32)
    (toLoop : Nat)
    (hm : i.mnemonic = .xchg) (hfirst : first.Writable size) (hsecond : (Operand.reg index size).Writable size)
    (hoperands : i.operands = [first, .reg index size]) (hbounds : first.InBounds m.store) :
    Leaves host chunk toLoop i m fun s =>
      m.store.Moved s [(first.location m.store, (Operand.reg index size).value m.store),
        ((Operand.reg index size).location m.store, first.value m.store)] := by
  let staged := staging m (UInt32.ofNat (first.value m.store)) (UInt32.ofNat ((Operand.reg index size).value m.store))
  obtain ⟨w, hstore⟩ := executes_storeOperand host (m := staged) hfirst hbounds
    (UInt32.ofNat ((Operand.reg index size).value m.store))
  rw [hsecond.toNat_value] at hstore
  obtain ⟨w', hstore'⟩ := executes_storeOperand host
    (m := assigned staged first ((Operand.reg index size).value m.store) w) hsecond (Operand.inBounds_reg _ _ _)
    (UInt32.ofNat (first.value m.store))
  rw [hfirst.toNat_value] at hstore'
  have hbody : Executes host (exchange i) () m
      (assigned (assigned staged first ((Operand.reg index size).value m.store) w) (.reg index size)
        (first.value m.store) w') := by
    unfold exchange
    rw [hoperands]
    refine executes_bind (executes_stage hfirst.toReadable hsecond.toReadable hbounds (Operand.inBounds_reg _ _ _)) ?_
    exact executes_bind (executes_emit rfl) (executes_bind hstore (executes_bind (executes_emit rfl) hstore'))
  refine leaves_computation (by rw [computation?, hm]) (by rw [hm]; rfl) hbody rfl ?_
  exact moved_exchange hfirst hsecond m.store

/-! ### Conditions and signs -/

private theorem leaves_set {c : Condition} {p : Bool} (host : Host Callee ω) (chunk : UInt32) (toLoop : Nat)
    (hm : i.mnemonic = .set c) (hdestination : destination.Writable .bits8) (hoperands : i.operands = [destination])
    (hflags : ∀ f, f ≠ .df → ∃ q : Bool, m.store.get (.flag f) = q.toUInt32)
    (hp : c.Holds (fun f => m.store.get (.flag f)) ↔ p = true) (hbounds : destination.InBounds m.store) :
    Leaves host chunk toLoop i m fun s => m.store.Moved s [(destination.location m.store, p.toNat)] := by
  -- The code of a condition is straight, so the word it leaves is the truth value that it completes with.
  have hcondition : ∃ v, Wasm.exec (condition c) m = .ok (m.push (.i32 v)) := by cases c <;> exact ⟨_, rfl⟩
  obtain ⟨v, hv⟩ := hcondition
  have hword : v = p.toUInt32 := by
    have hcompletes : Completes host (condition c) m (m.push (.i32 v)) :=
      Wasm.completes_of_runs (Wasm.runs_of_exec hv)
    have hunique := Wasm.completes_unique hcompletes (completes_condition_ofBool host c hflags hp)
    injection congrArg Wasm.Machine.stack hunique with hvalue
    exact Wasm.Value.i32.inj hvalue
  obtain ⟨w, hstore⟩ := executes_storeOperand host hdestination hbounds p.toUInt32
  have hnumber : p.toUInt32.toNat = p.toNat := by cases p <;> rfl
  rw [hnumber] at hstore
  have hbody : Executes host (storeCondition i) () m (assigned m destination p.toNat w) := by
    unfold storeCondition testCondition
    rw [hoperands, hm]
    exact executes_bind (executes_emit (hword ▸ hv)) hstore
  refine leaves_computation (by rw [computation?, hm]) (by rw [hm]; rfl) hbody rfl ?_
  refine m.store.moved_assign hdestination ?_
  cases p <;> decide

/-- The width of the accumulator that an instruction extends. -/
def accumulatorSize (i : Instruction) : OperandSize :=
  if i.prefixes.contains .operandSize then .bits16 else .bits32

/-- A number of a width that has the sign of another in all its bits. -/
def signFill (width number : Nat) : Nat := if toSigned width number < 0 then 2 ^ width - 1 else 0

/-- An arithmetic shift by all bits but one leaves nothing but the sign. -/
private theorem toSigned_shiftRight {width number : Nat} (hwidth : 0 < width) (hnumber : number < 2 ^ width) :
    toSigned width number >>> (width - 1) = if toSigned width number < 0 then -1 else 0 := by
  have hsigned := toSigned_eq hwidth hnumber
  have hhalf := Nat.two_pow_pos (width - 1)
  rw [← Nat.two_pow_pred_mul_two hwidth] at hnumber
  rw [Int.shiftRight_eq_div_pow]
  generalize 2 ^ (width - 1) = half at *
  split
  · rename_i hneg
    exact Int.ediv_eq_neg_one_of_neg_of_le hneg (by split at hsigned <;> omega)
  · exact Int.ediv_eq_zero_of_lt (by omega) (by split at hsigned <;> omega)

private theorem wrap_sign (width : Nat) (p : Prop) [Decidable p] :
    wrap width (if p then -1 else 0) = if p then 2 ^ width - 1 else 0 := by
  have hcast : ((2 ^ width : Nat) : Int) = 2 ^ width := Int.natCast_pow 2 width
  have hpos := Nat.two_pow_pos width
  split
  · have hwrap := wrap_of_near width (x := -1) (by omega) (by omega)
    rw [if_pos (by omega)] at hwrap
    omega
  · rw [wrap, Int.zero_emod]
    rfl

/-- The code that fills a width with the sign of a word. -/
private theorem exec_signFill (hsize : size ≠ .bits128) (m : Wasm.Machine ω) {word : UInt32}
    (hword : word.toNat < 2 ^ size.bits) :
    ∃ r, r.toNat = signFill size.bits word.toNat ∧
      Wasm.exec (signExtend size ++ [.i32Const (UInt32.ofNat (size.bits - 1)), .op .i32ShrS] ++ maskTo size : Code)
        (m.push (.i32 word)) = .ok (m.push (.i32 r)) := by
  have hle := OperandSize.bits_le hsize
  have hcount : (UInt32.ofNat (size.bits - 1)).toNat = size.bits - 1 := UInt32.toNat_ofNat_of_lt' (by
    show size.bits - 1 < 2 ^ 32
    omega)
  have hshift : ((signedWord size word).toInt32 >>> (UInt32.ofNat (size.bits - 1)).toInt32).toUInt32.toNat =
      wrap 32 (if toSigned size.bits word.toNat < 0 then -1 else 0) := by
    have hbits := toBitVec_shiftRight_toInt32 (signedWord size word)
      (show (UInt32.ofNat (size.bits - 1)).toNat < 32 by omega)
    have hsigned : (signedWord size word).toBitVec.toInt = toSigned size.bits word.toNat :=
      toInt_signedWord word hsize
    rw [toNat_toUInt32, ← Int32.toInt_toBitVec, hbits, BitVec.toInt_sshiftRight, hsigned, hcount,
      toSigned_shiftRight size.bits_pos hword]
  refine ⟨((signedWord size word).toInt32 >>> (UInt32.ofNat (size.bits - 1)).toInt32).toUInt32 &&& size.mask, ?_, ?_⟩
  · rw [toNat_and_mask_eq_wrap hsize hshift, wrap_sign]
    rfl
  · rw [List.append_assoc, Wasm.exec_append (exec_signExtend hsize m word)]
    exact (Wasm.exec_cons rfl).trans ((Wasm.exec_cons rfl).trans (exec_maskTo size m _))

private theorem leaves_extendAccumulator (host : Host Callee ω) (chunk : UInt32) (toLoop : Nat)
    (hm : i.mnemonic = .cdq)
    (m : Wasm.Machine ω) :
    Leaves host chunk toLoop i m fun s =>
      m.store.Moved s [((Operand.reg 2 (accumulatorSize i)).location m.store,
        signFill (accumulatorSize i).bits ((Operand.reg 0 (accumulatorSize i)).value m.store))] := by
  have hsize : accumulatorSize i ≠ .bits128 := by
    unfold accumulatorSize
    split <;> decide
  have hsource : (Operand.reg 0 (accumulatorSize i)).Readable (accumulatorSize i) :=
    (Operand.writable_reg (by decide) hsize).toReadable
  have hdestination : (Operand.reg 2 (accumulatorSize i)).Writable (accumulatorSize i) :=
    Operand.writable_reg (by decide) hsize
  have hword : (UInt32.ofNat ((Operand.reg 0 (accumulatorSize i)).value m.store)).toNat <
      2 ^ (accumulatorSize i).bits := by
    rw [hsource.toNat_value]
    exact hsource.value_lt m.store
  obtain ⟨r, hr, hfill⟩ := exec_signFill hsize m hword
  rw [hsource.toNat_value] at hr
  obtain ⟨w, hstore⟩ := executes_storeOperand host hdestination (Operand.inBounds_reg m.store _ _) r
  have hcode : Executes host (do
      loadRegister 0 (accumulatorSize i)
      emit (signExtend (accumulatorSize i) ++
        [.i32Const (UInt32.ofNat ((accumulatorSize i).bits - 1)), .op .i32ShrS] ++
        maskTo (accumulatorSize i))
      storeRegister 2 (accumulatorSize i)) () m (assigned m (.reg 2 (accumulatorSize i)) r.toNat w) := by
    refine executes_bind (executes_loadOperand hsource (Operand.inBounds_reg _ _ _)) ?_
    exact executes_bind (executes_emit hfill) hstore
  have hbody : Executes host (extendAccumulator i) () m (assigned m (.reg 2 (accumulatorSize i)) r.toNat w) := by
    unfold accumulatorSize at hcode ⊢
    unfold extendAccumulator
    split <;> rename_i hcontains <;> simp only [hcontains] at hcode ⊢ <;> exact hcode
  refine leaves_computation (by rw [computation?, hm]) (by rw [hm]; rfl) hbody rfl ?_
  rw [hr]
  refine m.store.moved_assign hdestination ?_
  have hpos := Nat.two_pow_pos (accumulatorSize i).bits
  unfold signFill
  split <;> omega

/-! ### Decoded instructions -/

/-- A decoded instruction that moves data touches nothing but its destination, from every state with truth values in
the flags and with the operands in memory where there is memory.

* A move leaves the number of its source, and a widening move leaves it extended by zeros or by its sign.
* An exchange leaves each of its two numbers where the other was.
* A condition is left as one or zero, and the sign of the accumulator as all ones or zero in the data register. -/
theorem leaves_moved_of_decode {bytes : List UInt8} {address : UInt32} {n : Nat}
    (h : X86.decode bytes address = .ok (i, n)) (host : Host Callee ω) (chunk : UInt32) (toLoop : Nat)
    (m : Wasm.Machine ω) (hflags : m.store.Boolean isFlag) (hbounds : ∀ op ∈ i.operands, op.InBounds m.store) :
    (i.mnemonic = .mov → (∀ op ∈ i.operands, op.isSegmentRegister = false) →
      ∃ size destination source, size.bits ∈ [8, 16, 32] ∧ destination.Writable size ∧ source.Readable size ∧
        i.operands = [destination, source] ∧
        Leaves host chunk toLoop i m fun s =>
          m.store.Moved s [(destination.location m.store, source.value m.store)]) ∧
    (∀ signed, i.mnemonic = .widen signed →
      ∃ size size' destination source, size.bits ∈ [16, 32] ∧ size'.bits ∈ [8, 16] ∧ destination.Writable size ∧
        source.Writable size' ∧ i.operands = [destination, source] ∧
        Leaves host chunk toLoop i m fun s =>
          m.store.Moved s [(destination.location m.store,
            if signed then wrap size.bits (toSigned size'.bits (source.value m.store)) else source.value m.store)]) ∧
    (i.mnemonic = .xchg →
      ∃ size first second, size.bits ∈ [8, 16, 32] ∧ first.Writable size ∧ second.Writable size ∧
        i.operands = [first, second] ∧
        Leaves host chunk toLoop i m fun s =>
          m.store.Moved s [(first.location m.store, second.value m.store),
            (second.location m.store, first.value m.store)]) ∧
    (∀ c, i.mnemonic = .set c →
      ∃ (destination : Operand) (p : Bool), destination.Writable .bits8 ∧ i.operands = [destination] ∧
        (p = true ↔ c.Holds fun f => m.store.get (.flag f)) ∧
        Leaves host chunk toLoop i m fun s => m.store.Moved s [(destination.location m.store, if p then 1 else 0)]) ∧
    (i.mnemonic = .cdq →
      ∃ size, size = (if i.prefixes.contains .operandSize then .bits16 else .bits32) ∧
        Leaves host chunk toLoop i m fun s =>
          m.store.Moved s [((Operand.reg 2 size).location m.store,
            if toSigned size.bits ((Operand.reg 0 size).value m.store) < 0 then 2 ^ size.bits - 1 else 0)]) := by
  refine ⟨?_, ?_, ?_, ?_, ?_⟩
  · intro hm hsegment
    obtain ⟨size, destination, source, hdestination, hsource, hoperands⟩ := X86.operands_of_mov h hm hsegment
    have hmem : destination ∈ i.operands ∧ source ∈ i.operands := by simp [hoperands]
    exact ⟨size, destination, source, OperandSize.bits_mem hdestination.scalar, hdestination, hsource, hoperands,
      leaves_move host chunk toLoop hm hdestination hsource hoperands (hbounds _ hmem.1) (hbounds _ hmem.2)⟩
  · intro signed hm
    obtain ⟨size, size', destination, source, hsize, hsize', hdestination, hsource, hoperands⟩ :=
      X86.operands_of_widen h hm
    have hmem : destination ∈ i.operands ∧ source ∈ i.operands := by simp [hoperands]
    have hle : size'.bits ≤ size.bits := by
      simp only [List.mem_cons, List.not_mem_nil, or_false] at hsize hsize'
      omega
    have hleaves := leaves_widen host chunk toLoop hm hdestination hsource.toReadable hle hoperands (hbounds _ hmem.1)
      (hbounds _ hmem.2)
    exact ⟨size, size', destination, source, hsize, hsize', hdestination, hsource, hoperands, hleaves⟩
  · intro hm
    obtain ⟨size, first, index, hfirst, hsecond, hoperands⟩ := X86.operands_of_xchg h hm
    have hfirstBounds := hbounds first (by simp [hoperands])
    exact ⟨size, first, .reg index size, OperandSize.bits_mem hfirst.scalar, hfirst, hsecond, hoperands,
      leaves_exchange host chunk toLoop hm hfirst hsecond hoperands hfirstBounds⟩
  · intro c hm
    obtain ⟨destination, hdestination, hoperands⟩ := X86.operands_of_set h hm
    have hdestinationBounds := hbounds destination (by simp [hoperands])
    have hbits : ∀ f, f ≠ .df → ∃ q : Bool, m.store.get (.flag f) = q.toUInt32 := by
      intro f _
      have hindex : isFlag (Slot.flag f).index = true := by cases f <;> decide
      rcases hflags _ hindex with hzero | hone
      · exact ⟨false, hzero⟩
      · exact ⟨true, hone⟩
    obtain ⟨p, hp⟩ : ∃ p : Bool, p = true ↔ c.Holds fun f => m.store.get (.flag f) := by
      classical exact ⟨decide (c.Holds fun f => m.store.get (.flag f)), decide_eq_true_iff⟩
    have hleaves := leaves_set host chunk toLoop hm hdestination hoperands hbits hp.symm hdestinationBounds
    refine ⟨destination, p, hdestination, hoperands, hp, ?_⟩
    cases p <;> exact hleaves
  · intro hm
    exact ⟨_, rfl, leaves_extendAccumulator host chunk toLoop hm m⟩

/-- An address in the first register, and a byte there. -/
def exchanging : Wasm.Store Unit where
  globals := fun index => if index = 0 then 0x108 else 0
  memory := ⟨0x200, fun a => if a = 0x108 then 0x5a else 0⟩
  world := ()

/-- The byte at an address is exchanged with the low byte of the register that holds the address. -/
theorem leaves_moved_of_decode_exchanging :
    ∃ i m', X86.decode [0x86, 0x00] 0x1000 = .ok (i, 2) ∧ (∀ op ∈ i.operands, op.InBounds exchanging) ∧
      exchanging.Boolean isFlag ∧
      Completes (fun _ _ => .error .trap) (instruction 0 0 i).code (.start exchanging) m' ∧
      (Location.part 0 0 8).number m'.store = 0x5a ∧ (Location.part 0 8 24).number m'.store = 1 ∧
      (Location.bytes 0x108 1).number m'.store = 8 := by
  have hdecode : X86.decode [0x86, 0x00] 0x1000 =
      .ok (⟨{}, 0x86, .xchg, [.pointer 0 .bits8, .reg 0 .bits8], 0x1000, 0x1002⟩, 2) := by decide +kernel
  have hbounds : ∀ op ∈ [Operand.pointer 0 .bits8, .reg 0 .bits8], op.InBounds exchanging := by decide +kernel
  have hflags : exchanging.Boolean isFlag := by
    intro index hindex
    have hflag := isFlag_eq_true_iff.1 hindex
    exact .inl (if_neg (by omega))
  obtain ⟨-, -, hexchange, -, -⟩ :=
    leaves_moved_of_decode hdecode (fun _ _ => .error .trap) 0 0 (.start exchanging) hflags hbounds
  obtain ⟨size, first, second, -, hfirst, -, hoperands, -, m', hcompletes, -, hmoved⟩ := hexchange rfl
  cases hoperands
  refine ⟨_, m', hdecode, hbounds, hflags, hcompletes, ?_, ?_, ?_⟩
  · exact (hmoved.holds _ (List.mem_cons_of_mem _ (List.mem_singleton_self _))).trans (by decide +kernel)
  · refine (Location.number_congr (s := exchanging) ?_ ?_).trans (by decide +kernel)
    · rintro r k ⟨rfl, hlow, -⟩
      refine hmoved.bits 0 k fun x hx => ?_
      rcases List.mem_pair.1 hx with rfl | rfl
      · exact id
      · rintro ⟨-, -, hhigh⟩
        have hlt : k < 0 + 8 := hhigh
        omega
    · exact fun _ => False.elim
  · exact (hmoved.holds _ List.mem_cons_self).trans (by decide +kernel)

end Ia32Wasm.Lowering
