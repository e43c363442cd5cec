import Ia32Wasm.Proofs.Lowering.BooleanFlags
import Ia32Wasm.Proofs.Lowering.Results
import Ia32Wasm.Proofs.Lowering.Tame

/-!
# Sums, differences and bitwise operations

The code of an arithmetic instruction computes the exact result of the operation, cut to its width, and the flags of
this result.

* `toNat_binaryWord` is about the result of a binary operation and `exec_binaryFlags` about its flags.
* `performs_of_sources` puts them together for every instruction that computes a binary operation on two words: the
  binary operations themselves (`performs_binary`), and increments, decrements and negations (`performs_unary`).
* A compare and exchange takes one of two branches after its comparison (`executes_branches`, `performs_cmpxchg`).
* `performs_arithmetic` is about all of them as they are decoded.
-/

namespace Ia32Wasm.Lowering

open Machine (Flag Slot)
open Wasm (Completes Host exec exec_append)
open X86 (BinaryOp Instruction Operand OperandSize UnaryOp)

variable {ω : Type} {host : Host Callee ω} {m m' : Wasm.Machine ω} {i : Instruction} {size : OperandSize}
  {x y r : UInt32}

/-! ### Binary operations -/

/-- The word that a binary operation computes from the carry and two words. -/
def binaryWord (c x y : UInt32) : BinaryOp → UInt32
  | .add => x + y
  | .adc => x + y + c
  | .sub | .cmp => x - y
  | .sbb => x - y - c
  | .and | .test => x &&& y
  | .or => x ||| y
  | .xor => x ^^^ y

private theorem exec_binaryCode (op : BinaryOp) (m : Wasm.Machine ω) (x y : UInt32) :
    exec (binaryCode op) ((m.push (.i32 x)).push (.i32 y)) =
      .ok (m.push (.i32 (binaryWord (m.store.get (.flag .cf)) x y op))) := by
  cases op <;> rfl

/-- The word of a binary operation, cut to a width, is its result. -/
theorem toNat_binaryWord (op : BinaryOp) (c : UInt32) (hsize : size ≠ .bits128) (hx : x.toNat < 2 ^ size.bits)
    (hy : y.toNat < 2 ^ size.bits) :
    (binaryWord c x y op &&& size.mask).toNat = (op.result size.bits c.toNat x.toNat y.toNat).number := by
  cases op with
  | add =>
    show (x + y &&& size.mask).toNat = wrap size.bits (x.toNat + y.toNat)
    refine toNat_and_mask_eq_wrap hsize ?_
    rw [UInt32.toNat_add, wrap]
    omega
  | adc =>
    show (x + y + c &&& size.mask).toNat = wrap size.bits (x.toNat + y.toNat + c.toNat)
    refine toNat_and_mask_eq_wrap hsize ?_
    rw [UInt32.toNat_add, UInt32.toNat_add, wrap]
    omega
  | sub | cmp =>
    show (x - y &&& size.mask).toNat = wrap size.bits (x.toNat - y.toNat)
    refine toNat_and_mask_eq_wrap hsize ?_
    have hlt := y.toNat_lt
    rw [UInt32.toNat_sub, wrap]
    omega
  | sbb =>
    show (x - y - c &&& size.mask).toNat = wrap size.bits (x.toNat - y.toNat - c.toNat)
    refine toNat_and_mask_eq_wrap hsize ?_
    have hlt := y.toNat_lt
    have hlt' := c.toNat_lt
    rw [UInt32.toNat_sub, UInt32.toNat_sub, wrap]
    omega
  | and | test =>
    rw [binaryWord, OperandSize.toNat_and_mask _ hsize, UInt32.toNat_and]
    exact Nat.mod_eq_of_lt (Nat.and_lt_two_pow _ hy)
  | or =>
    rw [binaryWord, OperandSize.toNat_and_mask _ hsize, UInt32.toNat_or]
    exact Nat.mod_eq_of_lt (Nat.or_lt_two_pow hx hy)
  | xor =>
    rw [binaryWord, OperandSize.toNat_and_mask _ hsize, UInt32.toNat_xor]
    exact Nat.mod_eq_of_lt (Nat.xor_lt_two_pow hx hy)

private theorem add_carry_zero : (fun a b : Int => a + b + (0 : Nat)) = fun a b => a + b := by
  funext a b
  exact Int.add_zero _

private theorem sub_borrow_zero : (fun a b : Int => a - b - (0 : Nat)) = fun a b => a - b := by
  funext a b
  exact Int.sub_zero _

/-- The flags of a binary operation; only an operation that takes the carry asks what it is. -/
theorem exec_binaryFlags (op : BinaryOp) {flags : OperandSize → Code} (hflags : flagsOf? (.binary op) = some flags)
    (h : Staged m x y r) (hsize : size ≠ .bits128) (hx : x.toNat < 2 ^ size.bits) (hy : y.toNat < 2 ^ size.bits)
    (hcarry : op = .adc ∨ op = .sbb → (m.store.get (.flag .cf)).toNat ≤ 1)
    (hr : r.toNat = (op.result size.bits (m.store.get (.flag .cf)).toNat x.toNat y.toNat).number) :
    exec (flags size) m =
      .ok (m.setFlags (op.result size.bits (m.store.get (.flag .cf)).toNat x.toNat y.toNat).flags) := by
  have hlt : r.toNat < 2 ^ size.bits := hr ▸ op.number_lt _ hx hy
  cases op with
  | add =>
    cases hflags
    show _ = Except.ok (m.setFlags (Result.exact size.bits (fun a b => a + b) x.toNat y.toNat).flags)
    rw [← add_carry_zero]
    exact exec_addFlags h false hsize hx hy (Nat.zero_le 1) rfl
      (hr.trans (by rw [Int.natCast_zero, Int.add_zero]; rfl))
  | adc =>
    cases hflags
    exact exec_addFlags h true hsize hx hy (hcarry (.inl rfl)) rfl hr
  | sub | cmp =>
    cases hflags
    show _ = Except.ok (m.setFlags (Result.exact size.bits (fun a b => a - b) x.toNat y.toNat).flags)
    rw [← sub_borrow_zero]
    exact exec_subFlags h false hsize hx hy (Nat.zero_le 1) rfl
      (hr.trans (by rw [Int.natCast_zero, Int.sub_zero]; rfl))
  | sbb =>
    cases hflags
    exact exec_subFlags h true hsize hx hy (hcarry (.inr rfl)) rfl hr
  | and | or | xor | test =>
    cases hflags
    have hexec := sets_logicFlags hsize hlt ω m h
    rw [hr] at hexec
    exact hexec

private theorem exec_stagedBinary (op : BinaryOp) (m : Wasm.Machine ω) (x y : UInt32) :
    exec (([.localGet Local.lhs, .localGet Local.rhs] : Code) ++ binaryCode op) (staging m x y) =
      .ok ((staging m x y).push (.i32 (binaryWord (m.store.get (.flag .cf)) x y op))) :=
  (exec_append rfl).trans (exec_binaryCode op (staging m x y) x y)

/-- The word of a binary operation on the sources in the locals goes into the destination, if there is one. -/
private theorem executes_binaryResult (host : Host Callee ω) (op : BinaryOp) {destination : Option Operand}
    (hdestination : ∀ o, destination = some o → o.Writable size ∧ o.InBounds m.store) (x y : UInt32) :
    ∃ m₂, Executes host (do
        emit (([.localGet Local.lhs, .localGet Local.rhs] : Code) ++ binaryCode op)
        finishResult destination size) () (staging m x y) m₂ ∧
      Finished (staging m x y) m₂ destination x y (binaryWord (m.store.get (.flag .cf)) x y op &&& size.mask) := by
  obtain ⟨m₂, hfinish, hfinished⟩ :=
    executes_finishResult host size destination (m := staging m x y) hdestination rfl rfl
    (binaryWord (m.store.get (.flag .cf)) x y op)
  exact ⟨m₂, executes_bind (executes_emit (exec_stagedBinary op m x y)) hfinish, hfinished⟩

/-- An instruction that computes a binary operation on two words in the locals, stores it and then sets the flags has
the effect of this result. -/
theorem performs_of_sources (op : BinaryOp) (destination : Option Operand) {e : Effect} {first : Operand}
    {flags : OperandSize → Code} {chunk : UInt32} {toLoop : Nat} {code : Lowering Unit}
    (hcode : computation? i = some code) (hhead : i.operands.head? = some first) (hfirst : first.Readable size)
    (hdestination : ∀ o, destination = some o → o.Writable size ∧ o.InBounds m.store) (hx : x.toNat < 2 ^ size.bits)
    (hy : y.toNat < 2 ^ size.bits)
    (hbody : ∀ m₂, Executes host (do
        emit (([.localGet Local.lhs, .localGet Local.rhs] : Code) ++ binaryCode op)
        finishResult destination size) () (staging m x y) m₂ → Executes host code () m m₂)
    (hflags : flagsOf? i.mnemonic = some flags)
    (hexec : ∀ (m₂ : Wasm.Machine ω) r, Staged m₂ x y r → m₂.store.get (.flag .cf) = m.store.get (.flag .cf) →
      r.toNat = (op.result size.bits (m.store.get (.flag .cf)).toNat x.toNat y.toNat).number →
        exec (flags size) m₂ = .ok (m₂.setFlags e.flags))
    (hassigned : e.assigned = (destination.map fun o =>
      (o, (op.result size.bits (m.store.get (.flag .cf)).toNat x.toNat y.toNat).number)).toList) :
    Performs host chunk toLoop i m e := by
  obtain ⟨m₂, hresult, hfinished⟩ := executes_binaryResult (m := m) host op hdestination x y
  have hnumber := toNat_binaryWord op (m.store.get (.flag .cf)) hfirst.scalar hx hy
  have hrun := hexec m₂ _ hfinished.staged (hfinished.get_flag .cf) hnumber
  refine performs_of_finished hcode (hbody m₂ hresult)
    (executes_updateFlags hflags hhead hfirst (Wasm.runs_of_exec hrun)) hfinished rfl rfl ?_
  rw [hassigned, hnumber]

/-- A binary operation puts its result into its destination, if it has one, and sets the flags. -/
theorem performs_binary {op : BinaryOp} {first second : Operand} (host : Host Callee ω) (chunk : UInt32)
    (toLoop : Nat)
    (hm : i.mnemonic = .binary op) (hfirst : first.Writable size) (hsecond : second.Readable size)
    (hoperands : i.operands = if op.writes then [first, first, second] else [first, second])
    (hcarry : op = .adc ∨ op = .sbb → (m.store.get (.flag .cf)).toNat ≤ 1)
    (hfirstBounds : first.InBounds m.store) (hsecondBounds : second.InBounds m.store) :
    Performs host chunk toLoop i m (op.effect size m.store first second) := by
  have hx := hfirst.toNat_value m.store
  have hy := hsecond.toNat_value m.store
  have hxlt := hfirst.value_lt m.store
  have hylt := hsecond.value_lt m.store
  rw [← hx] at hxlt
  rw [← hy] at hylt
  obtain ⟨flags, hflags⟩ : ∃ flags, flagsOf? (.binary op) = some flags := by cases op <;> exact ⟨_, rfl⟩
  have hbinary : binary op i = binaryOn op (if op.writes then some first else none) first second := by
    rw [binary, hoperands]
    cases op.writes <;> rfl
  have hstores : (if storesResult op then if op.writes then some first else none else none) =
      if op.writes then some first else none := by
    cases op <;> rfl
  refine performs_of_sources op (if op.writes then some first else none) (by rw [computation?, hm]) ?_
    hfirst.toReadable (fun o ho => ?_) hxlt hylt (fun m₂ hresult => ?_) (hm ▸ hflags)
    (fun m₂ r hstaged hcf hnumber => ?_) ?_
  · rw [hoperands]
    cases op.writes <;> rfl
  · split at ho
    · cases ho
      exact ⟨hfirst, hfirstBounds⟩
    · cases ho
  · rw [hbinary, binaryOn, hstores]
    exact executes_bind (executes_scalarSize hfirst.toReadable m)
      (executes_bind (executes_stage hfirst.toReadable hsecond hfirstBounds hsecondBounds) hresult)
  · have hexec := exec_binaryFlags op hflags hstaged hfirst.scalar hxlt hylt (by rwa [hcf]) (by rwa [hcf])
    rw [hcf, hx, hy] at hexec
    exact hexec
  · rw [hx, hy, BinaryOp.effect]
    cases op.writes <;> rfl

/-! ### Unary operations -/

private theorem unary_eq {operand : Operand} (op : UnaryOp) (hoperands : i.operands = [operand]) :
    unary op i = (scalarSize operand >>= fun size => unaryOn op operand size) := by
  rw [unary, hoperands]

/-- The complement of a number of a width. -/
private theorem toNat_xor_and_mask (hsize : size ≠ .bits128) (hx : x.toNat < 2 ^ size.bits) :
    ((x ^^^ 0xffffffff) &&& size.mask).toNat = 2 ^ size.bits - 1 - x.toNat := by
  have hnot : x ^^^ 0xffffffff = ~~~x := UInt32.xor_neg_one
  rw [OperandSize.toNat_and_mask _ hsize, hnot, UInt32.toNat_not]
  cases size with
  | bits8 | bits16 | bits32 =>
    simp only [OperandSize.bits, UInt32.size] at hx ⊢
    omega
  | bits128 => exact absurd rfl hsize

/-- The complement of an operand changes no flags. -/
private theorem performs_not {operand : Operand} (host : Host Callee ω) (chunk : UInt32) (toLoop : Nat)
    (hm : i.mnemonic = .unary .not) (hoperand : operand.Writable size) (hoperands : i.operands = [operand])
    (hbounds : operand.InBounds m.store) :
    Performs host chunk toLoop i m (UnaryOp.not.effect size m.store operand) := by
  have hscalar := hoperand.scalar
  have hx := hoperand.toNat_value m.store
  have hlt := hoperand.value_lt m.store
  rw [← hx] at hlt
  generalize hword : UInt32.ofNat (operand.value m.store) = word at hx hlt
  obtain ⟨w, hstore⟩ := executes_storeOperand host hoperand hbounds ((word ^^^ 0xffffffff) &&& size.mask)
  have hnumber : ((word ^^^ 0xffffffff) &&& size.mask).toNat = 2 ^ size.bits - 1 - operand.value m.store := by
    rw [toNat_xor_and_mask hscalar hlt, hx]
  have hload : Executes host (loadOperand operand) () m (m.push (.i32 word)) := by
    rw [← hword]
    exact executes_loadOperand hoperand.toReadable hbounds
  have hcomplement : exec (([.i32Const 0xffffffff, .op .i32Xor] : Code) ++ maskTo size) (m.push (.i32 word)) =
      .ok (m.push (.i32 ((word ^^^ 0xffffffff) &&& size.mask))) :=
    (exec_append rfl).trans (exec_maskTo size m (word ^^^ 0xffffffff))
  have hbody : Executes host (unary .not i) () m
    (assigned m operand (2 ^ size.bits - 1 - operand.value m.store) w) := by
    rw [unary_eq .not hoperands, ← hnumber]
    exact executes_bind (executes_scalarSize hoperand.toReadable m)
      (executes_bind hload (executes_bind (executes_emit hcomplement) hstore))
  have hflags : ∀ m₂ : Wasm.Machine ω, Executes host (updateFlags i) () m₂ (m₂.setFlags fun _ => none) := by
    intro m₂
    unfold updateFlags
    rw [hm, Wasm.Machine.setFlags_none]
    exact executes_pure () m₂
  exact performs_of_executes (by rw [computation?, hm]) hbody (hflags _) rfl (Wasm.Store.set_get _ .t1).symm

/-- A unary operation puts its result into its operand and sets the flags. -/
theorem performs_unary {op : UnaryOp} {operand : Operand} (host : Host Callee ω) (chunk : UInt32) (toLoop : Nat)
    (hm : i.mnemonic = .unary op) (hoperand : operand.Writable size) (hoperands : i.operands = [operand])
    (hbounds : operand.InBounds m.store) :
    Performs host chunk toLoop i m (op.effect size m.store operand) := by
  have hscalar := hoperand.scalar
  have hx := hoperand.toNat_value m.store
  have hlt := hoperand.value_lt m.store
  rw [← hx] at hlt
  have hone : (1 : UInt32).toNat < 2 ^ size.bits := by cases size <;> decide
  have hzero : (0 : UInt32).toNat < 2 ^ size.bits := Nat.two_pow_pos _
  have hload : Executes host (loadOperand operand) () m (m.push (.i32 (UInt32.ofNat (operand.value m.store)))) :=
    executes_loadOperand hoperand.toReadable hbounds
  have hcode : computation? i = some (unary op i) := by rw [computation?, hm]
  have hhead : i.operands.head? = some operand := by rw [hoperands]; rfl
  have hdestination : ∀ o, some operand = some o → o.Writable size ∧ o.InBounds m.store := by
    rintro _ ⟨⟩
    exact ⟨hoperand, hbounds⟩
  have hsize : Executes host (scalarSize operand) size m m := executes_scalarSize hoperand.toReadable m
  cases op with
  | inc =>
    refine performs_of_sources .add (some operand) hcode hhead hoperand.toReadable hdestination hlt hone
      (fun m₂ hresult => ?_) (by rw [hm]; rfl) (fun m₂ r hstaged _ hnumber => ?_) (by rw [hx]; rfl)
    · rw [unary_eq _ hoperands]
      exact executes_bind hsize (executes_bind hload (executes_bind (executes_emit rfl) hresult))
    · have hflags := sets_addFlags false hscalar hlt hone (Nat.zero_le 1)
        (hnumber.trans (by rw [Int.natCast_zero, Int.add_zero]; rfl)) _ _ hstaged
      rw [add_carry_zero, hx] at hflags
      exact hflags
  | dec =>
    refine performs_of_sources .sub (some operand) hcode hhead hoperand.toReadable hdestination hlt hone
      (fun m₂ hresult => ?_) (by rw [hm]; rfl) (fun m₂ r hstaged _ hnumber => ?_) (by rw [hx]; rfl)
    · rw [unary_eq _ hoperands]
      exact executes_bind hsize (executes_bind hload (executes_bind (executes_emit rfl) hresult))
    · have hflags := sets_subFlags false hscalar hlt hone (Nat.zero_le 1)
        (hnumber.trans (by rw [Int.natCast_zero, Int.sub_zero]; rfl)) _ _ hstaged
      rw [sub_borrow_zero, hx] at hflags
      exact hflags
  | neg =>
    refine performs_of_sources .sub (some operand) hcode hhead hoperand.toReadable hdestination hzero hlt
      (fun m₂ hresult => ?_) (by rw [hm]; rfl) (fun m₂ r hstaged hcf hnumber => ?_) (by rw [hx]; rfl)
    · rw [unary_eq _ hoperands]
      refine executes_bind hsize (executes_bind (executes_emit rfl) ?_)
      exact executes_bind (executes_loadOperand hoperand.toReadable hbounds)
        (executes_bind (executes_emit rfl) hresult)
    · have hflags := exec_binaryFlags .sub rfl hstaged hscalar hzero hlt (by simp) (by rwa [hcf])
      rw [hx] at hflags
      exact hflags
  | not => exact performs_not host chunk toLoop hm hoperand hoperands hbounds

/-! ### Compare and exchange -/

private theorem nest_of_emits {x : Lowering Unit} (h : Emits (Benign True) x) : Wasm.nest 0 0 x.code = some 0 :=
  nest_of_benignCode h 0

private theorem allows_benign (op : Operand) : Allows (Benign True) op := by
  unfold Allows
  split <;> simp

/-- One of two lowerings is executed, as a test says. -/
theorem executes_branches {test : Code} {b : Bool} {first second : Lowering Unit}
    (htest : exec test m = .ok (m.push (.ofBool b))) (hfirst : first.outcome = .ok ())
    (hsecond : second.outcome = .ok ())
    (hfirstNest : Wasm.nest 0 0 first.code = some 0) (hsecondNest : Wasm.nest 0 0 second.code = some 0)
    (h : Executes host (if b then first else second) () m m') :
    Executes host (do
      emit (test ++ ([.ifThen] : Code))
      first
      emit [.orElse]
      second
      emit [.close]) () m m' := by
  refine ⟨outcome_bind rfl (outcome_bind hfirst (outcome_bind rfl (outcome_bind hsecond rfl))), ?_⟩
  have hcode : (do
      emit (test ++ ([.ifThen] : Code))
      first
      emit [.orElse]
      second
      emit [.close] : Lowering Unit).code =
      test ++ (.ifThen :: first.code ++ .orElse :: second.code ++ ([.close] : Code)) := by
    rw [bind_code_of_ok (a := ()) rfl, bind_code_of_ok hfirst, bind_code_of_ok (a := ()) rfl, bind_code_of_ok hsecond]
    simp [emit]
  rw [hcode]
  refine Wasm.runs_append (Wasm.runs_of_exec htest) ?_
  cases b with
  | true => exact Wasm.runs_then (by decide) h.runs hsecondNest
  | false => exact Wasm.runs_else h.runs hfirstNest

/-- What comes after the comparison: the source goes into the destination where the two words in the locals are
equal, and else the second word goes into the accumulator. -/
def exchangeBranches (destination source : Operand) (size : OperandSize) : Lowering Unit := do
  emit (([.localGet Local.lhs, .localGet Local.rhs, .op .i32Eq] : Code) ++ ([.ifThen] : Code))
  (do loadOperand source; storeOperand destination)
  emit [.orElse]
  (do emit [.localGet Local.rhs]; storeRegister 0 size)
  emit [.close]

private theorem compareExchange_eq {destination source : Operand} (hoperands : i.operands = [destination, source]) :
    compareExchange i = (do
      let size ← scalarSize destination
      stage (.reg 0 size) destination
      emit (([.localGet Local.lhs, .localGet Local.rhs] : Code) ++ binaryCode .cmp)
      finishResult none size
      exchangeBranches destination source size) := by
  have hemit : ∀ k : Unit → Lowering Unit, emit [.orElse, .localGet Local.rhs] >>= k =
      emit [.orElse] >>= fun _ => emit [.localGet Local.rhs] >>= k := fun _ => rfl
  unfold compareExchange exchangeBranches
  rw [hoperands]
  simp only [bind_assoc, hemit]
  rfl

private theorem executes_exchangeBranches (host : Host Callee ω) {destination source : Operand} (h : Staged m x y r)
    (hdestination : destination.Writable size) (hsource : source.Readable size)
    (hdestinationBounds : destination.InBounds m.store) (hsourceBounds : source.InBounds m.store) :
    ∃ w, Executes host (exchangeBranches destination source size) () m
      (if x = y then assigned m destination (source.value m.store) w else assigned m (.reg 0 size) y.toNat w) := by
  have haccumulator : (Operand.reg 0 size).Writable size := Operand.writable_reg (by decide) hdestination.scalar
  have htest : exec ([.localGet Local.lhs, .localGet Local.rhs, .op .i32Eq] : Code) m =
      .ok (m.push (.ofBool (x == y))) := by
    rw [h.eq_mk]
    rfl
  obtain ⟨w, hexchange⟩ := executes_storeOperand host hdestination hdestinationBounds
    (UInt32.ofNat (source.value m.store))
  obtain ⟨w', hkeep⟩ := executes_storeOperand host haccumulator (Operand.inBounds_reg m.store 0 size) y
  have hfirst : Executes host (do loadOperand source; storeOperand destination) () m
      (assigned m destination (source.value m.store) w) := by
    rw [hsource.toNat_value] at hexchange
    exact executes_bind (executes_loadOperand hsource hsourceBounds) hexchange
  have hsecond : Executes host (do emit [.localGet Local.rhs]; storeRegister 0 size) () m
      (assigned m (.reg 0 size) y.toNat w') := by
    refine executes_bind (executes_emit ?_) hkeep
    rw [Wasm.exec_localGet, h.rhs, Wasm.exec_nil]
  have hbranches := fun m' => @executes_branches ω host m m' _ _ _ _ htest hfirst.outcome hsecond.outcome
    (nest_of_emits (by simp [emits_storeOperand (allows_benign destination)]))
    (nest_of_emits (by simp [emits_storeRegister]))
  by_cases hxy : x = y
  · refine ⟨w, hbranches _ ?_⟩
    rw [if_pos hxy, if_pos (beq_iff_eq.2 hxy)]
    exact hfirst
  · refine ⟨w', hbranches _ ?_⟩
    rw [if_neg hxy, if_neg fun h' => hxy (beq_iff_eq.1 h')]
    exact hsecond

/-- The body of a compare and exchange does one of two assignments, and leaves the two words that it has compared in
the locals and their difference in `t1`. -/
private theorem executes_compareExchange (host : Host Callee ω) {destination source : Operand}
    (hdestination : destination.Writable size) (hsource : source.Readable size)
    (hoperands : i.operands = [destination, source]) (hdestinationBounds : destination.InBounds m.store)
    (hsourceBounds : source.InBounds m.store) (hx : x.toNat = (Operand.reg 0 size).value m.store)
    (hy : y.toNat = destination.value m.store) :
    ∃ m₂, Executes host (compareExchange i) () m m₂ ∧ m₂.stack = m.stack ∧
      Staged m₂ x y (x - y &&& size.mask) ∧
      m₂.store = ((X86.exchangeEffect size m.store destination source).assigned.foldl (fun s x => x.1.assign s x.2)
        m.store).set .t1 (x - y &&& size.mask) := by
  have haccumulator : (Operand.reg 0 size).Writable size := Operand.writable_reg (by decide) hdestination.scalar
  have hstage : Executes host (stage (.reg 0 size) destination) () m (staging m x y) := by
    have hstage : Executes host (stage (.reg 0 size) destination) () m _ :=
      executes_stage haccumulator.toReadable hdestination.toReadable (Operand.inBounds_reg m.store 0 size)
        hdestinationBounds
    rwa [← hx, ← hy, UInt32.ofNat_toNat, UInt32.ofNat_toNat] at hstage
  obtain ⟨m₁, hfinish, hfinished⟩ := executes_finishResult host size none (m := staging m x y) nofun rfl rfl (x - y)
  generalize x - y &&& size.mask = r at hfinished ⊢
  have hstore : m₁.store = m.store.set .t1 r := hfinished.store
  obtain ⟨w, hbranches⟩ := executes_exchangeBranches host hfinished.staged hdestination hsource
    (hstore ▸ Operand.inBounds_set_t1 r hdestinationBounds)
    (hstore ▸ Operand.inBounds_set_t1 r hsourceBounds)
  rw [hstore, Operand.value_set_t1] at hbranches
  have hexecutes : Executes host (compareExchange i) () m (if x = y then
      assigned m₁ destination (source.value m.store) w else assigned m₁ (.reg 0 size) y.toNat w) := by
    rw [compareExchange_eq hoperands]
    exact executes_bind (executes_scalarSize hdestination.toReadable m) (executes_bind hstage
      (executes_bind (executes_emit (exec_stagedBinary .cmp m x y)) (executes_bind hfinish hbranches)))
  have hequal : x = y ↔ (Operand.reg 0 size).value m.store = destination.value m.store := by
    rw [← UInt32.toNat_inj, hx, hy]
  refine ⟨_, hexecutes, ?_, ?_, ?_⟩
  · split <;> exact hfinished.stack
  · split <;> exact hfinished.staged.assigned _ _ w
  · dsimp only [X86.exchangeEffect]
    by_cases hxy : x = y
    · rw [if_pos hxy, if_pos (hequal.1 hxy), assigned, hstore]
      exact Operand.assign_set_t1 m.store r destination (source.value m.store)
    · rw [if_neg hxy, if_neg (fun h => hxy (hequal.2 h)), assigned, hstore, hy]
      exact Operand.assign_set_t1 m.store r (.reg 0 size) (destination.value m.store)

/-- A compare and exchange sets the flags as a comparison does. -/
theorem performs_cmpxchg {destination source : Operand} (host : Host Callee ω) (chunk : UInt32) (toLoop : Nat)
    (hm : i.mnemonic = .cmpxchg) (hdestination : destination.Writable size) (hsource : source.Readable size)
    (hoperands : i.operands = [destination, source]) (hdestinationBounds : destination.InBounds m.store)
    (hsourceBounds : source.InBounds m.store) :
    Performs host chunk toLoop i m (X86.exchangeEffect size m.store destination source) := by
  have hscalar := hdestination.scalar
  have haccumulator : (Operand.reg 0 size).Writable size := Operand.writable_reg (by decide) hscalar
  have hx := haccumulator.toNat_value m.store
  have hy := hdestination.toNat_value m.store
  have hxlt := haccumulator.value_lt m.store
  have hylt := hdestination.value_lt m.store
  rw [← hx] at hxlt
  rw [← hy] at hylt
  obtain ⟨m₂, hbody, hstack, hstaged, hstore⟩ := executes_compareExchange host hdestination hsource hoperands
    hdestinationBounds hsourceBounds hx hy
  have hflags := exec_binaryFlags .cmp rfl hstaged hscalar hxlt hylt (by simp)
    (toNat_binaryWord .cmp (m₂.store.get (.flag .cf)) hscalar hxlt hylt)
  rw [hx, hy] at hflags
  exact performs_of_executes (by rw [computation?, hm]) hbody (executes_updateFlags (by rw [hm]; rfl)
    (by rw [hoperands]; rfl) hdestination.toReadable (Wasm.runs_of_exec hflags)) hstack hstore

/-! ### Decoded instructions -/

private theorem toNat_flag_le_one {s : Wasm.Store ω} (h : s.Boolean isFlag) (f : Flag) :
    (s.get (.flag f)).toNat ≤ 1 := by
  have hindex : isFlag (Slot.flag f).index = true := by cases f <;> decide
  have hword : s.get (.flag f) = 0 ∨ s.get (.flag f) = 1 := h _ hindex
  rcases hword with hword | hword <;> rw [hword] <;> decide

/-- The code of a decoded arithmetic or bitwise instruction computes exactly: from every state with truth values in
the flags and with the operands in memory where there is memory, it assigns the result to the destination, if there
is one, and sets the flags, and it changes nothing else. -/
theorem performs_arithmetic {bytes : List UInt8} {address : UInt32} {n : Nat}
    (h : X86.decode bytes address = .ok (i, n))
    (host : Host Callee ω) (chunk : UInt32) (toLoop : Nat) (m : Wasm.Machine ω) (hflags : m.store.Boolean isFlag)
    (hbounds : ∀ op ∈ i.operands, op.InBounds m.store) :
    (∀ op, i.mnemonic = .binary op → ∃ size first second,
      size.bits ∈ [8, 16, 32] ∧ first.Writable size ∧ second.Readable size ∧
        i.operands = (if op.writes then [first, first, second] else [first, second]) ∧
        Performs host chunk toLoop i m (op.effect size m.store first second)) ∧
    (∀ op, i.mnemonic = .unary op → ∃ size operand,
      size.bits ∈ [8, 16, 32] ∧ operand.Writable size ∧ i.operands = [operand] ∧
        Performs host chunk toLoop i m (op.effect size m.store operand)) ∧
    (i.mnemonic = .cmpxchg → ∃ size destination source,
      size.bits ∈ [8, 16, 32] ∧ destination.Writable size ∧ source.Writable size ∧
      i.operands = [destination, source] ∧
        Performs host chunk toLoop i m (X86.exchangeEffect size m.store destination source)) := by
  refine ⟨fun op hm => ?_, fun op hm => ?_, fun hm => ?_⟩
  · obtain ⟨size, first, second, hfirst, hsecond, hoperands⟩ := X86.operands_of_binary h hm
    have hmem : first ∈ i.operands ∧ second ∈ i.operands := by
      rw [hoperands]
      cases op.writes <;> simp
    exact ⟨size, first, second, OperandSize.bits_mem hfirst.scalar, hfirst, hsecond, hoperands,
      performs_binary host chunk toLoop hm hfirst hsecond hoperands (fun _ => toNat_flag_le_one hflags .cf)
        (hbounds first hmem.1) (hbounds second hmem.2)⟩
  · obtain ⟨size, operand, hoperand, hoperands⟩ := X86.operands_of_unary h hm
    have hmem : operand ∈ i.operands := by simp [hoperands]
    exact ⟨size, operand, OperandSize.bits_mem hoperand.scalar, hoperand, hoperands,
      performs_unary host chunk toLoop hm hoperand hoperands (hbounds operand hmem)⟩
  · obtain ⟨size, destination, source, hdestination, hsource, hoperands⟩ := X86.operands_of_cmpxchg h hm
    have hmem : destination ∈ i.operands ∧ source ∈ i.operands := by simp [hoperands]
    exact ⟨size, destination, source, OperandSize.bits_mem hdestination.scalar, hdestination, hsource, hoperands,
      performs_cmpxchg host chunk toLoop hm hdestination hsource.toReadable hoperands (hbounds destination hmem.1)
        (hbounds source hmem.2)⟩

/-- The first byte of a register full of ones, an address in two registers, and the carry set. -/
def overflowing : Wasm.Store Unit where
  globals := fun index =>
    if index = 0 then 0xff80 else if index = 1 then 2 else if index = 3 then 8 else if index = 8 then 1 else 0
  memory := ⟨64, fun _ => 0⟩
  world := ()

private theorem boolean_overflowing : overflowing.Boolean isFlag := by
  intro index hindex
  have hflag := isFlag_eq_true_iff.1 hindex
  have hglobal : overflowing.globals index = if index = 8 then 1 else 0 := by
    show (if index = 0 then 0xff80 else if index = 1 then 2 else if index = 3 then 8 else _) = _
    rw [if_neg (by omega), if_neg (by omega), if_neg (by omega)]
  rw [hglobal]
  split
  · exact .inr rfl
  · exact .inl rfl

/-- A byte of a register, a byte of memory and the carry add up to nothing but a carry. -/
theorem performs_arithmetic_overflowing :
    ∃ i m', X86.decode [0x12, 0x24, 0x8b] 0x1000 = .ok (i, 3) ∧ (∀ op ∈ i.operands, op.InBounds overflowing) ∧
      Completes (fun _ _ => .error .trap) (instruction 0 0 i).code (.start overflowing) m' ∧
      m'.store.get .eax = 0x80 ∧ Flag.all.map (fun f => m'.store.get (.flag f)) = [1, 1, 1, 1, 0, 0, 0] := by
  have hdecode : X86.decode [0x12, 0x24, 0x8b] 0x1000 =
      .ok (⟨{}, 0x12, .binary .adc, [.reg 4 .bits8, .reg 4 .bits8, .scaledIndex (some 3) (some 1) 4 none .bits8 true],
        0x1000, 0x1003⟩, 3) := by
    decide +kernel
  have hbounds : ∀ op ∈ [Operand.reg 4 .bits8, .reg 4 .bits8, .scaledIndex (some 3) (some 1) 4 none .bits8 true],
      op.InBounds overflowing := by
    decide +kernel
  obtain ⟨hbinary, -, -⟩ := performs_arithmetic hdecode (fun _ _ => .error .trap) 0 0 (.start overflowing)
    boolean_overflowing hbounds
  obtain ⟨size, first, second, -, hfirst, -, hoperands, -, m', scratch, hcompletes, -, hstore⟩ := hbinary .adc rfl
  cases hoperands
  cases hfirst.size?_eq
  have hget : ∀ x, x ≠ Slot.t1 → m'.store.get x = ((BinaryOp.adc.effect .bits8 overflowing (.reg 4 .bits8)
      (.scaledIndex (some 3) (some 1) 4 none .bits8 true)).apply overflowing).get x := fun x hx =>
    hstore ▸ Wasm.Store.get_set_of_ne _ _ hx
  refine ⟨_, m', hdecode, hbounds, hcompletes, (hget _ Slot.noConfusion).trans (by decide +kernel), ?_⟩
  rw [funext fun f => hget (.flag f) Slot.noConfusion]
  decide +kernel

end Ia32Wasm.Lowering
