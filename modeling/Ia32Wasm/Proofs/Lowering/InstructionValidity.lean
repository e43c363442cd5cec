import Ia32Wasm.Proofs.Lowering.Validity

/-!
# Lowered instructions are valid

The code of an instruction is valid in front of any rest: it leaves the operand stack empty, whether or not control
goes on behind it.  A jump needs as many constructs around it as it says that there are inside the dispatch loop.

* `accepts_computation` goes through all instructions that compute, `accepts_body` adds the transfers of control.
* `accepts_instruction` is about all the code of an instruction.
-/

namespace Ia32Wasm.Lowering

open Machine (Flag Slot)
open Wasm (Context Frame Numeric ValueType validate)
open X86 (BinaryOp Destination Instruction Mnemonic Operand OperandSize ShiftOp UnaryOp)

variable {α : Type} {more : Nat} {f : Frame} {frames outer : List Frame} {i : Instruction}

/-! ### Arithmetic -/

private theorem accepts_finishResult {destination : Option Operand} (h : ∀ op ∈ destination, Named more op)
    (size : OperandSize) : Accepts more (finishResult destination size) (f.push .i32 :: outer) (f :: outer) := by
  have hresult : Turns more (maskTo size ++ [setSlot .t1]) (f.push .i32) f :=
    (turns_maskTo size).append fun outer => by simp
  refine accepts_bind (accepts_emit hresult) fun _ _ => ?_
  cases destination with
  | none => exact accepts_pure _ _
  | some op =>
    have hload : Turns more [getSlot .t1] f (f.push .i32) := fun outer => by simp
    exact accepts_bind (accepts_emit hload) fun _ _ => accepts_storeOperand (h op rfl)

private theorem turns_binaryCode (op : BinaryOp) :
    Turns more (binaryCode op) ((f.push .i32).push .i32) (f.push .i32) := by
  intro outer
  cases op <;> simp [binaryCode]

private theorem turns_sources :
    Turns more [.localGet Local.lhs, .localGet Local.rhs] f ((f.push .i32).push .i32) := by
  intro outer
  simp

private theorem accepts_binaryOn (op : BinaryOp) {destination : Option Operand} {lhs rhs : Operand}
    (h : ∀ op ∈ destination, Named more op) (hlhs : Named more lhs) (hrhs : Named more rhs) :
    Accepts more (binaryOn op destination lhs rhs) (f :: outer) (f :: outer) := by
  refine accepts_bind (accepts_scalarSize lhs _) fun size _ => ?_
  refine accepts_bind (accepts_stage hlhs hrhs) fun _ _ => ?_
  refine accepts_bind (accepts_emit (turns_sources.append (turns_binaryCode op))) fun _ _ => ?_
  refine accepts_finishResult ?_ size
  split
  · exact h
  · simp

private theorem accepts_binary (op : BinaryOp) (h : ∀ op ∈ i.operands, Named more op) :
    Accepts more (binary op i) (f :: outer) (f :: outer) := by
  unfold binary
  split
  · rename_i destination lhs rhs heq
    rw [heq] at h
    exact accepts_binaryOn op (by simp [h]) (h lhs (by simp)) (h rhs (by simp))
  · rename_i lhs rhs heq
    rw [heq] at h
    exact accepts_binaryOn op (by simp) (h lhs (by simp)) (h rhs (by simp))
  · exact accepts_unsupported

private theorem accepts_unaryResult {op : Numeric} (hop : op.type = ([.i32, .i32], .i32)) {operand : Operand}
    (h : Named more operand) (size : OperandSize) :
    Accepts more (unaryResult op operand size) (f :: outer) (f :: outer) := by
  refine accepts_bind (accepts_emit (turns_sources.append (turns_op hop))) fun _ _ => ?_
  exact accepts_finishResult (by simpa using h) size

private theorem accepts_unaryOn (op : UnaryOp) {operand : Operand} (h : Named more operand) (size : OperandSize) :
    Accepts more (unaryOn op operand size) (f :: outer) (f :: outer) := by
  have hone : Turns more [.localSet Local.lhs, .i32Const 1, .localSet Local.rhs] (f.push .i32) f :=
    fun outer => by simp
  have hzero : Turns more [.i32Const 0, .localSet Local.lhs] f f := fun outer => by simp
  have hflip : Turns more (([.i32Const 0xffffffff, .op .i32Xor] : Code) ++ maskTo size) (f.push .i32) (f.push .i32) :=
    Turns.append (fun outer => by simp) (turns_maskTo size)
  cases op with
  | inc =>
    refine accepts_bind (accepts_loadOperand h) fun _ _ => accepts_bind (accepts_emit hone) fun _ _ => ?_
    exact accepts_unaryResult rfl h size
  | dec =>
    refine accepts_bind (accepts_loadOperand h) fun _ _ => accepts_bind (accepts_emit hone) fun _ _ => ?_
    exact accepts_unaryResult rfl h size
  | neg =>
    refine accepts_bind (accepts_emit hzero) fun _ _ => accepts_bind (accepts_loadOperand h) fun _ _ => ?_
    exact accepts_bind (accepts_emit (turns_localSet locals_rhs)) fun _ _ => accepts_unaryResult rfl h size
  | not =>
    refine accepts_bind (accepts_loadOperand h) fun _ _ => accepts_bind (accepts_emit hflip) fun _ _ => ?_
    exact accepts_storeOperand h

private theorem accepts_unary (op : UnaryOp) (h : ∀ op ∈ i.operands, Named more op) :
    Accepts more (unary op i) (f :: outer) (f :: outer) := by
  unfold unary
  split
  · rename_i operand heq
    rw [heq] at h
    exact accepts_bind (accepts_scalarSize operand _) fun size _ => accepts_unaryOn op (h operand (by simp)) size
  · exact accepts_unsupported

private theorem turns_shiftCode (op : ShiftOp) (size : OperandSize) :
    Turns more (shiftCode op size) f (f.push .i32) := by
  cases op with
  | shl =>
    intro outer
    simp [shiftCode]
  | shr =>
    intro outer
    simp [shiftCode]
  | sar =>
    have hsource : Turns more (.localGet Local.lhs :: signExtend size) f (f.push .i32) :=
      (turns_localGet locals_lhs).cons (turns_signExtend size)
    exact hsource.append fun outer => by simp

private theorem accepts_shift (op : ShiftOp) (h : ∀ op ∈ i.operands, Named more op) :
    Accepts more (shift op i) (f :: outer) (f :: outer) := by
  unfold shift
  split
  · rename_i destination lhs count heq
    rw [heq] at h
    have hcount : Turns more [.i32Const 31, .op .i32And, .localSet Local.rhs] (f.push .i32) f := fun outer => by simp
    refine accepts_bind (accepts_scalarSize lhs _) fun size _ => ?_
    refine accepts_bind (accepts_loadOperand (h lhs (by simp))) fun _ _ => ?_
    refine accepts_bind (accepts_emit (turns_localSet locals_lhs)) fun _ _ => ?_
    refine accepts_bind (accepts_loadOperand (h count (by simp))) fun _ _ => ?_
    refine accepts_bind (accepts_emit (hcount.append (turns_shiftCode op size))) fun _ _ => ?_
    exact accepts_finishResult (by simp [h]) size
  · exact accepts_unsupported

private theorem turns_extendWide (size : OperandSize) (signed : Bool) :
    Turns more (extendWide size signed) (f.push .i32) (f.push .i64) := by
  unfold extendWide
  split
  · exact (turns_signExtend size).append fun outer => by simp
  · intro outer
    simp

private theorem turns_wideProduct (size : OperandSize) (signed : Bool) :
    Turns more (wideProduct size signed) f f := by
  have hfirst : Turns more (.localGet Local.lhs :: extendWide size signed) f (f.push .i64) :=
    (turns_localGet locals_lhs).cons (turns_extendWide size signed)
  have hsecond : Turns more (.localGet Local.rhs :: extendWide size signed) (f.push .i64) ((f.push .i64).push .i64) :=
    (turns_localGet locals_rhs).cons (turns_extendWide size signed)
  exact (hfirst.append hsecond).append fun outer => by simp

private theorem turns_lowHalf : Turns more lowHalf f (f.push .i32) := by
  intro outer
  simp [lowHalf]

private theorem turns_highPart (size : OperandSize) : Turns more (highPart size) f (f.push .i32) :=
  Turns.append (fun outer => by simp) (turns_maskTo size)

private theorem accepts_multiplyInto {destination lhs rhs : Operand} (h : Named more destination)
    (hlhs : Named more lhs)
    (hrhs : Named more rhs) : Accepts more (multiplyInto destination lhs rhs) (f :: outer) (f :: outer) := by
  refine accepts_bind (accepts_scalarSize destination _) fun size _ => ?_
  refine accepts_bind (accepts_stage hlhs hrhs) fun _ _ => ?_
  refine accepts_bind (accepts_emit ((turns_wideProduct size true).append turns_lowHalf)) fun _ _ => ?_
  exact accepts_finishResult (by simpa using h) size

private theorem accepts_multiplyAccumulator (signed : Bool) {source : Operand} (h : Named more source) :
    Accepts more (multiplyAccumulator signed source) (f :: outer) (f :: outer) := by
  refine accepts_bind (accepts_scalarSize source _) fun size _ => ?_
  have hresult : Turns more (wideProduct size signed ++ lowHalf ++ maskTo size ++ [setSlot .t1]) f f :=
    (((turns_wideProduct size signed).append turns_lowHalf).append (turns_maskTo size)).append fun outer => by simp
  refine accepts_bind (accepts_stage (named_reg (by decide) size) h) fun _ _ => ?_
  refine accepts_bind (accepts_emit hresult) fun _ _ => ?_
  split
  · have hword : Turns more (lowHalf ++ ([.i32Const 0xffff, .op .i32And] : Code)) f (f.push .i32) :=
      turns_lowHalf.append fun outer => by simp
    exact accepts_bind (accepts_emit hword) fun _ _ => accepts_storeRegister (by decide) _
  · have hload : Turns more [getSlot .t1] f (f.push .i32) := fun outer => by simp
    refine accepts_bind (accepts_emit hload) fun _ _ => ?_
    refine accepts_bind (accepts_storeRegister (by decide) size) fun _ _ => ?_
    exact accepts_bind (accepts_emit (turns_highPart size)) fun _ _ => accepts_storeRegister (by decide) size

private theorem accepts_multiply (signed : Bool) (h : ∀ op ∈ i.operands, Named more op) :
    Accepts more (multiply signed i) (f :: outer) (f :: outer) := by
  unfold multiply
  split
  · rename_i destination lhs rhs heq
    rw [heq] at h
    split
    · exact accepts_multiplyInto (h destination (by simp)) (h lhs (by simp)) (h rhs (by simp))
    · exact accepts_unsupported
  · rename_i source heq
    rw [heq] at h
    exact accepts_multiplyAccumulator signed (h source (by simp))
  · exact accepts_unsupported

private theorem turns_checkDivisor : Turns more checkDivisor f f := by
  intro outer
  simp [checkDivisor, callHook, Frame.cut]

private theorem accepts_dividend (size : OperandSize) (signed : Bool) :
    Accepts more (dividend size signed) (f :: outer) (f.push .i64 :: outer) := by
  cases size with
  | bits8 =>
    exact accepts_bind (accepts_loadRegister (by decide) _) fun _ _ => accepts_emit (turns_extendWide _ signed)
  | bits16 =>
    have hshift : Turns more [.i32Const 16, .op .i32Shl] (f.push .i32) (f.push .i32) := fun outer => by simp
    have hor : Turns more [.op .i32Or] ((f.push .i32).push .i32) (f.push .i32) := fun outer => by simp
    refine accepts_bind (accepts_loadRegister (by decide) _) fun _ _ => accepts_bind (accepts_emit hshift)
      fun _ _ => ?_
    refine accepts_bind (accepts_loadRegister (by decide) _) fun _ _ => ?_
    exact accepts_emit (hor.cons (turns_extendWide _ signed))
  | bits32 =>
    have hshift : Turns more [.op .i64ExtendI32U, .i64Const 32, .op .i64Shl] (f.push .i32) (f.push .i64) :=
      fun outer => by simp
    refine accepts_bind (accepts_loadRegister (by decide) _) fun _ _ => accepts_bind (accepts_emit hshift)
      fun _ _ => ?_
    exact accepts_bind (accepts_loadRegister (by decide) _) fun _ _ => accepts_emit fun outer => by simp
  | bits128 => exact accepts_unsupported

private theorem accepts_divideInto {op : Numeric} (hop : op.type = ([.i64, .i64], .i64)) (size : OperandSize)
    (signed : Bool)
    {register : UInt8} (h : register.toNat < 8) :
    Accepts more (divideInto op size signed register) (f :: outer) (f :: outer) := by
  have hdivisor : Turns more (.localGet Local.wide :: .localGet Local.rhs :: extendWide size signed) f
      ((f.push .i64).push .i64) :=
    (turns_localGet locals_wide).cons ((turns_localGet locals_rhs).cons (turns_extendWide size signed))
  have hresult : Turns more [.op op, .op .i32WrapI64] ((f.push .i64).push .i64) (f.push .i32) :=
    (turns_op hop).cons fun outer => by simp
  refine accepts_bind (accepts_emit ((hdivisor.append hresult).append (turns_maskTo size))) fun _ _ => ?_
  exact accepts_storeRegister h size

private theorem accepts_divide (signed : Bool) (h : ∀ op ∈ i.operands, Named more op) :
    Accepts more (divide signed i) (f :: outer) (f :: outer) := by
  unfold divide
  split
  · rename_i divisor heq
    rw [heq] at h
    refine accepts_bind (accepts_scalarSize divisor _) fun size _ => ?_
    have hremainder : (remainderRegister size).toNat < 8 := by cases size <;> decide
    refine accepts_bind (accepts_loadOperand (h divisor (by simp))) fun _ _ => ?_
    refine accepts_bind (accepts_emit ((turns_localSet locals_rhs).cons turns_checkDivisor)) fun _ _ => ?_
    refine accepts_bind (accepts_dividend size signed) fun _ _ => ?_
    refine accepts_bind (accepts_emit (turns_localSet locals_wide)) fun _ _ => ?_
    refine accepts_bind (accepts_divideInto ?_ size signed (by decide)) fun _ _ => ?_
    · split <;> rfl
    · refine accepts_divideInto ?_ size signed hremainder
      split <;> rfl
  · exact accepts_unsupported

/-! ### The stack -/

private theorem turns_moveStackPointer (delta : UInt32) : Turns more (moveStackPointer delta) f f :=
  turns_addToGlobal (index_lt _) delta

private theorem accepts_pushValue (size : OperandSize) :
    Accepts more (pushValue size) (f.push .i32 :: outer) (f :: outer) := by
  have hplace : Turns more [getSlot .esp, .localGet Local.tmp] f ((f.push .i32).push .i32) := fun outer => by simp
  refine accepts_bind (accepts_emit ?_) fun _ _ => accepts_store size
  exact ((turns_localSet locals_tmp).cons (turns_moveStackPointer _)).append hplace

private theorem accepts_popValue (size : OperandSize) :
    Accepts more (popValue size) (f :: outer) (f.push .i32 :: outer) := by
  have hplace : Turns more [getSlot .esp] f (f.push .i32) := fun outer => by simp
  refine accepts_bind (accepts_emit hplace) fun _ _ => accepts_bind (accepts_load size) fun _ _ => ?_
  exact accepts_emit (turns_moveStackPointer _)

private theorem accepts_pushConstant (value : UInt32) :
    Accepts more (pushConstant value) (f :: outer) (f :: outer) := by
  have hvalue : Turns more [.i32Const value] f (f.push .i32) := fun outer => by simp
  exact accepts_bind (accepts_emit hvalue) fun _ _ => accepts_pushValue .bits32

private theorem accepts_push (h : ∀ op ∈ i.operands, Named more op) :
    Accepts more (push i) (f :: outer) (f :: outer) := by
  unfold push
  split
  · rename_i source heq
    rw [heq] at h
    refine accepts_bind (accepts_scalarSize source _) fun size _ => ?_
    exact accepts_bind (accepts_loadOperand (h source (by simp))) fun _ _ => accepts_pushValue size
  · exact accepts_unsupported

private theorem accepts_pop (h : ∀ op ∈ i.operands, Named more op) :
    Accepts more (pop i) (f :: outer) (f :: outer) := by
  unfold pop
  split
  · rename_i destination heq
    rw [heq] at h
    refine accepts_bind (accepts_scalarSize destination _) fun size _ => ?_
    exact accepts_bind (accepts_popValue size) fun _ _ => accepts_storeOperand (h destination (by simp))
  · exact accepts_unsupported

private theorem accepts_forM {γ : Type} {l : List γ} {g : γ → Lowering PUnit}
    (h : ∀ x ∈ l, Accepts more (g x) frames frames) :
    Accepts more (l.forM g) frames frames := by
  induction l with
  | nil => exact accepts_pure _ _
  | cons x l ih =>
    obtain ⟨hx, hl⟩ := List.forall_mem_cons.1 h
    exact accepts_bind hx fun _ _ => ih hl

private theorem accepts_pushRegisters : Accepts more pushRegisters (f :: outer) (f :: outer) := by
  have hpointer : Turns more [getSlot .esp, .localSet Local.lhs] f f := fun outer => by simp
  refine accepts_bind (accepts_emit hpointer) fun _ _ => accepts_forM fun index hindex => ?_
  have hlt : ∀ register ∈ ([0, 1, 2, 3, 4, 5, 6, 7] : List UInt8), register.toNat < 8 := by simp
  split
  · exact accepts_bind (accepts_emit (turns_localGet locals_lhs)) fun _ _ => accepts_pushValue .bits32
  · exact accepts_bind (accepts_loadRegister (hlt index hindex) .bits32) fun _ _ => accepts_pushValue .bits32

private theorem accepts_popRegisters : Accepts more popRegisters (f :: outer) (f :: outer) := by
  refine accepts_forM fun index hindex => ?_
  have hlt : ∀ register ∈ ([7, 6, 5, 4, 3, 2, 1, 0] : List UInt8), register.toNat < 8 := by simp
  split
  · exact accepts_emit (turns_moveStackPointer _)
  · exact accepts_bind (accepts_popValue .bits32) fun _ _ => accepts_storeRegister (hlt index hindex) .bits32

private theorem turns_packedFlags : Turns more packedFlags f (f.push .i32) := by
  have hflag : ∀ flag, Turns more [getFlag flag, .i32Const (UInt32.ofNat flag.bit), .op .i32Shl, .op .i32Or]
      (f.push .i32) (f.push .i32) := fun flag outer => by simp
  have hstart : Turns more [.i32Const 2] f (f.push .i32) := fun outer => by simp
  refine hstart.cons fun outer => ?_
  rw [List.flatMap_def]
  refine Wasm.validate_flatten fun code hcode => ?_
  obtain ⟨flag, -, rfl⟩ := List.mem_map.1 hcode
  exact hflag flag outer

private theorem turns_unpackFlags : Turns more unpackFlags f f := by
  have hflag : ∀ flag : Flag, Turns more (setFlag flag (.localGet Local.lhs :: bitAt flag.bit)) f f :=
    fun flag => turns_setFlag ((turns_localGet locals_lhs).cons (turns_bitAt _))
  intro outer
  rw [unpackFlags, List.flatMap_def]
  refine Wasm.validate_flatten fun code hcode => ?_
  obtain ⟨flag, -, rfl⟩ := List.mem_map.1 hcode
  exact hflag flag outer

private theorem accepts_pushFlags : Accepts more pushFlags (f :: outer) (f :: outer) :=
  accepts_bind (accepts_emit turns_packedFlags) fun _ _ => accepts_pushValue .bits32

private theorem accepts_popFlags : Accepts more popFlags (f :: outer) (f :: outer) :=
  accepts_bind (accepts_popValue .bits32) fun _ _ => accepts_emit ((turns_localSet locals_lhs).cons turns_unpackFlags)

private theorem accepts_leaveFrame : Accepts more leaveFrame (f :: outer) (f :: outer) := by
  have hpointer : Turns more [getSlot .ebp, setSlot .esp] f f := fun outer => by simp
  refine accepts_bind (accepts_emit hpointer) fun _ _ => accepts_bind (accepts_popValue .bits32) fun _ _ => ?_
  exact accepts_emit fun outer => by simp

private theorem accepts_withoutOperands {x : Lowering Unit} (h : Accepts more x frames frames) :
    Accepts more (withoutOperands i x) frames frames := by
  unfold withoutOperands
  split
  · exact h
  · exact accepts_unsupported

/-! ### Moves -/

private theorem accepts_move (h : ∀ op ∈ i.operands, Named more op) :
    Accepts more (move i) (f :: outer) (f :: outer) := by
  unfold move
  split
  · rename_i destination source heq
    rw [heq] at h
    refine accepts_bind (accepts_loadOperand (h source (by simp))) fun _ _ => ?_
    exact accepts_storeOperand (h destination (by simp))
  · exact accepts_unsupported

private theorem accepts_widen (signed : Bool) (h : ∀ op ∈ i.operands, Named more op) :
    Accepts more (widen signed i) (f :: outer) (f :: outer) := by
  unfold widen
  split
  · rename_i destination source heq
    rw [heq] at h
    have hstore : Accepts more (storeOperand destination) (f.push .i32 :: outer) (f :: outer) :=
      accepts_storeOperand (h destination (by simp))
    refine accepts_bind (accepts_scalarSize source _) fun size _ => ?_
    refine accepts_bind (accepts_loadOperand (h source (by simp))) fun _ _ => ?_
    cases signed with
    | false => exact hstore
    | true =>
      refine accepts_bind (accepts_emit (turns_signExtend size)) fun _ _ => ?_
      refine accepts_bind (accepts_scalarSize destination _) fun size' _ => ?_
      exact accepts_bind (accepts_emit (turns_maskTo size')) fun _ _ => hstore
  · exact accepts_unsupported

private theorem accepts_loadAddress (h : ∀ op ∈ i.operands, Named more op) :
    Accepts more (loadAddress i) (f :: outer) (f :: outer) := by
  unfold loadAddress
  split
  · rename_i destination source heq
    rw [heq] at h
    refine accepts_bind (accepts_addressOf (h source (by simp))) fun _ _ => ?_
    refine accepts_bind (accepts_scalarSize destination _) fun size _ => ?_
    exact accepts_bind (accepts_emit (turns_maskTo size)) fun _ _ => accepts_storeOperand (h destination (by simp))
  · exact accepts_unsupported

private theorem accepts_exchange (h : ∀ op ∈ i.operands, Named more op) :
    Accepts more (exchange i) (f :: outer) (f :: outer) := by
  unfold exchange
  split
  · rename_i first second heq
    rw [heq] at h
    have hfirst : Named more first := h first (by simp)
    have hsecond : Named more second := h second (by simp)
    refine accepts_bind (accepts_stage hfirst hsecond) fun _ _ => ?_
    refine accepts_bind (accepts_emit (turns_localGet locals_rhs)) fun _ _ => ?_
    refine accepts_bind (accepts_storeOperand hfirst) fun _ _ => ?_
    exact accepts_bind (accepts_emit (turns_localGet locals_lhs)) fun _ _ => accepts_storeOperand hsecond
  · exact accepts_unsupported

private theorem accepts_compareExchange (h : ∀ op ∈ i.operands, Named more op) :
    Accepts more (compareExchange i) (f :: outer) (f :: outer) := by
  unfold compareExchange
  split
  · rename_i destination source heq
    rw [heq] at h
    have hdestination : Named more destination := h destination (by simp)
    have hthen : validate (context more) [.localGet Local.lhs, .localGet Local.rhs, .op .i32Eq, .ifThen]
      (f :: outer) =
        some (.opened .first :: f :: outer) := by simp
    have helse : validate (context more) [.orElse, .localGet Local.rhs] (.opened .first :: f :: outer) =
        some ((Frame.opened .second).push .i32 :: f :: outer) := by simp
    have hclose : validate (context more) [.close] (.opened .second :: f :: outer) = some (f :: outer) := by
      simp [Frame.opened]
    refine accepts_bind (accepts_scalarSize destination _) fun size _ => ?_
    refine accepts_bind (accepts_stage (named_reg (by decide) size) hdestination) fun _ _ => ?_
    refine accepts_bind (accepts_emit (turns_sources.append (turns_op rfl))) fun _ _ => ?_
    refine accepts_bind (accepts_finishResult (by simp) size) fun _ _ => ?_
    refine accepts_bind (accepts_emit_of_validate hthen) fun _ _ => ?_
    refine accepts_bind (accepts_loadOperand (h source (by simp))) fun _ _ => ?_
    refine accepts_bind (accepts_storeOperand hdestination) fun _ _ => ?_
    refine accepts_bind (accepts_emit_of_validate helse) fun _ _ => ?_
    refine accepts_bind (accepts_storeRegister (by decide) size) fun _ _ => ?_
    exact accepts_emit_of_validate hclose
  · exact accepts_unsupported

private theorem accepts_storeCondition (h : ∀ op ∈ i.operands, Named more op) :
    Accepts more (storeCondition i) (f :: outer) (f :: outer) := by
  unfold storeCondition
  split
  · rename_i destination heq
    rw [heq] at h
    exact accepts_bind (accepts_testCondition i) fun _ _ => accepts_storeOperand (h destination (by simp))
  · exact accepts_unsupported

private theorem accepts_extendAccumulator (i : Instruction) :
    Accepts more (extendAccumulator i) (f :: outer) (f :: outer) := by
  unfold extendAccumulator
  split
  · have hsign : Turns more [.i32Const 15, .op .i32ShrS] (f.push .i32) (f.push .i32) := fun outer => by simp
    refine accepts_bind (accepts_loadRegister (by decide) _) fun _ _ => ?_
    refine accepts_bind (accepts_emit (((turns_signExtend _).append hsign).append (turns_maskTo _))) fun _ _ => ?_
    exact accepts_storeRegister (by decide) _
  · have hsign : Turns more [.i32Const 31, .op .i32ShrS] (f.push .i32) (f.push .i32) := fun outer => by simp
    refine accepts_bind (accepts_loadRegister (by decide) _) fun _ _ => accepts_bind (accepts_emit hsign)
      fun _ _ => ?_
    exact accepts_storeRegister (by decide) _

private theorem turns_clearRegisters (registers : List Slot) : Turns more (clearRegisters registers) f f := by
  intro outer
  rw [clearRegisters, List.flatMap_def]
  refine Wasm.validate_flatten fun code hcode => ?_
  obtain ⟨register, -, rfl⟩ := List.mem_map.1 hcode
  simp

private theorem turns_stringStep (width : UInt32) : Turns more (stringStep width) f f := by
  intro outer
  simp [stringStep]

private theorem turns_advance (register : Slot) : Turns more (advance register) f f := by
  intro outer
  simp [advance]

private theorem accepts_stringOn (destination : Operand) {element : OperandSize → Lowering Unit} {moved : Code}
    (helement : ∀ size f outer, Accepts more (element size) (f :: outer) (f.push .i32 :: outer))
    (hmoved : ∀ f, Turns more moved f f) :
    Accepts more (stringOn i destination element moved) (f :: outer) (f :: outer) := by
  have hedi : ∀ f, Turns more [getSlot .edi] f (f.push .i32) := fun f outer => by simp
  -- The loop of a repeated instruction stands inside a block.
  have hhead : validate (context more) repeatHead (f :: outer) =
      some (.opened .loop :: .opened .block :: f :: outer) := by
    simp [repeatHead]
  have htail : validate (context more) repeatTail (.opened .loop :: .opened .block :: f :: outer) =
      some (f :: outer) := by
    rw [repeatTail, Wasm.validate_append, turns_addToGlobal (index_lt _)]
    simp [Frame.cut, Frame.opened]
  unfold stringOn
  refine accepts_bind (accepts_scalarSize destination _) fun size _ => ?_
  by_cases hrepeats : i.prefixes.intersects (.union .rep .repne) = true
  · simp only [hrepeats, if_true]
    have hstart :
        validate (context more) (stringStep (UInt32.ofNat size.bytes) ++ repeatHead ++ [getSlot .edi]) (f :: outer) =
          some ((Frame.opened .loop).push .i32 :: .opened .block :: f :: outer) := by
      rw [Wasm.validate_append, Wasm.validate_append, turns_stringStep, Option.bind_some, hhead,
        Option.bind_some, hedi]
    have hend :
        validate (context more) (moved ++ advance .edi ++ repeatTail)
          (.opened .loop :: .opened .block :: f :: outer) =
          some (f :: outer) := by
      rw [Wasm.validate_append, (hmoved _).append (turns_advance _), Option.bind_some, htail]
    refine accepts_bind (accepts_emit_of_validate hstart) fun _ _ => accepts_bind (helement size _ _) fun _ _ => ?_
    exact accepts_bind (accepts_store size) fun _ _ => accepts_emit_of_validate hend
  · simp only [hrepeats]
    refine accepts_bind (accepts_emit (((turns_stringStep _).append turns_nil).append (hedi f))) fun _ _ => ?_
    refine accepts_bind (helement size _ _) fun _ _ => accepts_bind (accepts_store size) fun _ _ => ?_
    exact accepts_emit (((hmoved f).append (turns_advance _)).append turns_nil)

private theorem accepts_moveString (i : Instruction) : Accepts more (moveString i) (f :: outer) (f :: outer) := by
  unfold moveString
  split
  · refine accepts_stringOn _ (fun size f outer => ?_) fun f => turns_advance _
    have hesi : Turns more [getSlot .esi] f (f.push .i32) := fun outer => by simp
    exact accepts_bind (accepts_emit hesi) fun _ _ => accepts_load size
  · exact accepts_unsupported

private theorem accepts_fillString (h : ∀ op ∈ i.operands, Named more op) :
    Accepts more (fillString i) (f :: outer) (f :: outer) := by
  unfold fillString
  split
  · rename_i destination source heq
    rw [heq] at h
    exact accepts_stringOn _ (fun _ _ _ => accepts_loadOperand (h source (by simp))) fun _ => turns_nil
  · exact accepts_unsupported

/-- The computation of an instruction leaves the operand stack as it was. -/
theorem accepts_computation {x : Lowering Unit} (h : ∀ op ∈ i.operands, Named more op)
    (hx : computation? i = some x) :
    Accepts more x (f :: outer) (f :: outer) := by
  unfold computation? at hx
  split at hx <;> cases hx
  · exact accepts_binary _ h
  · exact accepts_unary _ h
  · exact accepts_shift _ h
  · exact accepts_multiply _ h
  · exact accepts_divide _ h
  · exact accepts_widen _ h
  · exact accepts_loadAddress h
  · exact accepts_exchange h
  · exact accepts_compareExchange h
  · exact accepts_push h
  · exact accepts_pop h
  · exact accepts_withoutOperands accepts_pushRegisters
  · exact accepts_withoutOperands accepts_popRegisters
  · exact accepts_withoutOperands accepts_pushFlags
  · exact accepts_withoutOperands accepts_popFlags
  · exact accepts_withoutOperands accepts_leaveFrame
  · exact accepts_extendAccumulator i
  · exact accepts_emit (turns_setFlag fun outer => by simp)
  · exact accepts_emit (turns_setFlag fun outer => by simp)
  · exact accepts_moveString i
  · exact accepts_fillString h
  · exact accepts_storeCondition h
  · exact accepts_emit (turns_clearRegisters _)
  · exact accepts_emit (turns_clearRegisters _)
  · exact accepts_pure _ _
  · exact accepts_pure _ _

/-! ### Transfers of control -/

private theorem accepts_prologue (h : ∀ op ∈ i.operands, Named more op) :
    Accepts more (prologue i) (f :: outer) (f :: outer) := by
  have hset : Turns more [setSlot .t1] (f.push .i32) f := fun outer => by simp
  unfold prologue
  split
  · exact accepts_pushConstant _
  · exact accepts_pushConstant _
  · split
    · rename_i target heq
      rw [heq] at h
      exact accepts_bind (accepts_loadOperand (h target (by simp))) fun _ _ => accepts_emit hset
    · exact accepts_unsupported
  · split
    · rename_i target heq
      rw [heq] at h
      refine accepts_bind (accepts_loadOperand (h target (by simp))) fun _ _ => ?_
      exact accepts_bind (accepts_emit hset) fun _ _ => accepts_pushConstant _
    · exact accepts_unsupported
  · split
    · exact accepts_emit (turns_moveStackPointer _)
    · exact accepts_bind (accepts_require _ _) fun _ _ => accepts_emit (turns_moveStackPointer _)
    · exact accepts_unsupported
  · exact accepts_pure _ _

private theorem accepts_resolved (i : Instruction) (frames : List Frame) :
    Accepts more (resolved i) frames frames := by
  unfold resolved
  split
  · exact accepts_pure _ frames
  · exact fun _ h => by cases h

private theorem turns_callChunk (chunk index : UInt32) : Turns more (callChunk chunk index) f f := by
  intro outer
  simp [callChunk, callImport]

private theorem validate_jumpTo {toLoop : Nat} (hloop : toLoop ≤ outer.length) (destination : Destination) :
    validate (context more) (jumpTo toLoop destination) (f :: outer) = some (f.cut :: outer) := by
  cases destination with
  | inside index => simp [jumpTo, hloop]
  | across chunk index =>
    rw [jumpTo, Wasm.validate_append, turns_callChunk]
    rfl

private theorem accepts_guarded {code : Code} {f' : Frame}
    (hcode : validate (context more) code (.opened .block :: f :: outer) = some (f' :: f :: outer))
    (hstack : f'.stack = []) :
    Accepts more (guarded i code) (f :: outer) (f :: outer) := by
  have hopen : validate (context more) [.block] (f :: outer) = some (.opened .block :: f :: outer) := by simp
  have htest : validate (context more) [.op .i32Eqz, .brIf 0] ((Frame.opened .block).push .i32 :: f :: outer) =
      some (.opened .block :: f :: outer) := by simp
  have hclose : validate (context more) [.close] (f' :: f :: outer) = some (f :: outer) := by simp [hstack]
  refine accepts_bind (accepts_emit_of_validate hopen) fun _ _ => accepts_bind (accepts_testCondition i) fun _ _ => ?_
  refine accepts_emit_of_validate ?_
  rw [Wasm.validate_append, Wasm.validate_append, htest, Option.bind_some, hcode, Option.bind_some, hclose]

private theorem accepts_importedCall (i : Instruction) : Accepts more (importedCall i) (f :: outer) (f :: outer) := by
  unfold importedCall
  split
  · exact accepts_bind (accepts_require _ _) fun _ _ => accepts_emit fun outer => by simp [callImport]
  · exact accepts_unsupported

private theorem accepts_interrupt (h : ∀ op ∈ i.operands, Named more op) :
    Accepts more (interrupt i) (f :: outer) (f :: outer) := by
  unfold interrupt
  split
  · rename_i vector heq
    rw [heq] at h
    refine accepts_bind (accepts_loadOperand (h vector (by simp))) fun _ _ => ?_
    exact accepts_emit fun outer => by simp [callHook]
  · exact accepts_unsupported

/-- The body of an instruction, which control may or may not pass. -/
theorem accepts_body (chunk : UInt32) {toLoop : Nat} (h : ∀ op ∈ i.operands, Named more op)
    (hloop : toLoop ≤ outer.length) :
    Accepts more (body chunk toLoop i) (f :: outer) (f :: outer) ∨
      Accepts more (body chunk toLoop i) (f :: outer) (f.cut :: outer) := by
  have hret : validate (context more) [.ret] (f :: outer) = some (f.cut :: outer) := rfl
  have hinto : Turns more [.i32Const 4, setSlot .t1, callHook .interrupt] (.opened .block) (.opened .block) :=
    fun outer => by simp [callHook]
  unfold body
  split
  · right
    exact accepts_bind (accepts_resolved i _) fun _ _ => accepts_emit_of_validate (validate_jumpTo hloop _)
  · left
    refine accepts_bind (accepts_resolved i _) fun destination _ => ?_
    cases destination <;> exact accepts_emit (turns_callChunk _ _)
  · left
    refine accepts_bind (accepts_resolved i _) fun destination _ => ?_
    exact accepts_guarded (validate_jumpTo (Nat.succ_le_succ hloop) destination) rfl
  · left
    refine accepts_bind (accepts_resolved i _) fun destination _ => ?_
    exact accepts_guarded (validate_jumpTo (Nat.succ_le_succ hloop) destination) rfl
  · exact .inl (accepts_importedCall i)
  · exact .inr (accepts_bind (accepts_importedCall i) fun _ _ => accepts_emit_of_validate hret)
  · exact .inl (accepts_emit fun outer => by simp [callHook])
  · exact .inr (accepts_emit_of_validate (by simp [callHook]))
  · exact .inr (accepts_emit_of_validate hret)
  · exact .inl (accepts_interrupt h)
  · exact .inl (accepts_guarded (hinto _) rfl)
  · exact .inl (accepts_pure _ _)
  · exact .inl (accepts_move h)
  · left
    cases hx : computation? i with
    | none => exact accepts_unsupported
    | some x => exact accepts_computation h hx

/-- All the code of an instruction leaves the operand stack empty. -/
theorem accepts_instruction (chunk : UInt32) {toLoop : Nat} (h : ∀ op ∈ i.operands, Named more op)
    (hloop : toLoop ≤ outer.length) (hstack : f.stack = []) :
    ∃ f' : Frame, f'.stack = [] ∧ Accepts more (instruction chunk toLoop i) (f :: outer) (f' :: outer) := by
  have hall : ∀ f', Accepts more (body chunk toLoop i) (f :: outer) (f' :: outer) →
      Accepts more (instruction chunk toLoop i) (f :: outer) (f' :: outer) := fun f' hbody =>
    accepts_bind (accepts_prologue h) fun _ _ => accepts_bind hbody fun _ _ => accepts_updateFlags i
  rcases accepts_body chunk h hloop with hbody | hbody
  · exact ⟨f, hstack, hall f hbody⟩
  · exact ⟨f.cut, rfl, hall f.cut hbody⟩

end Ia32Wasm.Lowering
