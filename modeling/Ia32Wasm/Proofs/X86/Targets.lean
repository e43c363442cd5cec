import Ia32Wasm.X86.Instruction

/-!
# Targets of branches

The forms in which a branch has its target exclude each other, and a resolved branch gives back the destination that
was written into it.

* `relativeTarget?_eq_some_iff` and `pointer?_of_relativeTarget?`: a relative target is one constant operand, which is
  no pointer.
* `destination?_withDestination`: a destination is read back as it was written.
-/

namespace Ia32Wasm.X86

namespace Mnemonic

variable {m : Mnemonic}

/-- Only jumps and returns end a run. -/
theorem endsRun_iff : m.endsRun = true ↔ m = .jump ∨ m = .ret := by
  cases m <;> simp [endsRun]

theorem isBranch_of_isConditionalJump (h : m.isConditionalJump = true) : m.isBranch = true := by
  cases m <;> first | rfl | cases h

/-- A branch without a dynamic form is conditional. -/
theorem isConditionalJump_of_isBranch (h : m.isBranch = true) (hdynamic : m.dynamic? = none) :
    m.isConditionalJump = true := by
  cases m <;> first | rfl | contradiction

theorem dynamic?_of_isBranch (h : m.isBranch = false) : m.dynamic? = none := by
  cases m <;> first | rfl | cases h

theorem isBranch_of_dynamic? {m' : Mnemonic} (h : m.dynamic? = some m') : m'.isBranch = false := by
  cases m <;> cases h <;> rfl

end Mnemonic

namespace Operand

@[simp] theorem constant?_imm (value : Int64) (size : OperandSize) : (imm value size).constant? = some value := rfl

@[simp] theorem pointer?_imm (value : Int64) (size : OperandSize) : (imm value size).pointer? = none := rfl

private theorem pointer?_of_constant? {op : Operand} {value : Int64} (h : op.constant? = some value) :
    op.pointer? = none := by
  unfold constant? at h
  split at h
  · rfl
  · cases h

end Operand

namespace Instruction

/-- A branch has a target if its one operand is a displacement from the next instruction. -/
theorem relativeTarget?_eq_some_iff {i : Instruction} {target : UInt32} :
    i.relativeTarget? = some target ↔ i.mnemonic.isBranch = true ∧ ∃ op displacement, i.operands = [op] ∧
      op.constant? = some displacement ∧ i.nextAddress + displacement.toUInt64.toUInt32 = target := by
  unfold relativeTarget?
  by_cases hbranch : i.mnemonic.isBranch = true
  · rw [if_pos hbranch]
    split
    · rename_i op hops
      simp [hbranch, hops, Option.map_eq_some_iff]
    · rename_i hops
      constructor
      · intro h
        cases h
      · rintro ⟨-, op, displacement, hop, -⟩
        exact absurd hop (hops op)
  · rw [if_neg hbranch]
    simp [hbranch]

theorem pointer?_of_relativeTarget? {i : Instruction} {target : UInt32} (h : i.relativeTarget? = some target) :
    i.operands.head?.bind Operand.pointer? = none := by
  obtain ⟨-, op, displacement, hops, hconstant, -⟩ := relativeTarget?_eq_some_iff.1 h
  rw [hops]
  exact Operand.pointer?_of_constant? hconstant

/-! ### Jumps of no bytes -/

@[simp] theorem isFallThrough_fallThrough (address : UInt32) : (fallThrough address).isFallThrough = true := by
  simp [isFallThrough, isEmpty, length, fallThrough]

/-- A jump of no bytes leads to the address that it stands at. -/
theorem relativeTarget?_fallThrough (address : UInt32) : (fallThrough address).relativeTarget? = some address :=
  relativeTarget?_eq_some_iff.2 ⟨rfl, _, 0, rfl, rfl, UInt32.add_zero address⟩

/-! ### Displacements -/

private theorem toUInt32_toInt64 (x : UInt32) : x.toInt32.toInt64.toUInt64.toUInt32 = x := by
  apply UInt32.toBitVec_inj.1
  have hbits : BitVec.setWidth 32 (BitVec.signExtend 64 x.toBitVec) = x.toBitVec := by
    ext k hk
    rw [BitVec.getElem_setWidth, BitVec.getLsbD_signExtend]
    simp [hk]
    omega
  simpa using hbits

/-- The target of a branch is given by its distance from the next instruction. -/
theorem relativeTarget?_distance {i : Instruction} (hbranch : i.mnemonic.isBranch = true) (target : UInt32) :
    { i with operands := [.imm (target - i.nextAddress).toInt32.toInt64 .bits32] }.relativeTarget? = some target := by
  refine relativeTarget?_eq_some_iff.2 ⟨hbranch, _, _, rfl, rfl, ?_⟩
  rw [toUInt32_toInt64, UInt32.add_comm, UInt32.sub_add_cancel]

/-! ### Destinations -/

private theorem toInt_ofNat_toNat (x : UInt32) : (Int64.ofNat x.toNat).toInt = x.toNat := by
  have := x.toNat_lt
  exact Int64.toInt_ofNat_of_lt (by omega)

private theorem index?_ofNat_toNat (x : UInt32) : index? (Int64.ofNat x.toNat) = some x := by
  have := x.toNat_lt_size
  rw [index?, toInt_ofNat_toNat, if_pos ⟨by omega, by omega⟩, Int.toNat_natCast, UInt32.ofNat_toNat]

theorem isBranch_of_destination? {i : Instruction} {d : Destination} (h : i.destination? = some d) :
    i.mnemonic.isBranch = true := by
  unfold destination? at h
  split at h
  · assumption
  · cases h

/-- A destination is read back from the operands. -/
theorem destination?_withDestination {i : Instruction} (hbranch : i.mnemonic.isBranch = true) (d : Destination) :
    (i.withDestination d).destination? = some d := by
  have hnonneg : ∀ x : UInt32, ¬ Int64.ofNat x.toNat < 0 := by
    intro x
    rw [Int64.lt_iff_toInt_lt, toInt_ofNat_toNat, Int64.toInt_zero]
    omega
  cases d with
  | inside index =>
    simp [destination?, withDestination, hbranch, destinationOperands, indexOperand, index?_ofNat_toNat]
  | across chunk index =>
    simp [destination?, withDestination, hbranch, destinationOperands, indexOperand, index?_ofNat_toNat, hnonneg]

end Instruction

end Ia32Wasm.X86
