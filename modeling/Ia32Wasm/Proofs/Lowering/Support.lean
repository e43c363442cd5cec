import Ia32Wasm.Proofs.Lowering.Emission
import Ia32Wasm.Proofs.X86.Forms
import Ia32Wasm.Proofs.X86.Targets

/-!
# Which instructions are lowered

An instruction that is no branch and has one of the forms of its operation is lowered without an obstacle, unless it
is a gap: it takes the address of a register, or it moves from or to a segment register that there is not.  There are
eight numbers for six segment registers, and an address is the only use of a place that a register is not good for.

* Places can be read and written, constants can be read (`outcome_loadOperand`, `outcome_storeOperand`); there is one
  lemma for each lowering and form.
* `outcome_of_formed` puts them together.
* Branches are lowered once they have a destination, an imported function or a target to be found at run time
  (`outcome_of_destination?`, `outcome_of_importCall`, `outcome_of_dynamic`).
-/

namespace Ia32Wasm.X86

/-- The operand is a register itself, not memory. -/
def Operand.isRegister : Operand → Bool
  | .register _ _ false _ => true
  | _ => false

/-- The operand has the number of a segment register that there is not. -/
def Operand.isMissingSegment : Operand → Bool
  | .segment index _ _ _ => index == 6 || index == 7
  | _ => false

/-- The instruction takes the address of a register, or moves from or to a segment register that there is not. -/
def Instruction.isGap (i : Instruction) : Bool :=
  match i.mnemonic, i.operands with
  | .lea, [_, source] => source.isRegister
  | .mov, operands => operands.any Operand.isMissingSegment
  | _, _ => false

/-- There are no gaps but moves and addresses. -/
theorem Instruction.isGap_of_ne {i : Instruction} (hlea : i.mnemonic ≠ .lea) (hmov : i.mnemonic ≠ .mov) :
    i.isGap = false := by
  unfold isGap
  split
  · exact absurd ‹_› hlea
  · exact absurd ‹_› hmov
  · rfl

end Ia32Wasm.X86

namespace Ia32Wasm.Lowering

open Machine (Flag Slot)
open X86 (BinaryOp Instruction Kind Mnemonic Operand OperandSize ShiftOp UnaryOp)

variable {α β : Type} {i : Instruction} {op destination lhs rhs source : Operand} {size : OperandSize}

/-- A sequence has an outcome if its parts have one. -/
theorem outcome_bind {x : Lowering α} {g : α → Lowering β} {a : α} {b : β} (hx : x.outcome = .ok a)
    (hg : (g a).outcome = .ok b) : (x >>= g).outcome = .ok b :=
  (bind_outcome_of_ok hx).trans hg

/-! ### Operands -/

private theorem outcome_load (h : size ≠ .bits128) : (load size).outcome = .ok () := by
  cases size with
  | bits128 => exact absurd rfl h
  | _ => rfl

private theorem outcome_store (h : size ≠ .bits128) : (store size).outcome = .ok () := by
  cases size with
  | bits128 => exact absurd rfl h
  | _ => rfl

private theorem outcome_segmentGlobal {index : UInt8} (h : index.toNat < 6) :
    (segmentGlobal index).outcome = .ok (Slot.segment ⟨index.toNat, h⟩).index := by
  unfold segmentGlobal
  rw [dif_pos h]
  rfl

private theorem outcome_scalarSize (h : op.size? = some size) (hsize : size ≠ .bits128) :
    (scalarSize op).outcome = .ok size := by
  unfold scalarSize
  rw [h]
  cases size with
  | bits128 => exact absurd rfl hsize
  | _ => rfl

/-- A place is a register, or memory with an address. -/
theorem isPlace_cases (h : op.IsPlace) :
    ∃ size, size ≠ .bits128 ∧ op.size? = some size ∧
      ((∃ index displacement, op = .register index size false displacement) ∨
        op.isRegister = false ∧ (addressOf op).outcome = .ok () ∧ loadOperand op = loadFrom op size ∧
          storeOperand op = storeTo op size) := by
  cases op with
  | register index size indirect displacement =>
    cases indirect with
    | false => exact ⟨size, h, rfl, .inl ⟨index, displacement, rfl⟩⟩
    | true => exact ⟨size, h, rfl, .inr ⟨rfl, rfl, by cases size <;> rfl, by cases size <;> rfl⟩⟩
  | immediate _ size indirect _ =>
    cases indirect with
    | false => cases h
    | true => exact ⟨size, h, rfl, .inr ⟨rfl, rfl, rfl, rfl⟩⟩
  | scaledIndex _ _ _ _ size indirect =>
    cases indirect with
    | false => cases h
    | true => exact ⟨size, h, rfl, .inr ⟨rfl, rfl, rfl, rfl⟩⟩
  | segment index size indirect _ =>
    cases indirect with
    | false => cases h
    | true => exact ⟨size, h.1, rfl, .inr ⟨rfl, outcome_bind (outcome_segmentGlobal h.2) rfl, rfl, rfl⟩⟩
  | offset _ size => exact ⟨size, h, rfl, .inr ⟨rfl, rfl, rfl, rfl⟩⟩
  | symbol _ => cases h

private theorem exists_scalarSize (h : op.IsValue) :
    ∃ size, (scalarSize op).outcome = .ok size ∧ size ≠ .bits128 := by
  rcases h with hplace | ⟨value, size, rfl, hsize⟩
  · obtain ⟨size, hsize, hsome, -⟩ := isPlace_cases hplace
    exact ⟨size, outcome_scalarSize hsome hsize, hsize⟩
  · exact ⟨size, outcome_scalarSize rfl hsize, hsize⟩

/-- Every value can be loaded. -/
theorem outcome_loadOperand (h : op.IsValue) : (loadOperand op).outcome = .ok () := by
  rcases h with hplace | ⟨value, size, rfl, -⟩
  · obtain ⟨size, hsize, -, ⟨index, displacement, rfl⟩ | ⟨-, haddress, hload, -⟩⟩ := isPlace_cases hplace
    · cases size with
      | bits128 => exact absurd rfl hsize
      | _ => rfl
    · rw [hload]
      exact outcome_bind haddress (outcome_load hsize)
  · rfl

/-- Every place can be stored to. -/
theorem outcome_storeOperand (h : op.IsPlace) : (storeOperand op).outcome = .ok () := by
  obtain ⟨size, hsize, -, ⟨index, displacement, rfl⟩ | ⟨-, haddress, -, hstore⟩⟩ := isPlace_cases h
  · cases size with
    | bits128 => exact absurd rfl hsize
    | _ => rfl
  · rw [hstore]
    exact outcome_bind rfl (outcome_bind haddress (outcome_bind rfl (outcome_store hsize)))

private theorem outcome_storeRegister (index : UInt8) (h : size ≠ .bits128) :
    (storeRegister index size).outcome = .ok () :=
  outcome_storeOperand (X86.Operand.isPlace_reg index h)

private theorem outcome_stage (hlhs : lhs.IsValue) (hrhs : rhs.IsValue) : (stage lhs rhs).outcome = .ok () :=
  outcome_bind (outcome_loadOperand hlhs) (outcome_bind rfl (outcome_bind (outcome_loadOperand hrhs) rfl))

/-! ### Arithmetic -/

private theorem outcome_finishResult (h : destination.IsPlace) (size : OperandSize) :
    (finishResult (some destination) size).outcome = .ok () :=
  outcome_bind rfl (outcome_bind rfl (outcome_storeOperand h))

private theorem outcome_binaryOn (o : BinaryOp) {destination : Option Operand}
    (hdestination : ∀ op, destination = some op → op.IsPlace) (hlhs : lhs.IsPlace) (hrhs : rhs.IsValue) :
    (binaryOn o destination lhs rhs).outcome = .ok () := by
  obtain ⟨size, hsize, -⟩ := exists_scalarSize hlhs.isValue
  refine outcome_bind hsize (outcome_bind (outcome_stage hlhs.isValue hrhs) (outcome_bind rfl ?_))
  split
  · cases destination with
    | none => rfl
    | some op => exact outcome_finishResult (hdestination op rfl) size
  · rfl

private theorem outcome_binary (o : BinaryOp) (h : List.Forall₂ Kind.Is [.place, .place, .value] i.operands ∨
    List.Forall₂ Kind.Is [.place, .value] i.operands) : (binary o i).outcome = .ok () := by
  unfold binary
  rcases h with h | h
  · obtain ⟨destination, lhs, rhs, hops, hdestination, hlhs, hrhs⟩ := Kind.eq_three h
    rw [hops]
    exact outcome_binaryOn o (by rintro _ ⟨⟩; exact hdestination) hlhs hrhs
  · obtain ⟨lhs, rhs, hops, hlhs, hrhs⟩ := Kind.eq_two h
    rw [hops]
    exact outcome_binaryOn o (by simp) hlhs hrhs

private theorem outcome_unary (o : UnaryOp) (h : List.Forall₂ Kind.Is [.place] i.operands) :
    (unary o i).outcome = .ok () := by
  obtain ⟨op, hops, hop⟩ := Kind.eq_one h
  obtain ⟨size, hsize, -⟩ := exists_scalarSize hop.isValue
  have hload : (loadOperand op).outcome = .ok () := outcome_loadOperand hop.isValue
  have hresult : ∀ numeric, (unaryResult numeric op size).outcome = .ok () := fun numeric =>
    outcome_bind rfl (outcome_finishResult hop size)
  unfold unary
  rw [hops]
  refine outcome_bind hsize ?_
  cases o with
  | inc => exact outcome_bind hload (outcome_bind rfl (hresult _))
  | dec => exact outcome_bind hload (outcome_bind rfl (hresult _))
  | neg => exact outcome_bind rfl (outcome_bind hload (outcome_bind rfl (hresult _)))
  | not => exact outcome_bind hload (outcome_bind rfl (outcome_storeOperand hop))

private theorem outcome_shift (o : ShiftOp) (h : List.Forall₂ Kind.Is [.place, .place, .value] i.operands) :
    (shift o i).outcome = .ok () := by
  obtain ⟨destination, lhs, rhs, hops, hdestination, hlhs, hrhs⟩ := Kind.eq_three h
  obtain ⟨size, hsize, -⟩ := exists_scalarSize hlhs.isValue
  unfold shift
  rw [hops]
  refine outcome_bind hsize (outcome_bind (outcome_loadOperand hlhs.isValue) (outcome_bind rfl ?_))
  refine outcome_bind (outcome_loadOperand hrhs) (outcome_bind rfl ?_)
  exact outcome_finishResult hdestination size

private theorem outcome_multiplyInto (h : List.Forall₂ Kind.Is [.place, .value, .value] i.operands) :
    (multiply true i).outcome = .ok () := by
  obtain ⟨destination, lhs, rhs, hops, hdestination, hlhs, hrhs⟩ := Kind.eq_three h
  obtain ⟨size, hsize, -⟩ := exists_scalarSize hdestination.isValue
  unfold multiply
  rw [hops]
  refine outcome_bind hsize (outcome_bind (outcome_stage hlhs hrhs) (outcome_bind rfl ?_))
  exact outcome_finishResult hdestination size

private theorem outcome_multiplyAccumulator (signed : Bool) (h : List.Forall₂ Kind.Is [.place] i.operands) :
    (multiply signed i).outcome = .ok () := by
  obtain ⟨source, hops, hsource⟩ := Kind.eq_one h
  obtain ⟨size, hsize, hscalar⟩ := exists_scalarSize hsource.isValue
  have hstage := outcome_stage (X86.Operand.isPlace_reg 0 hscalar).isValue hsource.isValue
  unfold multiply
  rw [hops]
  refine outcome_bind hsize (outcome_bind hstage (outcome_bind rfl ?_))
  split
  · exact outcome_bind rfl (outcome_storeRegister 0 (by simp))
  · refine outcome_bind rfl (outcome_bind (outcome_storeRegister 0 hscalar) (outcome_bind rfl ?_))
    exact outcome_storeRegister 2 hscalar

private theorem outcome_dividend (signed : Bool) (h : size ≠ .bits128) : (dividend size signed).outcome = .ok () := by
  cases size with
  | bits128 => exact absurd rfl h
  | _ => rfl

private theorem outcome_divide (signed : Bool) (h : List.Forall₂ Kind.Is [.place] i.operands) :
    (divide signed i).outcome = .ok () := by
  obtain ⟨divisor, hops, hdivisor⟩ := Kind.eq_one h
  obtain ⟨size, hsize, hscalar⟩ := exists_scalarSize hdivisor.isValue
  have hinto : ∀ numeric register, (divideInto numeric size signed register).outcome = .ok () :=
    fun numeric register => outcome_bind rfl (outcome_storeRegister register hscalar)
  unfold divide
  rw [hops]
  refine outcome_bind hsize (outcome_bind (outcome_loadOperand hdivisor.isValue) (outcome_bind rfl ?_))
  exact outcome_bind (outcome_dividend signed hscalar) (outcome_bind rfl (outcome_bind (hinto _ _) (hinto _ _)))

/-! ### Moves -/

private theorem outcome_widen (signed : Bool) (h : List.Forall₂ Kind.Is [.place, .place] i.operands) :
    (widen signed i).outcome = .ok () := by
  obtain ⟨destination, source, hops, hdestination, hsource⟩ := Kind.eq_two h
  obtain ⟨size, hsize, -⟩ := exists_scalarSize hsource.isValue
  obtain ⟨size', hsize', -⟩ := exists_scalarSize hdestination.isValue
  unfold widen
  rw [hops]
  refine outcome_bind hsize (outcome_bind (outcome_loadOperand hsource.isValue) ?_)
  cases signed with
  | false => exact outcome_storeOperand hdestination
  | true => exact outcome_bind rfl (outcome_bind hsize' (outcome_bind rfl (outcome_storeOperand hdestination)))

private theorem outcome_exchange (h : List.Forall₂ Kind.Is [.place, .place] i.operands) :
    (exchange i).outcome = .ok () := by
  obtain ⟨first, second, hops, hfirst, hsecond⟩ := Kind.eq_two h
  unfold exchange
  rw [hops]
  refine outcome_bind (outcome_stage hfirst.isValue hsecond.isValue) (outcome_bind rfl ?_)
  exact outcome_bind (outcome_storeOperand hfirst) (outcome_bind rfl (outcome_storeOperand hsecond))

private theorem outcome_compareExchange (h : List.Forall₂ Kind.Is [.place, .place] i.operands) :
    (compareExchange i).outcome = .ok () := by
  obtain ⟨destination, source, hops, hdestination, hsource⟩ := Kind.eq_two h
  obtain ⟨size, hsize, hscalar⟩ := exists_scalarSize hdestination.isValue
  have hstage := outcome_stage (X86.Operand.isPlace_reg 0 hscalar).isValue hdestination.isValue
  unfold compareExchange
  rw [hops]
  refine outcome_bind hsize (outcome_bind hstage (outcome_bind rfl ?_))
  refine outcome_bind (outcome_bind rfl rfl) (outcome_bind rfl ?_)
  refine outcome_bind (outcome_loadOperand hsource.isValue) (outcome_bind (outcome_storeOperand hdestination) ?_)
  exact outcome_bind rfl (outcome_bind (outcome_storeRegister 0 hscalar) rfl)

private theorem outcome_stringOn {element : OperandSize → Lowering Unit} (moved : Code)
    (hdestination : destination.IsPlace) (helement : ∀ size, size ≠ .bits128 → (element size).outcome = .ok ()) :
    (stringOn i destination element moved).outcome = .ok () := by
  obtain ⟨size, hsize, hscalar⟩ := exists_scalarSize hdestination.isValue
  refine outcome_bind hsize (outcome_bind rfl (outcome_bind (helement size hscalar) ?_))
  exact outcome_bind (outcome_store hscalar) rfl

private theorem outcome_moveString (h : List.Forall₂ Kind.Is [.place, .place] i.operands) :
    (moveString i).outcome = .ok () := by
  obtain ⟨destination, source, hops, hdestination, -⟩ := Kind.eq_two h
  unfold moveString
  rw [hops]
  exact outcome_stringOn _ hdestination fun size hsize => outcome_bind rfl (outcome_load hsize)

private theorem outcome_fillString (h : List.Forall₂ Kind.Is [.place, .value] i.operands) :
    (fillString i).outcome = .ok () := by
  obtain ⟨destination, source, hops, hdestination, hsource⟩ := Kind.eq_two h
  unfold fillString
  rw [hops]
  exact outcome_stringOn _ hdestination fun _ _ => outcome_loadOperand hsource

private theorem outcome_storeCondition {c : X86.Condition} (hm : i.mnemonic = .set c)
    (h : List.Forall₂ Kind.Is [.place] i.operands) : (storeCondition i).outcome = .ok () := by
  obtain ⟨destination, hops, hdestination⟩ := Kind.eq_one h
  have htest : (testCondition i).outcome = .ok () := by
    unfold testCondition
    rw [hm]
    rfl
  unfold storeCondition
  rw [hops]
  exact outcome_bind htest (outcome_storeOperand hdestination)

/-! ### The stack -/

private theorem outcome_push (h : List.Forall₂ Kind.Is [.value] i.operands) : (push i).outcome = .ok () := by
  obtain ⟨source, hops, hsource⟩ := Kind.eq_one h
  obtain ⟨size, hsize, hscalar⟩ := exists_scalarSize hsource
  unfold push
  rw [hops]
  refine outcome_bind hsize (outcome_bind (outcome_loadOperand hsource) ?_)
  exact outcome_bind rfl (outcome_store hscalar)

private theorem outcome_pop (h : List.Forall₂ Kind.Is [.place] i.operands) : (pop i).outcome = .ok () := by
  obtain ⟨destination, hops, hdestination⟩ := Kind.eq_one h
  obtain ⟨size, hsize, hscalar⟩ := exists_scalarSize hdestination.isValue
  have hpop : (popValue size).outcome = .ok () := outcome_bind rfl (outcome_bind (outcome_load hscalar) rfl)
  unfold pop
  rw [hops]
  exact outcome_bind hsize (outcome_bind hpop (outcome_storeOperand hdestination))

private theorem outcome_withoutOperands {x : Lowering Unit} (hx : x.outcome = .ok ())
    (h : List.Forall₂ Kind.Is [] i.operands) :
    (withoutOperands i x).outcome = .ok () := by
  unfold withoutOperands
  rw [Kind.eq_nil h]
  exact hx

/-! ### Gaps -/

/-- An address is taken of memory and of nothing else. -/
private theorem outcome_loadAddress (hm : i.mnemonic = .lea) (h : List.Forall₂ Kind.Is [.place, .place] i.operands) :
    (loadAddress i).outcome = if i.isGap then .error .unsupported else .ok () := by
  obtain ⟨destination, source, hops, hdestination, hsource⟩ := Kind.eq_two h
  have hgap : i.isGap = source.isRegister := by simp only [Instruction.isGap, hm, hops]
  unfold loadAddress
  rw [hops, hgap]
  obtain ⟨size, hsize, -⟩ := exists_scalarSize hdestination.isValue
  obtain ⟨_, -, -, ⟨index, displacement, rfl⟩ | ⟨hmemory, haddress, -⟩⟩ := isPlace_cases hsource
  · rfl
  · rw [hmemory]
    exact outcome_bind haddress (outcome_bind hsize (outcome_bind rfl (outcome_storeOperand hdestination)))

private theorem isMissingSegment_segment {index : UInt8} (h : index.toNat < 8) (size : OperandSize) (indirect : Bool)
    (displacement : Option Int32) :
    (Operand.segment index size indirect displacement).isMissingSegment = decide (6 ≤ index.toNat) := by
  rw [Bool.eq_iff_iff, decide_eq_true_iff]
  simp only [Operand.isMissingSegment, Bool.or_eq_true, beq_iff_eq, ← UInt8.toNat_inj, UInt8.reduceToNat]
  omega

private theorem isMissingSegment_of_isValue (h : op.IsValue) : op.isMissingSegment = false := by
  rcases h with hplace | ⟨value, size, rfl, -⟩
  · cases op with
    | segment index size indirect displacement =>
      cases indirect with
      | false => cases hplace
      | true =>
        have hlt : index.toNat < 6 := hplace.2
        rw [isMissingSegment_segment (by omega)]
        exact decide_eq_false (by omega)
    | _ => rfl
  · rfl

/-- A use of a segment register goes through if the register is there. -/
private theorem outcome_bind_segmentGlobal {index : UInt8} (h : index.toNat < 8) {g : Nat → Lowering Unit}
    (hg : ∀ global, (g global).outcome = .ok ()) :
    (segmentGlobal index >>= g).outcome =
      if (Operand.segment index .bits16 false none).isMissingSegment then .error .unsupported else .ok () := by
  rw [isMissingSegment_segment h]
  by_cases hlt : index.toNat < 6
  · rw [decide_eq_false (by omega), outcome_bind (outcome_segmentGlobal hlt) (hg _)]
    rfl
  · have hmissing : (segmentGlobal index).outcome = .error .unsupported := by
      unfold segmentGlobal
      rw [dif_neg hlt]
      rfl
    rw [decide_eq_true (by omega), bind_outcome_of_error hmissing]
    rfl

/-- A move goes through if it names no segment register that is missing. -/
private theorem outcome_move (hm : i.mnemonic = .mov) (h : List.Forall₂ Kind.Is [.place, .value] i.operands ∨
    List.Forall₂ Kind.Is [.segment, .place] i.operands ∨ List.Forall₂ Kind.Is [.place, .segment] i.operands) :
    (move i).outcome = if i.isGap then .error .unsupported else .ok () := by
  have hgap : i.isGap = i.operands.any Operand.isMissingSegment := by simp only [Instruction.isGap, hm]
  unfold move
  rw [hgap]
  rcases h with h | h | h
  · obtain ⟨destination, source, hops, hdestination, hsource⟩ := Kind.eq_two h
    have hnone : [destination, source].any Operand.isMissingSegment = false := by
      simp [isMissingSegment_of_isValue hdestination.isValue, isMissingSegment_of_isValue hsource]
    rw [hops, hnone]
    exact outcome_bind (outcome_loadOperand hsource) (outcome_storeOperand hdestination)
  · obtain ⟨_, source, hops, ⟨index, rfl, hindex⟩, hsource⟩ := Kind.eq_two h
    rw [hops, List.any_cons, List.any_cons, isMissingSegment_of_isValue hsource.isValue, List.any_nil, Bool.or_false,
      Bool.or_false]
    exact (bind_outcome_of_ok (outcome_loadOperand hsource.isValue)).trans
      (outcome_bind_segmentGlobal hindex fun _ => rfl)
  · obtain ⟨destination, _, hops, hdestination, index, rfl, hindex⟩ := Kind.eq_two h
    rw [hops, List.any_cons, List.any_cons, isMissingSegment_of_isValue hdestination.isValue, List.any_nil,
      Bool.or_false, Bool.false_or]
    have hassoc := bind_assoc (segmentGlobal index) (fun global => emit [.globalGet global])
      fun _ => storeOperand destination
    exact (congrArg Lowering.outcome hassoc).trans
      (outcome_bind_segmentGlobal hindex fun _ => outcome_bind rfl (outcome_storeOperand hdestination))

/-! ### Instructions -/

variable {form : List Kind}

/-- The first operand of an operation that changes the flags is a place, whose width is that of the change. -/
private theorem outcome_updateFlags (hform : form ∈ i.mnemonic.forms)
    (hkinds : List.Forall₂ Kind.Is form i.operands) :
    (updateFlags i).outcome = .ok () := by
  unfold updateFlags
  cases hflags : flagsOf? i.mnemonic with
  | none => rfl
  | some flags =>
    obtain ⟨rest, rfl⟩ : ∃ rest, form = .place :: rest := by
      generalize i.mnemonic = m at hflags hform
      cases m with
      | binary o => rcases List.mem_pair.1 hform with rfl | rfl <;> exact ⟨_, rfl⟩
      | unary o => exact ⟨_, List.mem_singleton.1 hform⟩
      | shift o => exact ⟨_, List.mem_singleton.1 hform⟩
      | cmpxchg => exact ⟨_, List.mem_singleton.1 hform⟩
      | multiply signed =>
        cases signed with
        | false => exact ⟨_, List.mem_singleton.1 hform⟩
        | true => rcases List.mem_pair.1 hform with rfl | rfl <;> exact ⟨_, rfl⟩
      | _ => cases hflags
    obtain ⟨first, ops, hfirst, -, hops⟩ := List.forall₂_cons_left_iff.1 hkinds
    obtain ⟨size, hsize, -⟩ := exists_scalarSize hfirst.isValue
    rw [hops]
    exact outcome_bind rfl (outcome_bind hsize rfl)

private theorem outcome_prologue (hform : form ∈ i.mnemonic.forms) (hkinds : List.Forall₂ Kind.Is form i.operands)
    (hbranch : i.mnemonic.isBranch = false) : (prologue i).outcome = .ok () := by
  unfold prologue
  generalize i.mnemonic = m at hform hbranch
  cases m with
  | call => cases hbranch
  | importCall | dynamicCall | dynamicJump => cases hform
  | ret =>
    rcases List.mem_pair.1 hform with rfl | rfl
    · rw [Kind.eq_nil hkinds]
      rfl
    · obtain ⟨_, hops, value, size, rfl, -⟩ := Kind.eq_one hkinds
      rw [hops]
      rfl
  | _ => rfl

private theorem outcome_interrupt (h : List.Forall₂ Kind.Is [.constant] i.operands) :
    (interrupt i).outcome = .ok () := by
  obtain ⟨vector, hops, hvector⟩ := Kind.eq_one h
  unfold interrupt
  rw [hops]
  exact outcome_bind (outcome_loadOperand (.inr hvector)) rfl

/-- All operations but two go through in each of their forms. -/
private theorem outcome_body_of_ne (chunk : UInt32) (toLoop : Nat) (hform : form ∈ i.mnemonic.forms)
    (hkinds : List.Forall₂ Kind.Is form i.operands) (hbranch : i.mnemonic.isBranch = false)
    (hlea : i.mnemonic ≠ .lea) (hmov : i.mnemonic ≠ .mov) : (body chunk toLoop i).outcome = .ok () := by
  obtain ⟨m, hm⟩ : ∃ m, i.mnemonic = m := ⟨_, rfl⟩
  unfold body computation?
  rw [hm] at hform hbranch hlea hmov ⊢
  cases m with
  | lea => exact absurd rfl hlea
  | mov => exact absurd rfl hmov
  | jump | call | jumpIf | jecxz => cases hbranch
  | importCall | importJump | dynamicCall | dynamicJump => cases hform
  | binary o =>
    rcases List.mem_pair.1 hform with rfl | rfl
    · exact outcome_binary o (.inl hkinds)
    · exact outcome_binary o (.inr hkinds)
  | multiply signed =>
    cases signed with
    | false => exact outcome_multiplyAccumulator false (List.mem_singleton.1 hform ▸ hkinds)
    | true =>
      rcases List.mem_pair.1 hform with rfl | rfl
      · exact outcome_multiplyInto hkinds
      · exact outcome_multiplyAccumulator true hkinds
  | unary o => exact outcome_unary o (List.mem_singleton.1 hform ▸ hkinds)
  | shift o => exact outcome_shift o (List.mem_singleton.1 hform ▸ hkinds)
  | divide signed => exact outcome_divide signed (List.mem_singleton.1 hform ▸ hkinds)
  | widen signed => exact outcome_widen signed (List.mem_singleton.1 hform ▸ hkinds)
  | xchg => exact outcome_exchange (List.mem_singleton.1 hform ▸ hkinds)
  | cmpxchg => exact outcome_compareExchange (List.mem_singleton.1 hform ▸ hkinds)
  | push => exact outcome_push (List.mem_singleton.1 hform ▸ hkinds)
  | pop => exact outcome_pop (List.mem_singleton.1 hform ▸ hkinds)
  | movs => exact outcome_moveString (List.mem_singleton.1 hform ▸ hkinds)
  | stos => exact outcome_fillString (List.mem_singleton.1 hform ▸ hkinds)
  | set c => exact outcome_storeCondition hm (List.mem_singleton.1 hform ▸ hkinds)
  | int => exact outcome_interrupt (List.mem_singleton.1 hform ▸ hkinds)
  | pushad | popad | pushfd | popfd | leave =>
    exact outcome_withoutOperands rfl (List.mem_singleton.1 hform ▸ hkinds)
  | cdq =>
    change (extendAccumulator i).outcome = .ok ()
    unfold extendAccumulator
    split <;> rfl
  | into =>
    have htest : (testCondition i).outcome = .ok () := by
      unfold testCondition
      rw [hm]
      rfl
    exact outcome_bind rfl (outcome_bind htest rfl)
  | ret | nop | cld | std | cpuid | xgetbv | movlpd | xorps => rfl

private theorem outcome_body (chunk : UInt32) (toLoop : Nat) (hform : form ∈ i.mnemonic.forms)
    (hkinds : List.Forall₂ Kind.Is form i.operands) (hbranch : i.mnemonic.isBranch = false) :
    (body chunk toLoop i).outcome = if i.isGap then .error .unsupported else .ok () := by
  by_cases hlea : i.mnemonic = .lea
  · have hbody : body chunk toLoop i = loadAddress i := by simp only [body, computation?, hlea, Option.getD_some]
    rw [hlea] at hform
    rw [hbody]
    exact outcome_loadAddress hlea (List.mem_singleton.1 hform ▸ hkinds)
  · by_cases hmov : i.mnemonic = .mov
    · have hbody : body chunk toLoop i = move i := by simp only [body, hmov]
      rw [hmov] at hform
      rw [hbody]
      rcases List.mem_cons.1 hform with rfl | hform
      · exact outcome_move hmov (.inl hkinds)
      · rcases List.mem_pair.1 hform with rfl | rfl
        · exact outcome_move hmov (.inr (.inl hkinds))
        · exact outcome_move hmov (.inr (.inr hkinds))
    · rw [Instruction.isGap_of_ne hlea hmov]
      exact outcome_body_of_ne chunk toLoop hform hkinds hbranch hlea hmov

/-- An instruction in one of its forms is lowered unless it is a gap, and then its operands are the obstacle. -/
theorem outcome_of_formed (chunk : UInt32) (toLoop : Nat) (hformed : i.Formed)
    (hbranch : i.mnemonic.isBranch = false) :
    (instruction chunk toLoop i).outcome = if i.isGap then .error .unsupported else .ok () := by
  obtain ⟨form, hform, hkinds⟩ := hformed
  have hprologue : (prologue i).outcome = .ok () := outcome_prologue hform hkinds hbranch
  have hbody := outcome_body chunk toLoop hform hkinds hbranch
  cases hgap : i.isGap with
  | false =>
    rw [hgap] at hbody
    exact outcome_bind hprologue (outcome_bind hbody (outcome_updateFlags hform hkinds))
  | true =>
    rw [hgap] at hbody
    exact (bind_outcome_of_ok hprologue).trans (bind_outcome_of_error hbody)

/-! ### Transfers of control -/

private theorem isSome_splitSymbol?_go (read name rest : List Char) :
    (splitSymbol?.go read (name ++ ':' :: ':' :: rest)).isSome = true := by
  induction name generalizing read with
  | nil => rfl
  | cons c name ih =>
    rw [List.cons_append, splitSymbol?.go.eq_def]
    split
    · rfl
    · rename_i heq
      cases heq
      exact ih _
    · rename_i heq
      cases heq

private theorem outcome_importedCall {library name : String}
    (hops : i.operands = [.symbol (library ++ "::" ++ name)]) :
    (importedCall i).outcome = .ok () := by
  have hsplit : (splitSymbol? (library ++ "::" ++ name)).isSome = true := by
    have hchars : (library ++ "::" ++ name).toList = library.toList ++ ':' :: ':' :: name.toList := by simp
    rw [splitSymbol?, hchars]
    exact isSome_splitSymbol?_go _ _ _
  obtain ⟨parts, hparts⟩ := Option.isSome_iff_exists.1 hsplit
  have hrequire : (require (splitSymbol? (library ++ "::" ++ name))).outcome = .ok parts := by
    rw [hparts]
    rfl
  unfold importedCall
  rw [hops]
  exact outcome_bind hrequire rfl

/-- A call of an imported function by its symbol has a lowering. -/
theorem outcome_of_importCall {library name : String} (chunk : UInt32) (toLoop : Nat)
    (hm : i.mnemonic = .importCall ∨ i.mnemonic = .importJump)
    (hops : i.operands = [.symbol (library ++ "::" ++ name)]) : (instruction chunk toLoop i).outcome = .ok () := by
  have hcall : (importedCall i).outcome = .ok () := outcome_importedCall hops
  unfold instruction prologue body updateFlags
  rcases hm with hm | hm
  · simp only [hm, flagsOf?]
    exact outcome_bind rfl (outcome_bind hcall rfl)
  · simp only [hm, flagsOf?]
    exact outcome_bind rfl (outcome_bind (outcome_bind hcall rfl) rfl)

/-- A branch to a value has a lowering. -/
theorem outcome_of_dynamic {target : Operand} (chunk : UInt32) (toLoop : Nat)
    (hm : i.mnemonic = .dynamicCall ∨ i.mnemonic = .dynamicJump) (hops : i.operands = [target]) (h : target.IsValue) :
    (instruction chunk toLoop i).outcome = .ok () := by
  have hload : (loadOperand target).outcome = .ok () := outcome_loadOperand h
  unfold instruction prologue body updateFlags
  rcases hm with hm | hm
  · simp only [hm, hops, flagsOf?]
    exact outcome_bind (outcome_bind hload (outcome_bind rfl rfl)) (outcome_bind rfl rfl)
  · simp only [hm, hops, flagsOf?]
    exact outcome_bind (outcome_bind hload rfl) (outcome_bind rfl rfl)

/-- A branch with a destination has a lowering. -/
theorem outcome_of_destination? {d : X86.Destination} (chunk : UInt32) (toLoop : Nat) (h : i.destination? = some d) :
    (instruction chunk toLoop i).outcome = .ok () := by
  have hbranch : i.mnemonic.isBranch = true := Instruction.isBranch_of_destination? h
  have hresolved : (resolved i).outcome = .ok d := by
    unfold resolved
    rw [h]
    rfl
  have hguarded : ∀ code, i.mnemonic.isConditionalJump = true → (guarded i code).outcome = .ok () := by
    intro code hjump
    have htest : (testCondition i).outcome = .ok () := by
      unfold testCondition
      generalize i.mnemonic = m at hjump
      cases m with
      | jumpIf | jecxz => rfl
      | _ => cases hjump
    exact outcome_bind rfl (outcome_bind htest rfl)
  unfold instruction prologue body updateFlags
  generalize i.mnemonic = m at hbranch hguarded
  cases m with
  | jump => exact outcome_bind rfl (outcome_bind (outcome_bind hresolved rfl) rfl)
  | call => exact outcome_bind rfl (outcome_bind (outcome_bind hresolved (by cases d <;> rfl)) rfl)
  | jumpIf | jecxz => exact outcome_bind rfl (outcome_bind (outcome_bind hresolved (hguarded _ rfl)) rfl)
  | _ => cases hbranch

end Ia32Wasm.Lowering
