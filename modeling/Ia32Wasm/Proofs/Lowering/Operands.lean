import Ia32Wasm.Proofs.Lowering.Support
import Ia32Wasm.Proofs.Machine.Words
import Ia32Wasm.Proofs.Wasm.Sequence
import Ia32Wasm.Proofs.X86.Widths

/-!
# The code of operands

The code of an operand computes what the operand is in a running machine.

* `Executes` says that a lowering has a result and that its code takes one machine to another; it passes through a
  sequence of lowerings (`executes_bind`).
* The code of an address pushes it (`executes_addressOf`).
* The code that reads an operand pushes its number (`executes_loadOperand`), and the code that writes one assigns it
  what is on the stack (`executes_storeOperand`).
-/

namespace Ia32Wasm

open X86 (Operand OperandSize)

/-! ### Numbers of operands -/

namespace Wasm.Memory

/-- A number of so many bytes is below the power of 256. -/
theorem read_lt (m : Memory) (address count : Nat) : m.read address count < 256 ^ count := by
  induction count generalizing address with
  | zero => exact Nat.one_pos
  | succ count ih =>
    have hbyte := (m.byte address).toNat_lt
    have hrest := ih (address + 1)
    rw [read, Nat.pow_succ]
    omega

end Wasm.Memory

private theorem Wasm.Machine.setLocal_locals {ω : Type} (m : Wasm.Machine ω) (index : Nat) :
    m.setLocal index (m.locals index) = m := by
  have hlocals : (fun i => if i = index then m.locals index else m.locals i) = m.locals := by
    funext i
    split
    · rename_i hi
      rw [hi]
    · rfl
  rw [setLocal, hlocals]

namespace X86

variable {ω : Type} {op : Operand} {size : OperandSize}

/-- Bytes and bits of a size give the same range. -/
theorem OperandSize.pow_bytes (size : OperandSize) : 256 ^ size.bytes = 2 ^ size.bits := by cases size <;> rfl

namespace Operand

theorem Readable.scalar (h : op.Readable size) : size ≠ .bits128 := by
  obtain ⟨hvalue, -, -, hsize⟩ := h
  rcases hvalue with hplace | ⟨value, size', rfl, hscalar⟩
  · obtain ⟨size', hscalar, hsize', -⟩ := Lowering.isPlace_cases hplace
    rw [hsize'] at hsize
    cases hsize
    exact hscalar
  · cases hsize
    exact hscalar

theorem bytes_eq (h : op.size? = some size) : op.bytes = size.bytes := by rw [bytes, h, Option.elim_some]

/-- An operand in memory has the number of its bytes as its value. -/
theorem value_of_isMemory {s : Wasm.Store ω} (h : op.isMemory = true) :
    op.value s = s.memory.read (op.address s).toNat op.bytes :=
  if_pos h

/-- To assign to an operand in memory is to write its bytes. -/
theorem assign_of_isMemory {s : Wasm.Store ω} (number : Nat) (h : op.isMemory = true) :
    op.assign s number = { s with memory := s.memory.write (op.address s).toNat op.bytes number } :=
  if_pos h

/-- A place that is no register is memory. -/
theorem isMemory_of_isPlace (h : op.IsPlace) (hregister : op.isRegister = false) : op.isMemory = true := by
  cases op with
  | register index size indirect displacement => cases indirect <;> first | rfl | cases hregister
  | immediate _ _ indirect _ => cases indirect <;> first | rfl | cases h
  | scaledIndex _ _ _ _ _ indirect => cases indirect <;> first | rfl | cases h
  | segment _ _ indirect _ => cases indirect <;> first | rfl | cases h
  | offset => rfl
  | symbol => cases h

/-- An operand holds a number of its width. -/
theorem Readable.value_lt (h : op.Readable size) (s : Wasm.Store ω) : op.value s < 2 ^ size.bits := by
  by_cases hmemory : op.isMemory = true
  · rw [value_of_isMemory hmemory, bytes_eq h.size?_eq, ← size.pow_bytes]
    exact Wasm.Memory.read_lt _ _ _
  · unfold value
    rw [if_neg hmemory]
    have hsize := h.size?_eq
    cases op with
    | register index size' indirect displacement =>
      cases hsize
      exact wordPart_lt _ _ _
    | immediate value size' indirect displacement =>
      cases hsize
      exact wrap_lt _ _
    | _ => exact Nat.two_pow_pos _

/-- An operand holds a number that a word holds. -/
theorem Readable.toNat_value (h : op.Readable size) (s : Wasm.Store ω) :
    (UInt32.ofNat (op.value s)).toNat = op.value s :=
  UInt32.toNat_ofNat_of_lt' (Nat.lt_of_lt_of_le (h.value_lt s)
    (Nat.pow_le_pow_right (by omega) (OperandSize.bits_le h.scalar)))

end Operand

end X86

namespace Lowering

open Machine (Slot)
open Wasm (Host Runs exec exec_append exec_cons)

variable {ω : Type} {α β : Type} {host : Host Callee ω} {m m₁ m' : Wasm.Machine ω} {op : Operand} {size : OperandSize}

/-! ### Lowerings that are executed -/

/-- The lowering has a result, and its code takes the machine from `m` to `m'`. -/
structure Executes (host : Host Callee ω) (x : Lowering α) (a : α) (m m' : Wasm.Machine ω) : Prop where
  outcome : x.outcome = .ok a
  runs : Runs host x.code m m'

theorem executes_pure (a : α) (m : Wasm.Machine ω) : Executes host (pure a) a m m := ⟨rfl, Wasm.runs_nil m⟩

/-- Code that is emitted is executed. -/
theorem executes_emit {code : Code} (h : exec code m = .ok m') : Executes host (emit code) () m m' :=
  ⟨rfl, Wasm.runs_of_exec h⟩

/-- A sequence is executed part by part. -/
theorem executes_bind {x : Lowering α} {f : α → Lowering β} {a : α} {b : β} (hx : Executes host x a m m₁)
    (hf : Executes host (f a) b m₁ m') : Executes host (x >>= f) b m m' := by
  refine ⟨outcome_bind hx.outcome hf.outcome, ?_⟩
  rw [bind_code_of_ok hx.outcome]
  exact Wasm.runs_append hx.runs hf.runs

/-- What the first part comes to, the sequence comes to. -/
theorem attains_bind_left {x : Lowering α} {P : Wasm.Config Callee ω → Prop} (h : Wasm.Attains host x.code m P)
    (f : α → Lowering β) : Wasm.Attains host (x >>= f).code m P := by
  cases houtcome : x.outcome with
  | ok a =>
    rw [bind_code_of_ok houtcome]
    exact h.append _
  | error e =>
    rw [bind_code_of_error houtcome]
    exact h

/-- What the second part comes to after the first was executed, the sequence comes to. -/
theorem attains_bind {x : Lowering α} {f : α → Lowering β} {a : α} {P : Wasm.Config Callee ω → Prop}
    (hx : Executes host x a m m₁) (hf : Wasm.Attains host (f a).code m₁ P) :
    Wasm.Attains host (x >>= f).code m P := by
  rw [bind_code_of_ok hx.outcome]
  exact Wasm.attains_append hx.runs hf

/-- A readable operand has the size that is asked for. -/
theorem executes_scalarSize (h : op.Readable size) (m : Wasm.Machine ω) :
    Executes host (scalarSize op) size m m := by
  have hscalar := h.scalar
  unfold scalarSize
  rw [h.size?_eq]
  cases size with
  | bits128 => exact absurd rfl hscalar
  | _ => exact executes_pure _ m

/-! ### Masks and shifts -/

/-- A word is cut to a size by its mask. -/
theorem exec_maskTo (size : OperandSize) (m : Wasm.Machine ω) (v : UInt32) :
    exec (maskTo size) (m.push (.i32 v)) = .ok (m.push (.i32 (v &&& size.mask))) := by
  have hfull : v &&& 0xffffffff = v := UInt32.and_neg_one
  cases size with
  | bits8 | bits16 => rfl
  | bits32 | bits128 =>
    show _ = Except.ok (m.push (.i32 (v &&& 0xffffffff)))
    rw [hfull]
    rfl

private theorem exec_shiftRight (amount : UInt32) (m : Wasm.Machine ω) (v : UInt32) :
    exec (shiftRight amount) (m.push (.i32 v)) = .ok (m.push (.i32 (v >>> amount))) := by
  unfold shiftRight
  split
  · rename_i hzero
    rw [hzero, UInt32.shiftRight_zero]
    rfl
  · rfl

private theorem exec_shiftLeft (amount : UInt32) (m : Wasm.Machine ω) (v : UInt32) :
    exec (shiftLeft amount) (m.push (.i32 v)) = .ok (m.push (.i32 (v <<< amount))) := by
  unfold shiftLeft
  split
  · rename_i hzero
    rw [hzero, UInt32.shiftLeft_zero]
    rfl
  · rfl

/-! ### Registers -/

private theorem registerGlobal_eq (index : UInt8) : registerGlobal index = (X86.wideSlot index).index := by
  show index.toNat &&& 7 = index.toNat % 8
  exact Nat.and_two_pow_sub_one_eq_mod index.toNat 3

private theorem byteGlobal_eq (index : UInt8) : byteGlobal index = (X86.registerSlot index .bits8).index := by
  have hmod : (index % 4).toNat = index.toNat % 4 := UInt8.toNat_mod index 4
  show index.toNat &&& 3 = (index % 4).toNat % 8
  rw [hmod, Nat.and_two_pow_sub_one_eq_mod index.toNat 2]
  omega

private theorem byteShift_eq (index : UInt8) : byteShift index = UInt32.ofNat (X86.registerLow index .bits8) := by
  have hle : 4 ≤ index ↔ ¬ index.toNat < 4 := by
    rw [UInt8.le_iff_toNat_le]
    exact Nat.not_lt.symm
  unfold byteShift X86.registerLow
  by_cases h : index.toNat < 4
  · rw [if_neg fun h' => hle.1 h' h, if_pos h]
    rfl
  · rw [if_pos (hle.2 h), if_neg h]
    rfl

/-- A byte register is the low or the high byte of the lower half. -/
theorem registerLow_byte (index : UInt8) : X86.registerLow index .bits8 = 0 ∨ X86.registerLow index .bits8 = 8 :=
  ite_eq_or_eq _ 0 8

private theorem wideSlot_index {index : UInt8} (h : index.toNat < 8) : (X86.wideSlot index).index = index.toNat :=
  Nat.mod_eq_of_lt h

/-- The number of a segment register is that of its slot. -/
theorem segmentGlobal_eq {index : UInt8} (h : index.toNat < 6) :
    segmentGlobal index = pure (Slot.segment ⟨index.toNat % 6, Nat.mod_lt _ (Nat.succ_pos 5)⟩).index := by
  unfold segmentGlobal
  rw [dif_pos h]
  show _ = pure (18 + index.toNat % 6)
  rw [Nat.mod_eq_of_lt h]
  rfl

theorem exec_getSlot (slot : Slot) (m : Wasm.Machine ω) :
    exec [getSlot slot] m = .ok (m.push (.i32 (m.store.get slot))) := rfl

/-- A part of a slot is replaced by what is on the stack. -/
private theorem exec_insertInto (slot : Slot) (low : Nat) (hsize : size ≠ .bits128) (hlow : low + size.bits ≤ 32)
    (hcleared : ∀ j < 32, (~~~(size.mask <<< UInt32.ofNat low)).toNat.testBit j =
      !decide (low ≤ j ∧ j < low + size.bits)) (m : Wasm.Machine ω) (v : UInt32) :
    ∃ w, exec (insertInto slot.index size (UInt32.ofNat low)) (m.push (.i32 v)) =
      .ok { m.setLocal Local.value w with
        store := m.store.set slot (withPart (m.store.get slot) low size.bits v.toNat) } := by
  refine ⟨.i32 ((v &&& size.mask) <<< UInt32.ofNat low), ?_⟩
  rw [← or_shiftLeft_eq_withPart _ _ hsize hlow hcleared, insertInto, List.append_assoc,
    exec_append (exec_maskTo size m v), exec_append (exec_shiftLeft _ m _)]
  rfl

/-! ### Addresses -/

/-- The code of a term pushes a word on every machine with a store. -/
def Pushes (s : Wasm.Store ω) (code : Code) (v : UInt32) : Prop :=
  ∀ m : Wasm.Machine ω, m.store = s → exec code m = .ok (m.push (.i32 v))

/-- The code of a sum pushes the sum of its terms, the last two added first. -/
private theorem pushes_sumTerms {s : Wasm.Store ω} {terms : List Code} {values : List UInt32}
    (h : List.Forall₂ (Pushes s) terms values) : Pushes s (sumTerms terms) (values.foldr (· + ·) 0) := by
  induction h with
  | nil => exact fun _ _ => rfl
  | @cons code v terms values hcode hterms ih =>
    intro m hm
    cases hterms with
    | nil =>
      have hcodes : sumTerms [code] = code := by simp [sumTerms]
      rw [hcodes, hcode m hm]
      simp
    | @cons code' v' terms values hcode' hterms =>
      have hcodes : sumTerms (code :: code' :: terms) =
        code ++ (sumTerms (code' :: terms) ++ ([.op .i32Add] : Code)) := by
        simp [sumTerms, List.replicate_succ']
      rw [hcodes, exec_append (hcode m hm), exec_append (ih (m.push (.i32 v)) hm)]
      rfl

/-- A word shifted left is a multiple of it. -/
private theorem shiftLeft_eq_mul (x amount : UInt32) {factor : UInt32} (h : 2 ^ (amount.toNat % 32) = factor.toNat) :
    x <<< amount = x * factor := by
  apply UInt32.toNat_inj.1
  rw [UInt32.toNat_shiftLeft, UInt32.toNat_mul, Nat.shiftLeft_eq, h]

private theorem pushes_scaledCode {scale : UInt8} (s : Wasm.Store ω) (index : UInt8)
    (h : scale = 1 ∨ scale = 2 ∨ scale = 4 ∨ scale = 8) :
    Pushes s (scaledCode index scale) (s.get (X86.wideSlot index) * scale.toUInt32) := by
  rintro m rfl
  rw [scaledCode, registerGlobal_eq, exec_cons rfl]
  rcases h with rfl | rfl | rfl | rfl
  · show _ = Except.ok (m.push (.i32 (_ * 1)))
    rw [UInt32.mul_one]
    rfl
  · rw [← shiftLeft_eq_mul _ 1 rfl]
    rfl
  · rw [← shiftLeft_eq_mul _ 2 rfl]
    rfl
  · rw [← shiftLeft_eq_mul _ 3 rfl]
    rfl

private theorem exec_addDisplacement (displacement : Option Int32) (m : Wasm.Machine ω) (v : UInt32) :
    exec (addDisplacement displacement) (m.push (.i32 v)) =
      .ok (m.push (.i32 (v + (displacement.getD 0).toUInt32))) := by
  cases displacement with
  | none =>
    show _ = Except.ok (m.push (.i32 (v + 0)))
    rw [UInt32.add_zero]
    rfl
  | some d => rfl

/-- The summands of an address are the words that the address is the sum of. -/
private theorem pushes_addressTerms {base index : Option UInt8} {scale : UInt8} {displacement : Option Int32}
    (s : Wasm.Store ω) (h : scale = 1 ∨ scale = 2 ∨ scale = 4 ∨ scale = 8) :
    List.Forall₂ (Pushes s) (addressTerms base index scale displacement)
      ((base.map fun b => s.get (X86.wideSlot b)).toList ++
        (index.map fun i => s.get (X86.wideSlot i) * scale.toUInt32).toList ++
          (displacement.map Int32.toUInt32).toList) := by
  have hbase : List.Forall₂ (Pushes s) (base.map fun b => [.globalGet (registerGlobal b)]).toList
      (base.map fun b => s.get (X86.wideSlot b)).toList := by
    cases base with
    | none => exact .nil
    | some b =>
      refine .cons ?_ .nil
      rintro m rfl
      show exec [.globalGet (registerGlobal b)] m = _
      rw [registerGlobal_eq]
      rfl
  have hindex : List.Forall₂ (Pushes s) (index.map fun i => scaledCode i scale).toList
      (index.map fun i => s.get (X86.wideSlot i) * scale.toUInt32).toList := by
    cases index with
    | none => exact .nil
    | some i => exact .cons (pushes_scaledCode s i h) .nil
  have hdisplacement : List.Forall₂ (Pushes s) (displacement.map fun d => [.i32Const d.toUInt32]).toList
      (displacement.map Int32.toUInt32).toList := by
    cases displacement with
    | none => exact .nil
    | some d => exact .cons (fun _ _ => rfl) .nil
  exact List.rel_append (List.rel_append hbase hindex) hdisplacement

/-- The code of an address is straight, and pushes the address. -/
theorem exec_addressOf (h : op.Readable size) (hmemory : op.isMemory = true) (m : Wasm.Machine ω) :
    (addressOf op).outcome = .ok () ∧ exec (addressOf op).code m = .ok (m.push (.i32 (op.address m.store))) := by
  cases op with
  | register index size' indirect displacement =>
    cases hmemory
    refine ⟨rfl, ?_⟩
    have hindex := wideSlot_index h.numbered
    show exec (.globalGet index.toNat :: addDisplacement displacement) m = _
    rw [← hindex]
    exact (exec_cons rfl).trans (exec_addDisplacement displacement m _)
  | immediate value size' indirect displacement =>
    cases hmemory
    exact ⟨rfl, rfl⟩
  | scaledIndex base index scale displacement size' indirect =>
    refine ⟨rfl, (pushes_sumTerms (pushes_addressTerms m.store h.scaled) m rfl).trans ?_⟩
    have hzero : Int32.toUInt32 0 = 0 := rfl
    cases base <;> cases index <;> cases displacement <;> simp [Operand.address, UInt32.add_assoc, hzero]
  | segment index size' indirect displacement =>
    cases hmemory
    obtain hplace | ⟨_, _, himm, _⟩ := h.isValue
    · show (segmentGlobal index >>= _).outcome = _ ∧ exec (segmentGlobal index >>= _).code m = _
      rw [segmentGlobal_eq hplace.2]
      exact ⟨rfl, (exec_cons rfl).trans (exec_addDisplacement displacement m _)⟩
    · cases himm
  | offset value size' => exact ⟨rfl, rfl⟩
  | symbol name => cases hmemory

/-- The code of an address computes the address of the operand. -/
theorem executes_addressOf (h : op.Readable size) (hmemory : op.isMemory = true) (m : Wasm.Machine ω) :
    Executes host (addressOf op) () m (m.push (.i32 (op.address m.store))) := by
  obtain ⟨houtcome, hexec⟩ := exec_addressOf h hmemory m
  exact ⟨houtcome, Wasm.runs_of_exec hexec⟩

/-! ### Loads and stores -/

/-- A load inside memory reads as many bytes as its size says. -/
theorem executes_load {address : UInt32} (hsize : size ≠ .bits128)
    (h : address.toNat + size.bytes ≤ m.store.memory.size) :
    Executes host (load size) () (m.push (.i32 address))
      (m.push (.i32 (UInt32.ofNat (m.store.memory.read address.toNat size.bytes)))) := by
  cases size with
  | bits8 | bits16 | bits32 =>
    refine executes_emit (Eq.trans (b := exec [] (m.push _)) (exec_cons ?_) rfl)
    exact if_pos h
  | bits128 => exact absurd rfl hsize

/-- A store inside memory writes as many bytes as its size says. -/
theorem executes_store {address v : UInt32} (hsize : size ≠ .bits128)
    (h : address.toNat + size.bytes ≤ m.store.memory.size) :
    Executes host (store size) () ((m.push (.i32 address)).push (.i32 v))
      { m with store := { m.store with memory := m.store.memory.write address.toNat size.bytes v.toNat } } := by
  cases size with
  | bits8 | bits16 | bits32 =>
    refine executes_emit (Eq.trans (b := exec [] { m with store := _ }) (exec_cons ?_) rfl)
    exact if_pos h
  | bits128 => exact absurd rfl hsize

/-- The constant of a width is what its integer wraps around to. -/
theorem and_mask_eq_wrap (value : Int64) (hsize : size ≠ .bits128) :
    value.toUInt64.toUInt32 &&& size.mask = UInt32.ofNat (wrap size.bits value.toInt) := by
  have hvalue : value.toInt = (value.toUInt64.toNat : Int).bmod (2 ^ 64) := BitVec.toInt_eq_toNat_bmod _
  rw [← UInt32.ofNat_toNat (x := value.toUInt64.toUInt32 &&& size.mask), OperandSize.toNat_and_mask _ hsize,
    UInt64.toNat_toUInt32, hvalue, wrap]
  refine congrArg UInt32.ofNat ?_
  generalize value.toUInt64.toNat = n
  cases size with
  | bits8 | bits16 | bits32 =>
    simp only [OperandSize.bits, Int.bmod]
    omega
  | bits128 => exact absurd rfl hsize

/-- The part of a word that is a register, as the code takes it out. -/
private theorem ofNat_wordPart (word : UInt32) {low : Nat} (hsize : size ≠ .bits128) (hlow : low < 32) :
    UInt32.ofNat (wordPart word low size.bits) = (word >>> UInt32.ofNat low) &&& size.mask := by
  rw [← toNat_shiftRight_and_mask word hsize hlow, UInt32.ofNat_toNat]

/-- The code of a register pushes its part of a slot. -/
private theorem exec_loadRegister {index : UInt8} (hsize : size ≠ .bits128) (hindex : index.toNat < 8)
    (displacement : Option Int32) (m : Wasm.Machine ω) :
    exec (loadOperand (.register index size false displacement)).code m =
      .ok (m.push (.i32 (UInt32.ofNat
        (wordPart (m.store.get (X86.registerSlot index size)) (X86.registerLow index size)
        size.bits)))) := by
  have hlow : X86.registerLow index size < 32 := by
    cases size with
    | bits8 => rcases registerLow_byte index with hlow | hlow <;> rw [hlow] <;> decide
    | _ => exact Nat.succ_pos 31
  rw [ofNat_wordPart _ hsize hlow]
  cases size with
  | bits8 =>
    show exec (.globalGet (byteGlobal index) :: shiftRight (byteShift index) ++ maskTo .bits8) m = _
    rw [byteGlobal_eq, byteShift_eq, List.cons_append, exec_cons rfl]
    exact (exec_append (exec_shiftRight _ m _)).trans (exec_maskTo _ m _)
  | bits16 =>
    show exec (.globalGet (registerGlobal index) :: maskTo .bits16) m = _
    rw [registerGlobal_eq, exec_cons rfl, exec_maskTo .bits16 m]
    exact congrArg (fun word => Except.ok (m.push (.i32 (word &&& 0xffff)))) UInt32.shiftRight_zero.symm
  | bits32 =>
    have hword : (m.store.get (X86.wideSlot index) >>> 0) &&& 0xffffffff = m.store.get (X86.wideSlot index) := by
      rw [UInt32.shiftRight_zero]
      exact UInt32.and_neg_one
    show exec [.globalGet index.toNat] m =
      .ok (m.push (.i32 ((m.store.get (X86.wideSlot index) >>> 0) &&& 0xffffffff)))
    rw [hword, ← wideSlot_index hindex]
    rfl
  | bits128 => exact absurd rfl hsize

/-- To load an operand is to push its value. -/
theorem executes_loadOperand (h : op.Readable size) (hbounds : op.InBounds m.store) :
    Executes host (loadOperand op) () m (m.push (.i32 (UInt32.ofNat (op.value m.store)))) := by
  rcases h.isValue with hplace | ⟨value, size', rfl, hsize⟩
  · obtain ⟨size', hsize, hsome, ⟨index, displacement, rfl⟩ | ⟨hregister, -, hload, -⟩⟩ := isPlace_cases hplace
    · exact ⟨outcome_loadOperand h.isValue, Wasm.runs_of_exec (exec_loadRegister hsize h.numbered displacement m)⟩
    · have hmemory := Operand.isMemory_of_isPlace hplace hregister
      have hfits := hbounds hmemory
      rw [Operand.bytes_eq hsome] at hfits
      rw [hload, Operand.value_of_isMemory hmemory, Operand.bytes_eq hsome]
      exact executes_bind (executes_addressOf h hmemory m) (executes_load hsize hfits)
  · refine executes_emit ?_
    rw [and_mask_eq_wrap value hsize]
    rfl

/-- The machine after an operand has been assigned a number; a store may use its local. -/
def assigned (m : Wasm.Machine ω) (op : Operand) (number : Nat) (w : Wasm.Value) : Wasm.Machine ω :=
  { m.setLocal Local.value w with store := op.assign m.store number }

/-- The code of a register replaces its part of a slot. -/
private theorem exec_storeRegister {index : UInt8} (hsize : size ≠ .bits128) (hindex : index.toNat < 8)
    (displacement : Option Int32) (m : Wasm.Machine ω) (v : UInt32) :
    ∃ w, exec (storeOperand (.register index size false displacement)).code (m.push (.i32 v)) =
      .ok (assigned m (.register index size false displacement) v.toNat w) := by
  cases size with
  | bits8 =>
    show ∃ w, exec (insertInto (byteGlobal index) .bits8 (byteShift index)) _ = _
    rw [byteGlobal_eq, byteShift_eq]
    refine exec_insertInto _ _ hsize ?_ ?_ m v
    · rcases registerLow_byte index with hlow | hlow <;> rw [hlow] <;> decide
    · rcases registerLow_byte index with hlow | hlow <;> rw [hlow] <;> decide
  | bits16 =>
    show ∃ w, exec (insertInto (registerGlobal index) .bits16 0) _ = _
    rw [registerGlobal_eq]
    exact exec_insertInto _ 0 hsize (by decide) (by decide) m v
  | bits32 =>
    refine ⟨m.locals Local.value, ?_⟩
    show exec [.globalSet index.toNat] _ = Except.ok { m.setLocal Local.value (m.locals Local.value) with
      store := m.store.set (X86.wideSlot index) (withPart (m.store.get (X86.wideSlot index)) 0 32 v.toNat) }
    rw [withPart_zero, ← wideSlot_index hindex, Wasm.Machine.setLocal_locals]
    rfl
  | bits128 => exact absurd rfl hsize

/-- To store to an operand is to assign to it; a scratch local may change. -/
theorem executes_storeOperand (host : Host Callee ω) (h : op.Writable size) (hbounds : op.InBounds m.store)
    (v : UInt32) :
    ∃ w, Executes host (storeOperand op) () (m.push (.i32 v)) (assigned m op v.toNat w) := by
  obtain ⟨size', hsize, hsome, ⟨index, displacement, rfl⟩ | ⟨hregister, -, -, hstore⟩⟩ := isPlace_cases h.isPlace
  · obtain ⟨w, hexec⟩ := exec_storeRegister hsize h.numbered displacement m v
    exact ⟨w, outcome_storeOperand h.isPlace, Wasm.runs_of_exec hexec⟩
  · have hmemory := Operand.isMemory_of_isPlace h.isPlace hregister
    have hfits := hbounds hmemory
    rw [Operand.bytes_eq hsome] at hfits
    refine ⟨.i32 v, ?_⟩
    rw [hstore, assigned, Operand.assign_of_isMemory _ hmemory, Operand.bytes_eq hsome]
    exact executes_bind (executes_emit rfl) (executes_bind (executes_addressOf h.toReadable hmemory _)
      (executes_bind (executes_emit rfl) (executes_store hsize hfits)))

end Lowering

end Ia32Wasm
