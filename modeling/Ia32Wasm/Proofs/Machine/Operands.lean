import Ia32Wasm.Machine.Slot
import Ia32Wasm.Proofs.Wasm.Machine
import Mathlib.Algebra.Group.Nat.Defs
import Mathlib.Algebra.Group.Int.Defs

/-!
# Operands of a running machine

What an operand is while the machine runs: the address of memory, the number that an operand holds, and the store
after a number has been assigned to it.  A register of less than 32 bits is a part of a word, and the rest of the
word stays.

An `Effect` is what an instruction does, as assignments to operands and changes of flags.
-/

namespace Ia32Wasm

open Machine (Flag Slot)
open X86 (Operand OperandSize)

variable {ω : Type}

/-! ### Slots -/

/-- Different slots have different globals. -/
theorem Machine.Slot.index_inj {x y : Slot} : x.index = y.index ↔ x = y := by
  constructor
  · intro h
    have hflag : ∀ f : Flag, f.index < 7 := fun f => by cases f <;> decide
    cases x <;> cases y <;> simp only [index] at h
    case register.register => rw [Fin.ext h]
    case segment.segment => rw [Fin.ext (Nat.add_left_cancel h)]
    case flag.flag f g => cases f <;> cases g <;> first | rfl | cases h
    all_goals grind
  · rintro rfl
    rfl

namespace Wasm.Store

/-- The contents of a slot. -/
def get (s : Store ω) (x : Slot) : UInt32 := s.globals x.index

/-- The store with a slot changed. -/
def set (s : Store ω) (x : Slot) (word : UInt32) : Store ω := s.setGlobal x.index word

@[simp] theorem memory_set (s : Store ω) (x : Slot) (word : UInt32) : (s.set x word).memory = s.memory := rfl

@[simp] theorem get_set_self (s : Store ω) (x : Slot) (word : UInt32) : (s.set x word).get x = word := if_pos rfl

theorem set_get (s : Store ω) (x : Slot) : s.set x (s.get x) = s := by
  have hglobals : (fun i => if i = x.index then s.globals x.index else s.globals i) = s.globals := by
    funext i
    split
    · rename_i hi
      rw [hi]
    · rfl
  rw [set, setGlobal, get, hglobals]

/-- Other slots keep their words. -/
theorem get_set_of_ne {x y : Slot} (s : Store ω) (word : UInt32) (h : y ≠ x) : (s.set x word).get y = s.get y :=
  if_neg fun heq => h (Slot.index_inj.1 heq)

/-- Different slots can be set in any order. -/
theorem set_comm {x y : Slot} (s : Store ω) (v w : UInt32) (h : x ≠ y) :
    (s.set x v).set y w = (s.set y w).set x v := by
  have hindex : x.index ≠ y.index := fun heq => h (Slot.index_inj.1 heq)
  simp only [set, setGlobal, mk.injEq, and_true]
  funext i
  grind

/-- The flag of a global. -/
def flagAt? (index : Nat) : Option Flag := Flag.all.find? fun f => (Slot.flag f).index == index

private theorem flagAt?_index (f : Flag) : flagAt? (Slot.flag f).index = some f := by cases f <;> rfl

private theorem index_of_flagAt? {index : Nat} {f : Flag} (h : flagAt? index = some f) :
    (Slot.flag f).index = index := by
  have hbeq := List.find?_some h
  exact eq_of_beq hbeq

private theorem flagAt?_eq_none {x : Slot} (h : ∀ f, x ≠ .flag f) : flagAt? x.index = none := by
  cases hflag : flagAt? x.index with
  | none => rfl
  | some f => exact absurd (Slot.index_inj.1 (index_of_flagAt? hflag)).symm (h f)

/-- The store with some flags set or cleared. -/
def setFlags (s : Store ω) (changes : Flag → Option Bool) : Store ω :=
  { s with globals := fun index => (((flagAt? index).bind changes).map Bool.toUInt32).getD (s.globals index) }

theorem setFlags_none (s : Store ω) : (s.setFlags fun _ => none) = s := by
  simp [setFlags]

/-- Of two changes after each other, the later one of a flag counts. -/
theorem setFlags_setFlags (s : Store ω) (first second : Flag → Option Bool) :
    (s.setFlags first).setFlags second = s.setFlags fun f => (second f).or (first f) := by
  simp only [setFlags, mk.injEq, and_true]
  funext index
  cases hflag : flagAt? index with
  | none => rfl
  | some f => cases hsecond : second f <;> simp [hsecond]

/-- A change of one flag. -/
def only (f : Flag) (b : Bool) : Flag → Option Bool := fun g => if g = f then some b else none

/-- To set the slot of a flag is to change that flag. -/
theorem set_flag (s : Store ω) (f : Flag) (b : Bool) : s.set (.flag f) b.toUInt32 = s.setFlags (only f b) := by
  simp only [set, setGlobal, setFlags, mk.injEq, and_true]
  funext index
  by_cases hindex : index = (Slot.flag f).index
  · subst hindex
    simp [flagAt?_index, only]
  · rw [if_neg hindex]
    cases hflag : flagAt? index with
    | none => rfl
    | some g =>
      have hne : g ≠ f := by
        rintro rfl
        exact hindex (index_of_flagAt? hflag).symm
      simp [only, hne]

/-- A flag that is not changed keeps its word. -/
theorem get_setFlags (s : Store ω) (changes : Flag → Option Bool) (f : Flag) :
    (s.setFlags changes).get (.flag f) = ((changes f).map Bool.toUInt32).getD (s.get (.flag f)) := by
  simp [get, setFlags, flagAt?_index]

/-- Slots that hold no flag keep their words. -/
theorem get_setFlags_of_ne {x : Slot} (s : Store ω) (changes : Flag → Option Bool) (h : ∀ f, x ≠ .flag f) :
    (s.setFlags changes).get x = s.get x := by
  simp [get, setFlags, flagAt?_eq_none h]

theorem setFlags_set {x : Slot} (s : Store ω) (changes : Flag → Option Bool) (word : UInt32) (h : ∀ f, x ≠ .flag f) :
    (s.set x word).setFlags changes = (s.setFlags changes).set x word := by
  simp only [set, setGlobal, setFlags, mk.injEq, and_true]
  funext index
  by_cases hindex : index = x.index
  · simp [hindex, flagAt?_eq_none h]
  · simp [hindex]

end Wasm.Store

/-! ### Parts of words -/

/-- The number of `width` bits that an integer wraps around to. -/
def wrap (width : Nat) (x : Int) : Nat := (x % 2 ^ width).toNat

/-- The number in `width` bits of a word from the bit `low` on. -/
def wordPart (word : UInt32) (low width : Nat) : Nat := word.toNat / 2 ^ low % 2 ^ width

/-- The word with a number in its `width` bits from the bit `low` on: what is below these bits, the number, and what
is above them. -/
def withPart (word : UInt32) (low width number : Nat) : UInt32 :=
  UInt32.ofNat (word.toNat % 2 ^ low +
    2 ^ low * (number % 2 ^ width + 2 ^ width * (word.toNat / 2 ^ (low + width))))

/-! ### Operands -/

namespace X86

/-- The slot of the 32-bit register with a number. -/
def wideSlot (index : UInt8) : Slot := .register ⟨index.toNat % 8, Nat.mod_lt _ (Nat.succ_pos 7)⟩

/-- The slot that a register is a part of.  There are eight 8-bit registers in the first four slots. -/
def registerSlot (index : UInt8) : OperandSize → Slot
  | .bits8 => wideSlot (index % 4)
  | _ => wideSlot index

/-- The lowest bit of a register in its slot. -/
def registerLow (index : UInt8) : OperandSize → Nat
  | .bits8 => if index.toNat < 4 then 0 else 8
  | _ => 0

namespace Operand

/-- The operand is memory. -/
def isMemory : Operand → Bool
  | .register _ _ indirect _ | .immediate _ _ indirect _ | .scaledIndex _ _ _ _ _ indirect
  | .segment _ _ indirect _ => indirect
  | .offset _ _ => true
  | .symbol _ => false

/-- The number of bytes of an operand. -/
def bytes (op : Operand) : Nat := op.size?.elim 0 OperandSize.bytes

/-- The address of an operand in memory: the sum of what it names, modulo `2 ^ 32`. -/
def address (s : Wasm.Store ω) : Operand → UInt32
  | .register index _ _ displacement => s.get (wideSlot index) + (displacement.getD 0).toUInt32
  | .immediate value _ _ displacement => value.toUInt64.toUInt32 + (displacement.getD 0).toUInt32
  | .scaledIndex base index scale displacement _ _ =>
    base.elim 0 (fun b => s.get (wideSlot b)) + index.elim 0 (fun i => s.get (wideSlot i) * scale.toUInt32) +
      (displacement.getD 0).toUInt32
  | .segment index _ _ displacement =>
    s.get (.segment ⟨index.toNat % 6, Nat.mod_lt _ (Nat.succ_pos 5)⟩) + (displacement.getD 0).toUInt32
  | .offset value _ => value
  | .symbol _ => 0

/-- An operand in memory lies in the memory that there is. -/
def InBounds (s : Wasm.Store ω) (op : Operand) : Prop :=
  op.isMemory = true → (op.address s).toNat + op.bytes ≤ s.memory.size

instance (s : Wasm.Store ω) (op : Operand) : Decidable (op.InBounds s) :=
  inferInstanceAs (Decidable (op.isMemory = true → (op.address s).toNat + op.bytes ≤ s.memory.size))

/-- The number that an operand holds. -/
def value (s : Wasm.Store ω) (op : Operand) : Nat :=
  if op.isMemory then s.memory.read (op.address s).toNat op.bytes
  else
    match op with
    | .register index size _ _ => wordPart (s.get (registerSlot index size)) (registerLow index size) size.bits
    | .immediate value size _ _ => wrap size.bits value.toInt
    | _ => 0

/-- The store after the low bits of a number have been assigned to an operand. -/
def assign (s : Wasm.Store ω) (op : Operand) (number : Nat) : Wasm.Store ω :=
  if op.isMemory then { s with memory := s.memory.write (op.address s).toNat op.bytes number }
  else
    match op with
    | .register index size _ _ =>
      let slot := registerSlot index size
      s.set slot (withPart (s.get slot) (registerLow index size) size.bits number)
    | _ => s

private theorem address_set_t1 (s : Wasm.Store ω) (word : UInt32) (op : Operand) :
    op.address (s.set .t1 word) = op.address s := by
  have hwide : ∀ index, (s.set .t1 word).get (wideSlot index) = s.get (wideSlot index) := fun index =>
    s.get_set_of_ne word Slot.noConfusion
  have hsegment : ∀ r, (s.set .t1 word).get (.segment r) = s.get (.segment r) := fun r =>
    s.get_set_of_ne word Slot.noConfusion
  cases op <;> simp only [address, hwide, hsegment]

theorem inBounds_set_t1 {s : Wasm.Store ω} {op : Operand} (word : UInt32) (h : op.InBounds s) :
    op.InBounds (s.set .t1 word) := by
  intro hmemory
  rw [address_set_t1]
  exact h hmemory

private theorem registerSlot_ne_t1 (index : UInt8) (size : OperandSize) : registerSlot index size ≠ .t1 := by
  cases size <;> exact Slot.noConfusion

theorem value_set_t1 (s : Wasm.Store ω) (word : UInt32) (op : Operand) : op.value (s.set .t1 word) = op.value s := by
  unfold value
  rw [address_set_t1]
  cases op with
  | register index size indirect displacement =>
    show (if _ then _ else wordPart ((s.set .t1 word).get _) _ _) = _
    rw [s.get_set_of_ne word (registerSlot_ne_t1 index size)]
    rfl
  | _ => rfl

/-- An assignment does not depend on the scratch slot, and leaves it as it is. -/
theorem assign_set_t1 (s : Wasm.Store ω) (word : UInt32) (op : Operand) (number : Nat) :
    op.assign (s.set .t1 word) number = (op.assign s number).set .t1 word := by
  unfold assign
  split
  · rw [address_set_t1]
    rfl
  · cases op with
    | register index size indirect displacement =>
      show (s.set .t1 word).set _ (withPart ((s.set .t1 word).get _) _ _ _) = _
      rw [s.get_set_of_ne word (registerSlot_ne_t1 index size), s.set_comm _ _ (registerSlot_ne_t1 index size).symm]
    | _ => rfl

/-- An assignment leaves every slot as it is that is no register. -/
theorem get_assign {x : Slot} (s : Wasm.Store ω) (op : Operand) (number : Nat) (h : ∀ r, x ≠ .register r) :
    (op.assign s number).get x = s.get x := by
  unfold assign
  split
  · rfl
  · cases op with
    | register index size indirect displacement =>
      refine s.get_set_of_ne _ ?_
      cases size <;> exact h _
    | _ => rfl

end Operand

end X86

/-! ### Effects -/

/-- What an instruction does: the operands that it assigns one after the other, with their numbers, and the flags
that it changes. -/
structure Effect where
  assigned : List (Operand × Nat)
  flags : Flag → Option Bool

/-- The store after an effect. -/
def Effect.apply (e : Effect) (s : Wasm.Store ω) : Wasm.Store ω :=
  (e.assigned.foldl (fun s x => x.1.assign s x.2) s).setFlags e.flags

end Ia32Wasm
