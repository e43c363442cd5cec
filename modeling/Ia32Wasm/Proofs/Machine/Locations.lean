import Ia32Wasm.Proofs.Lowering.Operands
import Ia32Wasm.Proofs.Machine.Addresses

/-!
# Locations

Where an operand is while the machine runs: some bits of a register, or some bytes of memory.  A location has a number
in every store, and the number only depends on what the location covers (`Location.number_congr`).

`Store.Moved s s' assigned` says all about a store `s'` after numbers have been moved into locations: each location
holds its number, and all that no location covers is as it was in `s`: every bit of a register, every byte of memory,
every flag, segment register and scratch slot.

* An assignment moves a number to where its operand is (`Store.moved_assign`).
* Moves follow each other (`Moved.trans`): of what the first ones left, that stays which the second ones do not
  overlap.
-/

namespace Ia32Wasm

open Machine (Slot)
open X86 (Operand OperandSize)

variable {ω : Type}

namespace Wasm.Memory

private theorem byte_write_of_outside (m : Memory) {address count a : Nat} (number : Nat)
    (h : ¬ (address ≤ a ∧ a < address + count)) : (m.write address count number).byte a = m.byte a :=
  if_neg h

/-- A number in memory depends on its bytes only. -/
private theorem read_congr {m m' : Memory} {address count : Nat}
    (h : ∀ a, address ≤ a ∧ a < address + count → m.byte a = m'.byte a) :
    m.read address count = m'.read address count := by
  induction count generalizing address with
  | zero => rfl
  | succ count ih =>
    have hfirst := h address (by omega)
    have hrest : m.read (address + 1) count = m'.read (address + 1) count := ih fun a ha => h a (by omega)
    rw [read, read, hfirst, hrest]

end Wasm.Memory

theorem wordPart_word (word : UInt32) : wordPart word 0 32 = word.toNat := by
  rw [wordPart, Nat.pow_zero, Nat.div_one, Nat.mod_eq_of_lt word.toNat_lt]

/-! ### Locations -/

/-- Some bits of a register, or some bytes of memory. -/
inductive Location where
  | part (r : Fin 8) (low width : Nat)
  | bytes (address count : Nat)

namespace Location

/-- The number in a location. -/
def number (s : Wasm.Store ω) : Location → Nat
  | part r low width => wordPart (s.get (.register r)) low width
  | bytes address count => s.memory.read address count

/-- The location covers a bit of a register. -/
def HasBit (r : Fin 8) (k : Nat) : Location → Prop
  | part r' low width => r = r' ∧ low ≤ k ∧ k < low + width
  | bytes _ _ => False

/-- The location covers a byte of memory. -/
def HasByte (a : Nat) : Location → Prop
  | part _ _ _ => False
  | bytes address count => address ≤ a ∧ a < address + count

/-- The locations cover no bit and no byte together. -/
structure Disjoint (l l' : Location) : Prop where
  bits : ∀ r k, l.HasBit r k → ¬ l'.HasBit r k
  bytes : ∀ a, l.HasByte a → ¬ l'.HasByte a

theorem Disjoint.symm {l l' : Location} (h : l.Disjoint l') : l'.Disjoint l :=
  ⟨fun r k hl hl' => h.bits r k hl' hl, fun a hl hl' => h.bytes a hl' hl⟩

/-- Registers are not in memory. -/
theorem disjoint_part_bytes (r : Fin 8) (low width address count : Nat) :
    (part r low width).Disjoint (bytes address count) :=
  ⟨fun _ _ _ => id, fun _ => False.elim⟩

/-- Parts of different registers do not meet. -/
theorem disjoint_parts_of_ne {r r' : Fin 8} (h : r ≠ r') (low width low' width' : Nat) :
    (part r low width).Disjoint (part r' low' width') :=
  ⟨fun _ _ hl hl' => h (hl.1.symm.trans hl'.1), fun _ => False.elim⟩

private theorem disjoint_parts {low width low' width' : Nat} (r r' : Fin 8) (h : low + width ≤ low' ∨
    low' + width' ≤ low) :
    (part r low width).Disjoint (part r' low' width') := by
  refine ⟨?_, fun _ => False.elim⟩
  rintro _ k ⟨-, hl⟩ ⟨-, hl'⟩
  omega

/-- Ranges of bytes do not meet if one ends before the other begins. -/
theorem disjoint_bytes {address count address' count' : Nat}
    (h : address + count ≤ address' ∨ address' + count' ≤ address) :
    (bytes address count).Disjoint (bytes address' count') := by
  refine ⟨fun _ _ => False.elim, ?_⟩
  rintro a hl hl'
  obtain ⟨hlow, hhigh⟩ : address ≤ a ∧ a < address + count := hl
  obtain ⟨hlow', hhigh'⟩ : address' ≤ a ∧ a < address' + count' := hl'
  omega

/-- The number in a location depends on what the location covers only. -/
theorem number_congr {s s' : Wasm.Store ω} {l : Location}
    (hbits : ∀ r k, l.HasBit r k →
      (s'.get (.register r)).toNat.testBit k = (s.get (.register r)).toNat.testBit k)
    (hbytes : ∀ a, l.HasByte a → s'.memory.byte a = s.memory.byte a) : l.number s' = l.number s := by
  cases l with
  | part r low width =>
    apply Nat.eq_of_testBit_eq
    intro j
    rw [number, number, testBit_wordPart, testBit_wordPart]
    by_cases hj : j < width
    · have hbit := hbits r (low + j) ⟨rfl, by omega, by omega⟩
      rw [hbit]
    · simp [hj]
  | bytes address count => exact Wasm.Memory.read_congr hbytes

end Location

/-! ### Moves -/

namespace Wasm.Store

/-- The store `s'` is the store `s` after numbers have been moved into locations, and otherwise as `s`. -/
structure Moved (s s' : Store ω) (assigned : List (Location × Nat)) : Prop where
  holds : ∀ x ∈ assigned, x.1.number s' = x.2
  bits : ∀ r k, (∀ x ∈ assigned, ¬ x.1.HasBit r k) →
    (s'.get (.register r)).toNat.testBit k = (s.get (.register r)).toNat.testBit k
  bytes : ∀ a, (∀ x ∈ assigned, ¬ x.1.HasByte a) → s'.memory.byte a = s.memory.byte a
  slots : ∀ slot, (∀ r, slot ≠ .register r) → s'.get slot = s.get slot
  size : s'.memory.size = s.memory.size
  world : s'.world = s.world

variable {s s₁ s' : Store ω}

/-- What was moved stays where later moves do not overlap it. -/
theorem Moved.trans {first second assigned : List (Location × Nat)} (h : s.Moved s₁ first) (h' : s₁.Moved s' second)
    (hholds : ∀ x ∈ assigned, x ∈ second ∨ x ∈ first ∧ ∀ y ∈ second, x.1.Disjoint y.1)
    (hcovers : ∀ x ∈ first ++ second, ∃ y ∈ assigned, y.1 = x.1) : s.Moved s' assigned := by
  have hfirst : ∀ {P : Location → Prop}, (∀ y ∈ assigned, ¬ P y.1) → ∀ x ∈ first, ¬ P x.1 := by
    intro P hnot x hx
    obtain ⟨y, hy, heq⟩ := hcovers x (List.mem_append_left _ hx)
    exact heq ▸ hnot y hy
  have hsecond : ∀ {P : Location → Prop}, (∀ y ∈ assigned, ¬ P y.1) → ∀ x ∈ second, ¬ P x.1 := by
    intro P hnot x hx
    obtain ⟨y, hy, heq⟩ := hcovers x (List.mem_append_right _ hx)
    exact heq ▸ hnot y hy
  refine ⟨?_, ?_, ?_, ?_, h'.size.trans h.size, h'.world.trans h.world⟩
  · intro x hx
    rcases hholds x hx with hlater | ⟨hearlier, hdisjoint⟩
    · exact h'.holds x hlater
    · have hkept : x.1.number s' = x.1.number s₁ := Location.number_congr
        (fun r k hbit => h'.bits r k fun y hy => (hdisjoint y hy).bits r k hbit)
        (fun a hbyte => h'.bytes a fun y hy => (hdisjoint y hy).bytes a hbyte)
      exact hkept.trans (h.holds x hearlier)
  · intro r k hnot
    exact (h'.bits r k (hsecond hnot)).trans (h.bits r k (hfirst hnot))
  · intro a hnot
    exact (h'.bytes a (hsecond hnot)).trans (h.bytes a (hfirst hnot))
  · intro slot hslot
    exact (h'.slots slot hslot).trans (h.slots slot hslot)

/-- Moves to locations that do not overlap follow each other; a location may also be given the same number twice. -/
theorem Moved.append {first second : List (Location × Nat)} (h : s.Moved s₁ first) (h' : s₁.Moved s' second)
    (hdisjoint : ∀ x ∈ first, x ∈ second ∨ ∀ y ∈ second, x.1.Disjoint y.1) : s.Moved s' (first ++ second) := by
  refine h.trans h' ?_ fun x hx => ⟨x, hx, rfl⟩
  intro x hx
  rcases List.mem_append.1 hx with hfirst | hsecond
  · exact (hdisjoint x hfirst).imp_right fun hx => ⟨hfirst, hx⟩
  · exact .inl hsecond

/-- Of moves that begin with the same location, the number of the later one is there, and what else the first ones
moved stays where the second ones do not overlap it. -/
theorem Moved.overwrite {l : Location} {x x' : Nat} {kept second : List (Location × Nat)}
    (h : s.Moved s₁ ((l, x) :: kept)) (h' : s₁.Moved s' ((l, x') :: second))
    (hkept : ∀ y ∈ kept, y.1.Disjoint l ∧ ∀ z ∈ second, y.1.Disjoint z.1) :
    s.Moved s' ((l, x') :: (kept ++ second)) := by
  refine h.trans h' ?_ ?_
  · intro y hy
    rcases List.mem_cons.1 hy with rfl | hy
    · exact .inl List.mem_cons_self
    · rcases List.mem_append.1 hy with hy | hy
      · refine .inr ⟨List.mem_cons_of_mem _ hy, ?_⟩
        exact List.forall_mem_cons.2 (hkept y hy)
      · exact .inl (List.mem_cons_of_mem _ hy)
  · intro y hy
    rcases List.mem_append.1 hy with hy | hy <;> rcases List.mem_cons.1 hy with rfl | hy
    · exact ⟨_, List.mem_cons_self, rfl⟩
    · exact ⟨y, List.mem_cons_of_mem _ (List.mem_append_left _ hy), rfl⟩
    · exact ⟨_, List.mem_cons_self, rfl⟩
    · exact ⟨y, List.mem_cons_of_mem _ (List.mem_append_right _ hy), rfl⟩

private theorem moved_part {low width number : Nat} (s : Store ω) (r : Fin 8) (hlow : low + width ≤ 32)
    (hnumber : number < 2 ^ width) :
    s.Moved (s.set (.register r) (withPart (s.get (.register r)) low width number))
    [(.part r low width, number)] := by
  refine ⟨?_, ?_, fun _ _ => rfl, ?_, rfl, rfl⟩
  · intro x hx
    obtain rfl := List.mem_singleton.1 hx
    show wordPart ((s.set _ _).get _) low width = number
    rw [get_set_self, wordPart_withPart _ _ hlow, Nat.mod_eq_of_lt hnumber]
  · intro r' k hnot
    by_cases hr : r' = r
    · subst hr
      have houtside : ¬ (low ≤ k ∧ k < low + width) := fun hk => hnot _ (List.mem_singleton_self _) ⟨rfl, hk⟩
      rw [get_set_self, testBit_withPart _ _ hlow, if_neg houtside]
    · rw [s.get_set_of_ne _ fun heq => hr (Slot.register.inj heq)]
  · intro slot hslot
    exact s.get_set_of_ne _ (hslot r)

/-- To set a register moves a word there. -/
theorem moved_set (s : Store ω) (r : Fin 8) (word : UInt32) :
    s.Moved (s.set (.register r) word) [(.part r 0 32, word.toNat)] := by
  have hmoved := s.moved_part r (Nat.le_of_eq (Nat.zero_add 32)) word.toNat_lt
  rwa [withPart_zero] at hmoved

/-- To write bytes moves a number there. -/
theorem moved_write {count number : Nat} (s : Store ω) (address : Nat) (hnumber : number < 256 ^ count) :
    s.Moved { s with memory := s.memory.write address count number } [(.bytes address count, number)] := by
  refine ⟨?_, fun _ _ _ => rfl, ?_, fun _ _ => rfl, rfl, rfl⟩
  · intro x hx
    obtain rfl := List.mem_singleton.1 hx
    exact (s.memory.read_write address count number).trans (Nat.mod_eq_of_lt hnumber)
  · intro a hnot
    exact s.memory.byte_write_of_outside number (hnot _ (List.mem_singleton_self _))

/-- A register that holds a number has it as its word. -/
theorem Moved.get_register {assigned : List (Location × Nat)} (h : s.Moved s' assigned) {r : Fin 8} {word : UInt32}
    (hr : (.part r 0 32, word.toNat) ∈ assigned) : s'.get (.register r) = word := by
  have hnumber : wordPart (s'.get (.register r)) 0 32 = word.toNat := h.holds _ hr
  rw [wordPart_word] at hnumber
  exact UInt32.toNat_inj.1 hnumber

end Wasm.Store

/-! ### Where operands are -/

namespace X86

/-- The number of the 32-bit register that a register is a part of. -/
def holder (index : UInt8) : OperandSize → Fin 8
  | .bits8 => registerNumber (index % 4).toNat
  | _ => registerNumber index.toNat

private theorem registerSlot_eq (index : UInt8) (size : OperandSize) :
    registerSlot index size = .register (holder index size) := by
  cases size <;> rfl

private theorem registerLow_add_bits_le (index : UInt8) {size : OperandSize} (h : size ≠ .bits128) :
    registerLow index size + size.bits ≤ 32 := by
  cases size with
  | bits8 => rcases Lowering.registerLow_byte index with hlow | hlow <;> rw [hlow] <;> decide
  | bits16 => exact (by decide : 0 + 16 ≤ 32)
  | bits32 => exact (by decide : 0 + 32 ≤ 32)
  | bits128 => exact absurd rfl h

namespace Operand

/-- Where an operand is.  A constant is nowhere. -/
def location (s : Wasm.Store ω) (op : Operand) : Location :=
  if op.isMemory then .bytes (op.address s).toNat op.bytes
  else
    match op with
    | .register index size _ _ => .part (holder index size) (registerLow index size) size.bits
    | _ => .bytes 0 0

/-- An operand in memory is where its bytes are. -/
theorem location_of_isMemory {op : Operand} {s : Wasm.Store ω} (h : op.isMemory = true) :
    op.location s = .bytes (op.address s).toNat op.bytes :=
  if_pos h

private theorem location_reg (s : Wasm.Store ω) (index : UInt8) (size : OperandSize) (displacement : Option Int32) :
    (Operand.register index size false displacement).location s =
      .part (holder index size) (registerLow index size) size.bits :=
  rfl

/-- The number of an operand is the number where the operand is. -/
theorem Writable.number_location {op : Operand} {size : OperandSize} (h : op.Writable size) (s : Wasm.Store ω) :
    (op.location s).number s = op.value s := by
  by_cases hmemory : op.isMemory = true
  · rw [location_of_isMemory hmemory, value_of_isMemory hmemory]
    rfl
  · obtain ⟨_, -, -, ⟨index, displacement, rfl⟩ | ⟨hregister, -⟩⟩ := Lowering.isPlace_cases h.isPlace
    · rw [location_reg, Location.number, ← registerSlot_eq]
      rfl
    · exact absurd (isMemory_of_isPlace h.isPlace hregister) hmemory

/-- A register and another operand of its width are the same or do not overlap. -/
theorem Writable.location_eq_or_disjoint {op : Operand} {size : OperandSize} (h : op.Writable size) (s : Wasm.Store ω)
    (index : UInt8) :
    op.location s = (Operand.reg index size).location s ∨
      (op.location s).Disjoint ((Operand.reg index size).location s) := by
  by_cases hmemory : op.isMemory = true
  · rw [location_of_isMemory hmemory]
    exact .inr (Location.disjoint_part_bytes ..).symm
  · obtain ⟨_, -, hsize, ⟨index', displacement, rfl⟩ | ⟨hregister, -⟩⟩ := Lowering.isPlace_cases h.isPlace
    · cases h.size?_eq
      rw [Operand.reg, location_reg, location_reg]
      by_cases hholder : holder index' size = holder index size
      · by_cases hlow : registerLow index' size = registerLow index size
        · rw [hholder, hlow]
          exact .inl rfl
        · -- Two different parts of the same width in one register are its two low bytes.
          cases size with
          | bits8 =>
            refine .inr (Location.disjoint_parts _ _ ?_)
            have hbyte := Lowering.registerLow_byte index
            have hbyte' := Lowering.registerLow_byte index'
            show _ + 8 ≤ _ ∨ _ + 8 ≤ _
            omega
          | _ => exact absurd rfl hlow
      · exact .inr (Location.disjoint_parts_of_ne hholder ..)
    · exact absurd (isMemory_of_isPlace h.isPlace hregister) hmemory

end Operand

end X86

/-- An assignment moves its number to where the operand is. -/
theorem Wasm.Store.moved_assign {op : Operand} {size : OperandSize} (h : op.Writable size) (s : Wasm.Store ω)
    {number : Nat} (hnumber : number < 2 ^ size.bits) : s.Moved (op.assign s number) [(op.location s, number)] := by
  by_cases hmemory : op.isMemory = true
  · rw [Operand.assign_of_isMemory _ hmemory, Operand.location_of_isMemory hmemory, Operand.bytes_eq h.size?_eq]
    exact s.moved_write _ (size.pow_bytes ▸ hnumber)
  · obtain ⟨_, hscalar, hsize, ⟨index, displacement, rfl⟩ | ⟨hregister, -⟩⟩ := Lowering.isPlace_cases h.isPlace
    · cases hsize
      cases h.size?_eq
      have hmoved := s.moved_part (X86.holder index size) (X86.registerLow_add_bits_le index hscalar) hnumber
      rwa [← X86.registerSlot_eq] at hmoved
    · exact absurd (Operand.isMemory_of_isPlace h.isPlace hregister) hmemory

end Ia32Wasm
