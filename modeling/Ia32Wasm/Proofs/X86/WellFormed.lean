import Ia32Wasm.Proofs.Machine.Addresses
import Ia32Wasm.Proofs.X86.Widths
import Mathlib.Algebra.Order.Ring.Int

/-!
# Well-formed instructions

What the rest of the pipeline takes for granted about decoded instructions: numbers of registers that there are,
scales that are powers of two, constants that have the width they claim, and branches with the operands that their
targets are read from.

* `Operand.WellFormed` is what every operand satisfies.  For the memory of a ModRM byte it follows from the fields of
  the bytes (`Fetch.reads_wellFormed_rm`).
* A constant has the width of its operand only if the table of opcodes asks for no more bytes than that
  (`Opcode.fitted_of_mem_table`, `Fetch.reads_wellFormed_constant`).
* `Instruction.WellFormed` adds what holds of all the operands together, and `wellFormed_of_decode` is about every
  byte string that decodes.
-/

namespace Ia32Wasm.X86

/-! ### Operands -/

/-- The integer is a signed or an unsigned number of a width. -/
def OperandSize.Holds (size : OperandSize) (x : Int) : Prop := -2 ^ (size.bits - 1) ≤ x ∧ x < 2 ^ size.bits

namespace OperandSize

/-- What fits a size fits larger ones. -/
theorem Holds.mono {size size' : OperandSize} {x : Int} (h : size.Holds x) (hle : size.bits ≤ size'.bits) :
    size'.Holds x := by
  obtain ⟨hlow, hhigh⟩ := h
  have hbits : (2 : Int) ^ size.bits ≤ 2 ^ size'.bits := pow_le_pow_right₀ one_le_two hle
  have hsign : (2 : Int) ^ (size.bits - 1) ≤ 2 ^ (size'.bits - 1) :=
    pow_le_pow_right₀ one_le_two (Nat.sub_le_sub_right hle 1)
  exact ⟨by omega, by omega⟩

private theorem holds_signed (size : OperandSize) {x : Int} (hlow : -2 ^ (size.bits - 1) ≤ x)
    (hhigh : x < 2 ^ (size.bits - 1)) : size.Holds x := by
  have hbits : (2 : Int) ^ (size.bits - 1) ≤ 2 ^ size.bits := pow_le_pow_right₀ one_le_two (Nat.sub_le size.bits 1)
  exact ⟨hlow, by omega⟩

private theorem holds_unsigned (size : OperandSize) {n : Nat} (h : n < 2 ^ size.bits) : size.Holds n := by
  have hsign : (0 : Int) ≤ 2 ^ (size.bits - 1) := pow_nonneg zero_le_two _
  have hlt : (n : Int) < 2 ^ size.bits := by exact_mod_cast h
  exact ⟨by omega, hlt⟩

end OperandSize

/-- The operand is one that an instruction can encode.  The stack pointer is no index, an address without a base has a
displacement, only two segment registers are added to addresses, a constant is a signed or an unsigned number of its
width, and there are no symbols. -/
def Operand.WellFormed : Operand → Prop
  | .register index _ _ _ => index.toNat ≤ 7
  | .immediate value size indirect _ => indirect = false → size.Holds value.toInt
  | .scaledIndex base index scale displacement _ _ =>
    (∀ r, base = some r → r.toNat ≤ 7) ∧ (∀ r, index = some r → r.toNat ≤ 7 ∧ r ≠ 4) ∧
      (scale = 1 ∨ scale = 2 ∨ scale = 4 ∨ scale = 8) ∧ (base = none → displacement ≠ none)
  | .segment index _ indirect _ => if indirect then index = 4 ∨ index = 5 else index.toNat ≤ 7
  | .offset _ _ => True
  | .symbol _ => False

/-- What decoding promises of an instruction with an entry of the table.

* Only two operations take vectors.
* An operation that reads its destination has it twice.
* A conditional jump has one operand, a constant.
* A call or a jump has one operand, or it has the two constants of a far pointer. -/
structure Instruction.WellFormed (i : Instruction) (e : Opcode.Entry) : Prop where
  operands : ∀ op ∈ i.operands, op.WellFormed
  vector : ∀ op ∈ i.operands, op.size? = some .bits128 → i.mnemonic = .movlpd ∨ i.mnemonic = .xorps
  repeated : e.readsFirst = true → ∃ first rest, i.operands = first :: first :: rest
  conditional : i.mnemonic.isConditionalJump = true → ∃ value size, i.operands = [.imm value size]
  transfer : i.mnemonic = .call ∨ i.mnemonic = .jump →
    (∃ op, i.operands = [op]) ∨
      e.shape = .farPointer ∧ ∃ selector offset size, i.operands = [.imm selector .bits16, .imm offset size]

namespace Fetch

variable {prefixes : Prefixes} {size : OperandSize}

private theorem wellFormed_imm {value : Int64} (h : size.Holds value.toInt) : (Operand.imm value size).WellFormed :=
  fun _ => h

/-! ### Memory -/

private theorem reads_wellFormed_absolute {plain : UInt32 → Operand} (h : ∀ value, (plain value).WellFormed) :
    Reads (absolute prefixes size plain) Operand.WellFormed := by
  refine reads_bind (reads_number 4) fun value _ => ?_
  split
  · rename_i segment hsegment
    have hindex : segment = 4 ∨ segment = 5 := Prefixes.eq_of_baseSegment? hsegment
    exact reads_pure hindex
  · exact reads_pure (h value)

private theorem reads_wellFormed_scaledIndex (mode : UInt8) : Reads (scaledIndex mode size) Operand.WellFormed := by
  refine reads_bind reads_byte fun sib _ => ?_
  dsimp only
  have hindex : ∀ r, (if (sib >>> 3) &&& 7 = 4 then none else some ((sib >>> 3) &&& 7)) = some r →
      r.toNat ≤ 7 ∧ r ≠ 4 := by
    intro r hr
    split at hr
    · cases hr
    · rename_i hne
      cases hr
      have hfield := toNat_middleField sib
      exact ⟨by omega, hne⟩
  have hscale := scaled_shiftLeft sib none none none size
  split
  · have hbase : ∀ r : UInt8, none = some r → r.toNat ≤ 7 := by
      intro r hr
      cases hr
    exact reads_bind reads_signedWord fun d _ => reads_pure ⟨hbase, hindex, hscale, fun _ => Option.some_ne_none d⟩
  · have hbase : ∀ r, some (sib &&& 7) = some r → r.toNat ≤ 7 := by
      intro r hr
      cases hr
      have hfield := toNat_and_seven sib
      omega
    exact reads_bind (reads_displacement mode) fun d _ =>
      reads_pure ⟨hbase, hindex, hscale, fun hnone => absurd hnone (Option.some_ne_none _)⟩

/-- An operand of a ModRM byte is well formed. -/
theorem reads_wellFormed_rm {m : ModRM} (hm : m.rm.toNat < 8) : Reads (rm prefixes m size) Operand.WellFormed := by
  have hnumber : m.rm.toNat ≤ 7 := by omega
  unfold rm
  split
  · exact reads_pure hnumber
  · split
    · exact reads_wellFormed_scaledIndex m.mode
    · split
      · exact reads_wellFormed_absolute fun _ hdirect => absurd hdirect (ne_false_of_eq_true rfl)
      · exact reads_bind (reads_displacement m.mode) fun _ _ => reads_pure hnumber

/-! ### Constants -/

private theorem reads_number_two : Reads (number 2) fun v => v.toNat < 2 ^ 16 := by
  intro bytes v rest hv
  obtain ⟨hvalue, hlength⟩ := toNat_number (by omega) hv
  have hlt := littleEndian_lt (bytes.take 2)
  rw [hlength] at hlt
  exact ⟨(reads_number 2 bytes v rest hv).1, by omega⟩

/-- A constant is a number of the width of its operand if it takes no more bytes than that. -/
theorem reads_wellFormed_constant {c : Opcode.Constant} (h : 8 * c.length (size = .bits16) ≤ size.bits) :
    Reads (constant size c) Operand.WellFormed := by
  cases c with
  | signedByte =>
    refine reads_bind (reads_bind reads_byte fun b _ => reads_pure ?_) fun v hv => reads_pure (wellFormed_imm hv)
    rw [Int32.toInt_toInt64, Int8.toInt_toInt32]
    exact (OperandSize.holds_signed .bits8 b.toInt8.le_toInt b.toInt8.toInt_lt).mono h
  | unsignedByte =>
    refine reads_bind reads_byte fun b _ => reads_pure (wellFormed_imm ?_)
    rw [Int64.toInt_ofNat_of_lt (by have := b.toNat_lt; omega)]
    exact (OperandSize.holds_unsigned .bits8 b.toNat_lt).mono h
  | word =>
    refine reads_bind reads_number_two fun v hv => reads_pure (wellFormed_imm ?_)
    rw [Int64.toInt_ofNat_of_lt (by omega)]
    exact (OperandSize.holds_unsigned .bits16 hv).mono h
  | full =>
    rw [constant]
    split
    · rename_i hsize
      subst hsize
      refine reads_bind (reads_number 2) fun v _ => reads_pure (wellFormed_imm ?_)
      rw [Int16.toInt_toInt64]
      exact OperandSize.holds_signed .bits16 (Int16.le_toInt _) (Int16.toInt_lt _)
    · rename_i hsize
      rw [Opcode.Constant.length, if_neg (by simpa using hsize)] at h
      refine reads_bind reads_signedWord fun v _ => reads_pure (wellFormed_imm ?_)
      rw [Int32.toInt_toInt64]
      exact (OperandSize.holds_signed .bits32 v.le_toInt v.toInt_lt).mono h

private theorem toInt_fullConstant {bytes rest : List UInt8} {op : Operand}
    (h : constant size .full bytes = .ok (op, rest)) :
    ∃ value field, op = .imm value size ∧ field = bytes.take (if size = .bits16 then 2 else 4) ∧
      field.length = (if size = .bits16 then 2 else 4) ∧ value.toInt = signedNumber field := by
  rw [constant] at h
  split at h
  · rename_i hsize
    obtain ⟨v, middle, hv, h⟩ := bind_eq_ok.1 h
    cases h
    obtain ⟨hvalue, hlength⟩ := toNat_number (by omega) hv
    have hlt : v.toNat < 2 ^ 16 := (reads_number_two bytes v rest hv).2
    have hsigned : v.toUInt16.toInt16.toInt = toSigned 16 v.toUInt16.toNat := BitVec.toInt_eq_toNat_bmod _
    rw [if_pos hsize]
    refine ⟨_, _, rfl, rfl, hlength, ?_⟩
    rw [Int16.toInt_toInt64, hsigned, UInt32.toNat_toUInt16, Nat.mod_eq_of_lt hlt, hvalue, signedNumber, hlength]
  · rename_i hsize
    obtain ⟨v, middle, hv, h⟩ := bind_eq_ok.1 h
    cases h
    obtain ⟨word, middle', hword, -⟩ := bind_eq_ok.1 hv
    rw [if_neg hsize]
    refine ⟨_, _, rfl, rfl, (toNat_number (by omega) hword).2, ?_⟩
    rw [Int32.toInt_toInt64]
    exact toInt_signedWord hv

end Fetch

/-! ### The table -/

namespace Opcode

/-- The constants of a shape take no more bytes than their operands have, and those that are not read are bytes. -/
def Shape.fitted : Shape → Bool
  | .accImm w c | .rmImm w c | .regRmImm w c | .opRegImm w c => w ≠ .byte || c.length false = 1
  | .fixed value => -128 ≤ value.toInt && value.toInt < 256
  | _ => true

variable {e : Entry}

/-- The shapes of the table fit the numbers that they read. -/
theorem fitted_of_mem_table (h : e ∈ table) : e.shape.fitted = true := by
  have hall : table.all (·.shape.fitted) = true := by decide +kernel
  exact List.all_eq_true.1 hall e h

/-- An operation that reads its destination has one. -/
private theorem kinds_ne_nil_of_mem_table (h : e ∈ table) (hfirst : e.readsFirst = true) : e.shape.kinds ≠ [] := by
  have hall : table.all (fun e => !e.readsFirst || !e.shape.kinds.isEmpty) = true := by decide +kernel
  have hentry := List.all_eq_true.1 hall e h
  simpa [hfirst] using hentry

/-- Of calls and jumps only those with far pointers have more than one operand. -/
private theorem shape_of_mem_table (h : e ∈ table) (htransfer : e.mnemonic = .call ∨ e.mnemonic = .jump) :
    e.readsFirst = false ∧ (e.shape = .farPointer ∨ e.shape.kinds.length = 1) := by
  have hall : table.all (fun e => !(e.mnemonic = .call ∨ e.mnemonic = .jump) ||
      !e.readsFirst && (e.shape = .farPointer || e.shape.kinds.length = 1)) = true := by
    decide +kernel
  have hentry := List.all_eq_true.1 hall e h
  simpa [htransfer] using hentry

end Opcode

namespace Fetch

variable {prefixes : Prefixes} {shape : Opcode.Shape}

private theorem eq_byte_of_width {w : Opcode.Width} (h : width prefixes w = .bits8) : w = .byte := by
  cases w with
  | byte => rfl
  | full =>
    rw [width] at h
    split at h <;> cases h
  | _ => cases h

/-- Only a byte is too small for a constant. -/
private theorem length_le_bits {size : OperandSize} {c : Opcode.Constant} (h : size = .bits8 → c.length false = 1) :
    8 * c.length (size = .bits16) ≤ size.bits := by
  cases size with
  | bits8 => rw [show c.length (OperandSize.bits8 = .bits16) = 1 from h rfl]; decide
  | _ => cases c <;> decide

private theorem length_le_of_mem_constants (h : shape.fitted = true) {x : OperandSize × Opcode.Constant}
    (hx : x ∈ constants prefixes shape) : 8 * x.2.length (x.1 = .bits16) ≤ x.1.bits := by
  have hconstant : ∀ w (c : Opcode.Constant), (w ≠ .byte || c.length false = 1) = true →
      width prefixes w = .bits8 → c.length false = 1 := by
    intro w c hfits hw
    rw [eq_byte_of_width hw] at hfits
    simpa using hfits
  have hfull : width prefixes .full ≠ .bits8 := fun hw => by cases eq_byte_of_width hw
  apply length_le_bits
  cases shape with
  | accImm w c | regRmImm w c | opRegImm w c =>
    cases List.mem_singleton.1 hx
    exact hconstant w c h
  | rmImm w c =>
    -- A count of a shift is a byte whatever the width of what is shifted.
    cases List.mem_singleton.1 hx
    dsimp only
    split
    · rename_i hc
      rw [hc]
      exact fun _ => rfl
    · exact hconstant w c h
  | imm c | relative c =>
    cases List.mem_singleton.1 hx
    cases c <;> simp [constantSize, relativeSize, Opcode.Constant.length, hfull]
  | farPointer =>
    rcases List.mem_cons.1 hx with rfl | hx
    · exact fun hw => absurd hw hfull
    · cases List.mem_singleton.1 hx
      exact fun hw => by cases hw
  | _ => cases hx

private theorem holds_of_fixed? (h : shape.fitted = true) {value : Int64} (hvalue : fixed? shape = some value) :
    OperandSize.bits8.Holds value.toInt := by
  cases shape with
  | fixed v =>
    cases hvalue
    simp only [Opcode.Shape.fitted, Bool.and_eq_true, decide_eq_true_eq] at h
    exact h
  | rmOne w =>
    cases hvalue
    exact OperandSize.holds_unsigned .bits8 (by decide)
  | _ => cases hvalue

private theorem reads_wellFormed_operands (h : shape.fitted = true) (opcode : UInt16) :
    Reads (operands prefixes opcode shape) fun ops => ∀ op ∈ ops, op.WellFormed :=
  reads_operands_of (fun _ _ hindex => Nat.le_of_lt_succ hindex) (fun _ _ hindex => Nat.le_of_lt_succ hindex)
    (fun _ hvalue => wellFormed_imm (holds_of_fixed? h hvalue))
    (fun _ hx => reads_wellFormed_constant (length_le_of_mem_constants h hx))
      (fun _ hindex => Nat.le_of_lt_succ hindex)
    (fun _ => reads_wellFormed_absolute fun _ => trivial) (fun _ _ => reads_wellFormed_rm) opcode

end Fetch

/-! ### Instructions -/

section

variable {bytes : List UInt8} {address : UInt32} {i : Instruction} {n : Nat}

open Encoding (Names)

private theorem Operand.IsPlace.size?_ne {op : Operand} (h : op.IsPlace) : op.size? ≠ some .bits128 := by
  intro hsize
  unfold Operand.IsPlace at h
  split at h
  · exact h (Option.some.inj hsize)
  · exact h (Option.some.inj hsize)
  · exact h (Option.some.inj hsize)
  · exact h (Option.some.inj hsize)
  · exact h.1 (Option.some.inj hsize)
  · exact h

/-- Only operands of any kind have the width of vectors. -/
private theorem Kind.eq_any_of_size? {k : Kind} {op : Operand} (h : k.Is op) (hsize : op.size? = some .bits128) :
    k = .any := by
  have hconstant : ¬ op.IsConstant := by
    rintro ⟨value, size, rfl, hscalar⟩
    exact hscalar (Option.some.inj hsize)
  cases k with
  | place => exact absurd hsize (Operand.IsPlace.size?_ne h)
  | constant => exact absurd h hconstant
  | value =>
    rcases h with hplace | hvalue
    · exact absurd hsize hplace.size?_ne
    · exact absurd hvalue hconstant
  | segment =>
    obtain ⟨index, rfl, -⟩ := h
    cases hsize
  | any => rfl

private theorem Kind.any_mem_of_size? {form : List Kind} {ops : List Operand} {op : Operand}
    (h : List.Forall₂ Kind.Is form ops)
    (hop : op ∈ ops) (hsize : op.size? = some .bits128) : .any ∈ form := by
  induction h with
  | nil => cases hop
  | cons hfirst _ ih =>
    rcases List.mem_cons.1 hop with rfl | hop
    · rw [Kind.eq_any_of_size? hfirst hsize]
      exact List.mem_cons_self
    · exact List.mem_cons_of_mem _ (ih hop)

private theorem Mnemonic.eq_of_any_mem_forms {m : Mnemonic} {form : List Kind} (h : form ∈ m.forms)
    (hany : .any ∈ form) :
    m = .movlpd ∨ m = .xorps := by
  have hscalar : ∀ forms : List (List Kind), forms.all (fun form => !form.contains .any) = true → form ∉ forms := by
    intro forms hforms hmem
    have hform := List.all_eq_true.1 hforms form hmem
    simp [hany] at hform
  cases m with
  | movlpd => exact .inl rfl
  | xorps => exact .inr rfl
  | multiply signed => cases signed <;> exact absurd h (hscalar _ rfl)
  | _ => exact absurd h (hscalar _ rfl)

/-- The offset of a far pointer is read with a sign. -/
theorem Fetch.eq_of_farPointer {prefixes : Prefixes} {opcode : UInt16} {rest : List UInt8} {ops : List Operand}
    (h : operands prefixes opcode .farPointer bytes = .ok (ops, rest)) :
    ∃ selector offset field, ops = [.imm selector .bits16, .imm offset (width prefixes .full)] ∧
      field = bytes.take (if prefixes.contains .operandSize then 2 else 4) ∧
      field.length = (if prefixes.contains .operandSize then 2 else 4) ∧ offset.toInt = signedNumber field := by
  obtain ⟨offset, middle, hoffset, h⟩ := bind_eq_ok.1 h
  obtain ⟨selector, middle', hselector, h⟩ := bind_eq_ok.1 h
  cases h
  obtain ⟨-, value', rfl⟩ := reads_constant _ _ _ _ _ hselector
  obtain ⟨value, field, rfl, hfield⟩ := toInt_fullConstant hoffset
  have hshort : width prefixes .full = .bits16 ↔ prefixes.contains .operandSize = true := by
    rw [width]
    split <;> simp_all
  simp only [hshort] at hfield
  exact ⟨value', value, field, rfl, hfield⟩

/-- Every decoded instruction is well-formed. -/
theorem wellFormed_of_decode (h : decode bytes address = .ok (i, n)) : ∃ e, Names bytes e ∧ i.WellFormed e := by
  obtain ⟨-, e, -, hnames, -⟩ := exists_names_of_decode h
  obtain ⟨hmnemonic, -, ops, rest, hops, hoperands⟩ := operands_of_decode h hnames
  have hentry : e ∈ Opcode.table := hnames.1.1
  obtain ⟨-, -, -, -, -, -, hconditional⟩ := decode_eq_ok h
  obtain ⟨-, hkinds⟩ := Fetch.reads_kinds _ _ _ _ _ _ hops
  refine ⟨e, hnames, ?_, ?_, ?_, hconditional, ?_⟩
  · intro op hop
    obtain ⟨-, hread⟩ := Fetch.reads_wellFormed_operands (Opcode.fitted_of_mem_table hentry) _ _ _ _ hops
    rw [hoperands] at hop
    exact hread op (Fetch.mem_of_mem_repeatFirst hop)
  · intro op hop hsize
    obtain ⟨form, hform, hkinds⟩ := formed_of_decode h
    exact Mnemonic.eq_of_any_mem_forms hform (Kind.any_mem_of_size? hkinds hop hsize)
  · intro hfirst
    rw [hoperands, if_pos hfirst]
    cases ops with
    | nil =>
      have hnil := List.length_eq_zero_iff.1 hkinds.length_eq
      exact absurd hnil (Opcode.kinds_ne_nil_of_mem_table hentry hfirst)
    | cons first others => exact ⟨first, others, rfl⟩
  · intro htransfer
    rw [hmnemonic] at htransfer
    obtain ⟨hfirst, hshape⟩ := Opcode.shape_of_mem_table hentry htransfer
    rw [hoperands, hfirst]
    rcases hshape with hfar | hone
    · rw [hfar] at hops
      obtain ⟨selector, offset, -, rfl, -⟩ := Fetch.eq_of_farPointer hops
      exact .inr ⟨hfar, selector, offset, _, rfl⟩
    · exact .inl (List.length_eq_one_iff.1 (hkinds.length_eq.symm.trans hone))

/-- The sum of a word at a scaled index without a base and of a negative byte has the word twice, and the byte is a
constant of 16 bits. -/
theorem wellFormed_of_decode_scaledSum :
    ∃ i e word, decode [0x66, 0x83, 0x04, 0x8d, 0x10, 0, 0, 0, 0x80] 0x1000 = .ok (i, 9) ∧ i.WellFormed e ∧
      e.readsFirst = true ∧ word = .scaledIndex none (some 1) 4 (some 16) .bits16 true ∧
      i.operands = [word, word, .imm (-128) .bits16] := by
  have hdecode : decode [0x66, 0x83, 0x04, 0x8d, 0x10, 0, 0, 0, 0x80] 0x1000 =
      .ok (⟨.operandSize, 0x83, .binary .add, [.scaledIndex none (some 1) 4 (some 16) .bits16 true,
        .scaledIndex none (some 1) 4 (some 16) .bits16 true, .imm (-128) .bits16], 0x1000, 0x1009⟩, 9) := by
    decide +kernel
  have hkeyed : Encoding.Keyed [0x66, 0x83, 0x04, 0x8d, 0x10, 0, 0, 0, 0x80]
      (Opcode.member 0x83 (.rmImm .full .signedByte) true 0 (.binary .add)) :=
    ⟨by decide +kernel, by decide +kernel⟩
  obtain ⟨e, hnames, hformed⟩ := wellFormed_of_decode hdecode
  have hfirst : e.readsFirst = true := by rw [hnames.1.unique hkeyed]; rfl
  exact ⟨_, e, _, hdecode, hformed, hfirst, rfl, rfl⟩

end

end Ia32Wasm.X86
