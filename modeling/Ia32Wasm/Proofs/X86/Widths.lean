import Ia32Wasm.Proofs.X86.Forms

/-!
# The widths of operands

The shape of an opcode says how wide its operands are, up to the operand-size prefix.  For an arithmetic operation the
table has few combinations of kinds and widths, and where the operation reads its destination the first operand stands
twice.

* `Shape.widths` are the widths that a shape asks for, and the operands have them (`Fetch.reads_widths`).
* `Mnemonic.sizedForms` lists the combinations for arithmetic operations, and there are no others
  (`Opcode.fitsSized_of_mem_table`); `sized_of_decode` says so for decoded instructions.
* An operand that can be read or written has a number and a scale that can be encoded (`Operand.Readable`,
  `Operand.Writable`).
-/

namespace Ia32Wasm.X86

/-- The scale of an address is a power of two that two bits encode. -/
def Operand.Scaled : Operand → Prop
  | .scaledIndex _ _ scale _ _ _ => scale = 1 ∨ scale = 2 ∨ scale = 4 ∨ scale = 8
  | _ => True

/-- The operand is a scalar of a width that instructions can read. -/
structure Operand.Readable (size : OperandSize) (op : Operand) : Prop where
  isValue : op.IsValue
  numbered : op.Numbered
  scaled : op.Scaled
  size?_eq : op.size? = some size

/-- The operand is a scalar of a width that instructions can read and write. -/
structure Operand.Writable (size : OperandSize) (op : Operand) : Prop extends op.Readable size where
  isPlace : op.IsPlace

namespace Opcode

/-- The width of a constant that is the only operand. -/
def Constant.width : Constant → Width
  | .unsignedByte => .byte
  | .word => .word
  | .signedByte | .full => .full

/-- The width of the target of a relative branch. -/
def Constant.relativeWidth : Constant → Width
  | .signedByte | .unsignedByte => .byte
  | .word => .word
  | .full => .full

/-- The widths of the operands that a shape asks for.  The width of a place that takes a segment register depends on
the ModRM byte. -/
def Shape.widths : Shape → Option (List Width)
  | .none | .exactModRM _ => some []
  | .rmReg w | .regRm w | .accImm w _ | .opRegImm w _ | .opRegAcc w | .accOffset w | .offsetAcc w | .move
      w | .fill w =>
    some [w, w]
  | .regRmWiden w => some [.full, w]
  | .rmSegment => Option.none
  | .segmentRm => some [.word, .word]
  | .rmImm w c => some [w, if c = .unsignedByte then .byte else w]
  | .regRmImm w _ => some [w, w, w]
  | .opReg w | .rm w => some [w]
  | .imm c => some [c.width]
  | .fixed _ => some [.byte]
  | .relative c => some [c.relativeWidth]
  | .rmOne w | .rmCl w => some [w, .byte]
  | .xmmRm | .rmXmm => some [.xmm, .xmm]
  | .farPointer => some [.word, .full]

end Opcode

namespace Fetch

open Opcode (Shape Width)

variable {size : OperandSize}

/-! ### Widths -/

private theorem reads_ofAbsolute {P : Operand → Prop} (prefixes : Prefixes) (size : OperandSize)
    {plain : UInt32 → Operand} (hsegment : ∀ segment value, P (.segment segment size true (some value)))
    (hplain : ∀ value, P (plain value)) : Reads (absolute prefixes size plain) P := by
  refine reads_bind (reads_number 4) fun value _ => ?_
  split
  · exact reads_pure (hsegment _ _)
  · exact reads_pure (hplain value)

/-- An operand of a ModRM byte has the size that is asked for. -/
theorem reads_sizeRm (prefixes : Prefixes) (m : ModRM) (size : OperandSize) :
    Reads (rm prefixes m size) fun op => op.size? = some size := by
  unfold rm
  split
  · exact reads_pure rfl
  · split
    · refine reads_bind reads_byte fun sib _ => ?_
      dsimp only
      split
      · exact reads_bind reads_signedWord fun _ _ => reads_pure rfl
      · exact reads_bind (reads_displacement m.mode) fun _ _ => reads_pure rfl
    · split
      · exact reads_ofAbsolute prefixes _ (fun _ _ => rfl) fun _ => rfl
      · exact reads_bind (reads_displacement m.mode) fun _ _ => reads_pure rfl

private theorem reads_sizeConstant (size : OperandSize) (c : Opcode.Constant) :
    Reads (constant size c) fun op => op.size? = some size :=
  reads_constant_of c fun _ => rfl

/-- The operand has a width under some prefixes. -/
def HasWidth (prefixes : Prefixes) (w : Width) (op : Operand) : Prop := op.size? = some (width prefixes w)

/-- The operands of an opcode have the widths that its shape asks for. -/
theorem reads_widths (prefixes : Prefixes) (opcode : UInt16) {shape : Shape} {widths : List Width}
    (h : shape.widths = some widths) :
    Reads (operands prefixes opcode shape) (List.Forall₂ (HasWidth prefixes) widths) := by
  have hwithRm : ∀ (size : ModRM → OperandSize) (f : ModRM → Operand → List Operand),
      (∀ m op, op.size? = some (size m) → List.Forall₂ (HasWidth prefixes) widths (f m op)) →
      Reads (do let m ← modRM; let op ← rm prefixes m (size m); return f m op)
        (List.Forall₂ (HasWidth prefixes) widths) :=
    fun size f hf => reads_bind reads_modRM fun m _ => reads_bind (reads_sizeRm prefixes m _) fun op hop =>
      reads_pure (hf m op hop)
  cases shape <;> cases h
  case none => exact reads_pure .nil
  case rmReg | rmXmm => exact hwithRm _ _ fun m op hop => .cons hop (.cons rfl .nil)
  case regRm | regRmWiden | segmentRm | xmmRm => exact hwithRm _ _ fun m op hop => .cons rfl (.cons hop .nil)
  case rm => exact hwithRm _ _ fun m op hop => .cons hop .nil
  case rmOne | rmCl => exact hwithRm _ _ fun m op hop => .cons hop (.cons rfl .nil)
  case accImm | opRegImm =>
    exact reads_bind (reads_sizeConstant _ _) fun op hop => reads_pure (.cons rfl (.cons hop .nil))
  case rmImm w c =>
    refine reads_bind reads_modRM fun m _ => reads_bind (reads_sizeRm prefixes m _) fun first hfirst => ?_
    refine reads_bind (reads_sizeConstant _ c) fun op hop => reads_pure (.cons hfirst (.cons ?_ .nil))
    rw [HasWidth, hop]
    split <;> rfl
  case regRmImm =>
    refine reads_bind reads_modRM fun m _ => reads_bind (reads_sizeRm prefixes m _) fun first hfirst => ?_
    exact reads_bind (reads_sizeConstant _ _) fun op hop => reads_pure (.cons rfl (.cons hfirst (.cons hop .nil)))
  case opReg => exact reads_pure (.cons rfl .nil)
  case opRegAcc | move | fill => exact reads_pure (.cons rfl (.cons rfl .nil))
  case imm c =>
    refine reads_bind (reads_sizeConstant _ c) fun op hop => reads_pure (.cons ?_ .nil)
    rw [HasWidth, hop]
    cases c <;> rfl
  case fixed => exact reads_pure (.cons rfl .nil)
  case relative c =>
    refine reads_bind (reads_sizeConstant _ c) fun op hop => reads_pure (.cons ?_ .nil)
    rw [HasWidth, hop]
    cases c <;> rfl
  case accOffset =>
    exact reads_bind (reads_ofAbsolute prefixes _ (fun _ _ => rfl) fun _ => rfl) fun op hop =>
      reads_pure (.cons rfl (.cons hop .nil))
  case offsetAcc =>
    exact reads_bind (reads_ofAbsolute prefixes _ (fun _ _ => rfl) fun _ => rfl) fun op hop =>
      reads_pure (.cons hop (.cons rfl .nil))
  case farPointer =>
    refine reads_bind (reads_sizeConstant _ _) fun offset hoffset => ?_
    exact reads_bind (reads_sizeConstant _ _) fun selector hselector =>
      reads_pure (.cons hselector (.cons hoffset .nil))
  case exactModRM =>
    refine reads_bind reads_byte fun b _ => ?_
    split
    · exact reads_pure .nil
    · exact reads_throw _

/-! ### Scales -/

theorem scaled_shiftLeft (sib : UInt8) (base index : Option UInt8) (displacement : Option Int32)
    (size : OperandSize) :
    (Operand.scaledIndex base index ((1 : UInt8) <<< (sib >>> 6)) displacement size true).Scaled := by
  have hlt : (sib >>> 6).toNat < 4 := by
    have hshift : (sib >>> 6).toNat = sib.toNat / 64 := by
      rw [UInt8.toNat_shiftRight, Nat.shiftRight_eq_div_pow]
      rfl
    have hsib := sib.toNat_lt
    omega
  have hall : ∀ k < 4, (1 : UInt8) <<< UInt8.ofNat k = 1 ∨ (1 : UInt8) <<< UInt8.ofNat k = 2 ∨
      (1 : UInt8) <<< UInt8.ofNat k = 4 ∨ (1 : UInt8) <<< UInt8.ofNat k = 8 := by decide
  have hscale := hall _ hlt
  rwa [UInt8.ofNat_toNat] at hscale

private theorem reads_scaledRm (prefixes : Prefixes) (m : ModRM) (size : OperandSize) :
    Reads (rm prefixes m size) Operand.Scaled := by
  unfold rm
  split
  · exact reads_pure trivial
  · split
    · refine reads_bind reads_byte fun sib _ => ?_
      dsimp only
      split
      · exact reads_bind reads_signedWord fun _ _ => reads_pure (scaled_shiftLeft ..)
      · exact reads_bind (reads_displacement m.mode) fun _ _ => reads_pure (scaled_shiftLeft ..)
    · split
      · exact reads_ofAbsolute prefixes size (fun _ _ => trivial) fun _ => trivial
      · exact reads_bind (reads_displacement m.mode) fun _ _ => reads_pure trivial

/-- Index registers are scaled by powers of two. -/
theorem reads_scaled (prefixes : Prefixes) (opcode : UInt16) (shape : Shape) :
    Reads (operands prefixes opcode shape) fun ops => ∀ op ∈ ops, op.Scaled :=
  reads_operands_of (fun _ _ _ => trivial) (fun _ _ _ => trivial) (fun _ _ => trivial)
    (fun x _ => reads_constant_of x.2 fun _ => trivial) (fun _ _ => trivial)
    (fun size => reads_ofAbsolute prefixes size (fun _ _ => trivial) fun _ => trivial)
    (fun m size _ => reads_scaledRm prefixes m size) opcode

end Fetch

/-! ### Arithmetic operations -/

/-- The operands of an operation by kind and width, and whether the first is repeated as a source. -/
structure SizedForm where
  repeatsFirst : Bool
  operands : List (Kind × Opcode.Width)

/-- The operation has a destination. -/
def BinaryOp.writes : BinaryOp → Bool
  | .cmp | .test => false
  | _ => true

/-- The widths of scalar arithmetic. -/
def scalarWidths : List Opcode.Width := [.byte, .full]

/-- The sized forms that an arithmetic operation is encoded in. -/
def Mnemonic.sizedForms : Mnemonic → List SizedForm
  | .binary op => scalarWidths.map fun w => ⟨op.writes, [(.place, w), (.value, w)]⟩
  | .unary _ | .divide _ => scalarWidths.map fun w => ⟨false, [(.place, w)]⟩
  | .shift _ => scalarWidths.map fun w => ⟨true, [(.place, w), (.value, .byte)]⟩
  | .cmpxchg => scalarWidths.map fun w => ⟨false, [(.place, w), (.place, w)]⟩
  | .multiply false => scalarWidths.map fun w => ⟨false, [(.place, w)]⟩
  | .multiply true => (scalarWidths.map fun w => ⟨false, [(.place, w)]⟩) ++
    [⟨true, [(.place, .full), (.place, .full)]⟩, ⟨false, [(.place, .full), (.place, .full), (.value, .full)]⟩]
  | _ => []

namespace Opcode

/-- The entry has a sized form. -/
def Entry.fitsSized (e : Entry) (form : SizedForm) : Bool :=
  e.readsFirst == form.repeatsFirst && e.shape.kinds.isEqv (form.operands.map Prod.fst) Kind.fits &&
    e.shape.widths == some (form.operands.map Prod.snd)

/-- Every entry of an operation with widths is in one of its forms. -/
theorem fitsSized_of_mem_table {entry : Entry} (h : entry ∈ table) (hforms : entry.mnemonic.sizedForms ≠ []) :
    ∃ form ∈ entry.mnemonic.sizedForms, entry.fitsSized form = true := by
  have hall : table.all (fun e => e.mnemonic.sizedForms.isEmpty || e.mnemonic.sizedForms.any e.fitsSized) = true := by
    decide +kernel
  have hentry := List.all_eq_true.1 hall entry h
  rw [Bool.or_eq_true, List.isEmpty_iff] at hentry
  exact List.any_eq_true.1 (hentry.resolve_left hforms)

end Opcode

/-! ### Decoded instructions -/

/-- The operand is of a kind and a size, with a number and a scale that can be encoded. -/
structure Operand.Sized (k : Kind) (size : OperandSize) (op : Operand) : Prop where
  is : k.Is op
  numbered : op.Numbered
  scaled : op.Scaled
  size?_eq : op.size? = some size

theorem Operand.Sized.writable {size : OperandSize} {op : Operand} (h : op.Sized .place size) : op.Writable size :=
  ⟨⟨.inl h.is, h.numbered, h.scaled, h.size?_eq⟩, h.is⟩

theorem Operand.Sized.readable {size : OperandSize} {op : Operand} (h : op.Sized .value size) : op.Readable size :=
  ⟨h.is, h.numbered, h.scaled, h.size?_eq⟩

/-- The operands are of the kinds and widths of a form. -/
def AreSized (prefixes : Prefixes) : List (Kind × Opcode.Width) → List Operand → Prop :=
  List.Forall₂ fun x op => op.Sized x.1 (Fetch.width prefixes x.2)

private theorem areSized_of_forall₂ {prefixes : Prefixes} {form : List (Kind × Opcode.Width)} {ops : List Operand}
    (hkinds : List.Forall₂ Kind.Is (form.map Prod.fst) ops)
    (hwidths : List.Forall₂ (Fetch.HasWidth prefixes) (form.map Prod.snd) ops)
    (hnumbered : ∀ op ∈ ops, op.Numbered) (hscaled : ∀ op ∈ ops, op.Scaled) : AreSized prefixes form ops := by
  induction form generalizing ops with
  | nil =>
    cases hkinds
    exact .nil
  | cons x form ih =>
    cases hkinds with
    | cons hkind hkinds =>
      cases hwidths with
      | cons hwidth hwidths =>
        obtain ⟨hnumber, hnumbered⟩ := List.forall_mem_cons.1 hnumbered
        obtain ⟨hscale, hscaled⟩ := List.forall_mem_cons.1 hscaled
        exact .cons ⟨hkind, hnumber, hscale, hwidth⟩ (ih hkinds hwidths hnumbered hscaled)

/-- The operands that are read for an opcode that fits a form are of its kinds and widths. -/
theorem areSized_of_fitsSized {prefixes : Prefixes} {opcode : UInt16} {entry : Opcode.Entry} {form : SizedForm}
    {behind rest : List UInt8} {ops : List Operand} (hfits : entry.fitsSized form = true)
    (hread : Fetch.operands prefixes opcode entry.shape behind = .ok (ops, rest)) :
    entry.readsFirst = form.repeatsFirst ∧ AreSized prefixes form.operands ops := by
  simp only [Opcode.Entry.fitsSized, Bool.and_eq_true, beq_iff_eq] at hfits
  obtain ⟨⟨hfirst, hkinds⟩, hwidths⟩ := hfits
  obtain ⟨-, hnumbered⟩ := Fetch.reads_operands _ _ _ _ _ _ hread
  obtain ⟨-, hscaled⟩ := Fetch.reads_scaled _ _ _ _ _ _ hread
  obtain ⟨-, hkinds'⟩ := Fetch.reads_kinds _ _ _ _ _ _ hread
  obtain ⟨-, hwidths'⟩ := Fetch.reads_widths _ _ hwidths _ _ _ hread
  exact ⟨hfirst, areSized_of_forall₂ (Kind.forall₂_of_fits hkinds hkinds') hwidths' hnumbered hscaled⟩

theorem areSized_one {prefixes : Prefixes} {k : Kind} {w : Opcode.Width} {ops : List Operand}
    (h : AreSized prefixes [(k, w)] ops) : ∃ op, ops = [op] ∧ op.Sized k (Fetch.width prefixes w) := by
  obtain ⟨op, rest, hop, hrest, rfl⟩ := List.forall₂_cons_left_iff.1 h
  cases hrest
  exact ⟨op, rfl, hop⟩

/-- The first operand and the rest of a form. -/
theorem areSized_cons {prefixes : Prefixes} {k : Kind} {w : Opcode.Width} {form : List (Kind × Opcode.Width)}
    {ops : List Operand} (h : AreSized prefixes ((k, w) :: form) ops) :
    ∃ op rest, ops = op :: rest ∧ op.Sized k (Fetch.width prefixes w) ∧ AreSized prefixes form rest := by
  obtain ⟨op, rest, hop, hrest, rfl⟩ := List.forall₂_cons_left_iff.1 h
  exact ⟨op, rest, rfl, hop, hrest⟩

section Decoded

variable {bytes : List UInt8} {address : UInt32} {i : Instruction} {n : Nat}

/-- The operands of a decoded arithmetic instruction are in one of the sized forms of its operation. -/
theorem sized_of_decode {mnemonic : Mnemonic} (h : decode bytes address = .ok (i, n)) (hm : i.mnemonic = mnemonic)
    (hforms : mnemonic.sizedForms ≠ []) :
    ∃ form ∈ mnemonic.sizedForms, ∃ ops, AreSized i.prefixes form.operands ops ∧
      i.operands = if form.repeatsFirst then Fetch.repeatFirst ops else ops := by
  obtain ⟨rest, hread⟩ := instruction_of_decode h
  obtain ⟨entry, hentry, behind, ops, -, hread, hmnemonic, hoperands⟩ := Fetch.exists_entry_of_instruction hread
  obtain rfl : mnemonic = entry.mnemonic := hm.symm.trans hmnemonic
  obtain ⟨form, hform, hfits⟩ := Opcode.fitsSized_of_mem_table hentry hforms
  obtain ⟨hfirst, hops⟩ := areSized_of_fitsSized hfits hread
  rw [hoperands, hfirst]
  exact ⟨form, hform, ops, hops, rfl⟩

/-- The first operand of an operation is repeated if the result is stored. -/
theorem operands_of_binary {op : BinaryOp} (h : decode bytes address = .ok (i, n)) (hm : i.mnemonic = .binary op) :
    ∃ size first second, first.Writable size ∧ second.Readable size ∧
      i.operands = if op.writes then [first, first, second] else [first, second] := by
  obtain ⟨form, hform, ops, hops, hoperands⟩ := sized_of_decode h hm (List.cons_ne_nil _ _)
  obtain ⟨w, -, rfl⟩ := List.mem_map.1 hform
  obtain ⟨first, rest, rfl, hfirst, hrest⟩ := areSized_cons hops
  obtain ⟨second, rfl, hsecond⟩ := areSized_one hrest
  exact ⟨_, first, second, hfirst.writable, hsecond.readable, hoperands⟩

/-- An operation that is encoded with one place has one operand, which can be written. -/
private theorem operands_of_place {mnemonic : Mnemonic} (h : decode bytes address = .ok (i, n))
    (hm : i.mnemonic = mnemonic) (hforms : mnemonic.sizedForms = scalarWidths.map fun w => ⟨false, [(.place, w)]⟩) :
    ∃ size operand, operand.Writable size ∧ i.operands = [operand] := by
  obtain ⟨form, hform, ops, hops, hoperands⟩ := sized_of_decode h hm (by rw [hforms]; exact List.cons_ne_nil _ _)
  rw [hforms] at hform
  obtain ⟨w, -, rfl⟩ := List.mem_map.1 hform
  obtain ⟨operand, rfl, hoperand⟩ := areSized_one hops
  exact ⟨_, operand, hoperand.writable, hoperands⟩

theorem operands_of_unary {op : UnaryOp} (h : decode bytes address = .ok (i, n)) (hm : i.mnemonic = .unary op) :
    ∃ size operand, operand.Writable size ∧ i.operands = [operand] :=
  operands_of_place h hm rfl

theorem operands_of_divide {signed : Bool} (h : decode bytes address = .ok (i, n))
    (hm : i.mnemonic = .divide signed) :
    ∃ size divisor, divisor.Writable size ∧ i.operands = [divisor] :=
  operands_of_place h hm rfl

theorem operands_of_cmpxchg (h : decode bytes address = .ok (i, n)) (hm : i.mnemonic = .cmpxchg) :
    ∃ size destination source, destination.Writable size ∧ source.Writable size ∧
      i.operands = [destination, source] := by
  obtain ⟨form, hform, ops, hops, hoperands⟩ := sized_of_decode h hm (List.cons_ne_nil _ _)
  obtain ⟨w, -, rfl⟩ := List.mem_map.1 hform
  obtain ⟨destination, rest, rfl, hdestination, hrest⟩ := areSized_cons hops
  obtain ⟨source, rfl, hsource⟩ := areSized_one hrest
  exact ⟨_, destination, source, hdestination.writable, hsource.writable, hoperands⟩

/-- A shift is by a byte. -/
theorem operands_of_shift {op : ShiftOp} (h : decode bytes address = .ok (i, n)) (hm : i.mnemonic = .shift op) :
    ∃ size destination count, destination.Writable size ∧ count.Readable .bits8 ∧
      i.operands = [destination, destination, count] := by
  obtain ⟨form, hform, ops, hops, hoperands⟩ := sized_of_decode h hm (List.cons_ne_nil _ _)
  obtain ⟨w, -, rfl⟩ := List.mem_map.1 hform
  obtain ⟨destination, rest, rfl, hdestination, hrest⟩ := areSized_cons hops
  obtain ⟨count, rfl, hcount⟩ := areSized_one hrest
  exact ⟨_, destination, count, hdestination.writable, hcount.readable, hoperands⟩

/-- A multiplication has its only operand and the accumulator as sources; a signed one can also have a destination and
two sources. -/
theorem operands_of_multiply {signed : Bool} (h : decode bytes address = .ok (i, n))
    (hm : i.mnemonic = .multiply signed) :
    (∃ size source, source.Writable size ∧ i.operands = [source]) ∨
      signed = true ∧ ∃ size destination lhs rhs, destination.Writable size ∧ lhs.Readable size ∧ rhs.Readable size ∧
        i.operands = [destination, lhs, rhs] := by
  have hone : ∀ {ops w}, AreSized i.prefixes [(.place, w)] ops → i.operands = ops →
      ∃ size source, Operand.Writable size source ∧ i.operands = [source] := by
    intro ops w hops hoperands
    obtain ⟨source, rfl, hsource⟩ := areSized_one hops
    exact ⟨_, source, hsource.writable, hoperands⟩
  cases signed with
  | false =>
    obtain ⟨form, hform, ops, hops, hoperands⟩ := sized_of_decode h hm (List.cons_ne_nil _ _)
    obtain ⟨w, -, rfl⟩ := List.mem_map.1 hform
    exact .inl (hone hops hoperands)
  | true =>
    obtain ⟨form, hform, ops, hops, hoperands⟩ := sized_of_decode h hm (List.cons_ne_nil _ _)
    rcases List.mem_append.1 hform with hform | hform
    · obtain ⟨w, -, rfl⟩ := List.mem_map.1 hform
      exact .inl (hone hops hoperands)
    · rcases List.mem_pair.1 hform with rfl | rfl
      · obtain ⟨destination, rest, rfl, hdestination, hrest⟩ := areSized_cons hops
        obtain ⟨source, rfl, hsource⟩ := areSized_one hrest
        exact .inr ⟨rfl, _, destination, destination, source, hdestination.writable, hdestination.writable.toReadable,
          hsource.writable.toReadable, hoperands⟩
      · obtain ⟨destination, rest, rfl, hdestination, hrest⟩ := areSized_cons hops
        obtain ⟨lhs, rest, rfl, hlhs, hrest⟩ := areSized_cons hrest
        obtain ⟨rhs, rfl, hrhs⟩ := areSized_one hrest
        exact .inr ⟨rfl, _, destination, lhs, rhs, hdestination.writable, hlhs.writable.toReadable, hrhs.readable,
          hoperands⟩

end Decoded

end Ia32Wasm.X86
