import Ia32Wasm.Proofs.X86.Reading
import Mathlib.Data.List.Forall2

/-!
# The forms of decoded instructions

Every operation is encoded with operands of certain kinds only.  A kind leaves open the width, which a prefix can
change, and whether a place is a register or memory, which is up to the ModRM byte.

* The shape of an opcode determines the kinds of its operands (`reads_kinds`).
* `Mnemonic.forms` lists the kinds that each operation takes.  The opcode table has no others (`fits_of_mem_table`),
  so every decoded instruction has one of its forms (`formed_of_decode`).
-/

namespace Ia32Wasm.X86

/-- What an operand is: a scalar place, a scalar constant, either of these, a segment register, or anything. -/
inductive Kind where
  | place
  | constant
  | value
  | segment
  | any
deriving DecidableEq, Repr

/-- The operand is a register or memory of a scalar width; memory relative to a segment register has one of the six
that there are. -/
def Operand.IsPlace : Operand → Prop
  | .register _ size _ _ | .immediate _ size true _ | .scaledIndex _ _ _ _ size true | .offset _ size =>
    size ≠ .bits128
  | .segment index size true _ => size ≠ .bits128 ∧ index.toNat < 6
  | _ => False

/-- The operand is a constant of a scalar width. -/
def Operand.IsConstant (op : Operand) : Prop := ∃ value size, op = .imm value size ∧ size ≠ .bits128

/-- The operand can be read. -/
def Operand.IsValue (op : Operand) : Prop := op.IsPlace ∨ op.IsConstant

theorem Operand.IsPlace.isValue {op : Operand} (h : op.IsPlace) : op.IsValue := .inl h

theorem Operand.isPlace_reg {size : OperandSize} (index : UInt8) (h : size ≠ .bits128) :
    (Operand.reg index size).IsPlace :=
  h

namespace Kind

/-- The operand is of a kind.  Segment registers have three bits for their number. -/
def Is : Kind → Operand → Prop
  | .place, op => op.IsPlace
  | .constant, op => op.IsConstant
  | .value, op => op.IsValue
  | .segment, op => ∃ index : UInt8, op = .segment index .bits16 false none ∧ index.toNat < 8
  | .any, _ => True

/-- Operands of the first kind are of the second. -/
def fits : Kind → Kind → Bool
  | .place, .value | .constant, .value => true
  | k, k' => k = k'

private theorem is_of_fits {k k' : Kind} {op : Operand} (h : k.fits k' = true) (hop : k.Is op) : k'.Is op := by
  unfold fits at h
  split at h
  · exact .inl hop
  · exact .inr hop
  · rwa [← of_decide_eq_true h]

/-- Operands of kinds that fit a form are in that form. -/
theorem forall₂_of_fits {kinds form : List Kind} {ops : List Operand} (h : kinds.isEqv form fits = true)
    (hops : List.Forall₂ Is kinds ops) : List.Forall₂ Is form ops := by
  induction hops generalizing form with
  | nil =>
    cases form with
    | nil => exact .nil
    | cons k form => cases h
  | cons hop _ ih =>
    cases form with
    | nil => cases h
    | cons k form =>
      obtain ⟨hfirst, hrest⟩ := Bool.and_eq_true_iff.1 h
      exact .cons (is_of_fits hfirst hop) (ih hrest)

section

variable {k k' k'' : Kind} {ops : List Operand}

theorem eq_nil (h : List.Forall₂ Is [] ops) : ops = [] := by
  cases h
  rfl

theorem eq_one (h : List.Forall₂ Is [k] ops) : ∃ op, ops = [op] ∧ k.Is op := by
  obtain ⟨op, rest, hop, hrest, rfl⟩ := List.forall₂_cons_left_iff.1 h
  exact ⟨op, by rw [eq_nil hrest], hop⟩

theorem eq_two (h : List.Forall₂ Is [k, k'] ops) : ∃ op op', ops = [op, op'] ∧ k.Is op ∧ k'.Is op' := by
  obtain ⟨op, rest, hop, hrest, rfl⟩ := List.forall₂_cons_left_iff.1 h
  obtain ⟨op', rfl, hop'⟩ := eq_one hrest
  exact ⟨op, op', rfl, hop, hop'⟩

theorem eq_three (h : List.Forall₂ Is [k, k', k''] ops) :
    ∃ op op' op'', ops = [op, op', op''] ∧ k.Is op ∧ k'.Is op' ∧ k''.Is op'' := by
  obtain ⟨op, rest, hop, hrest, rfl⟩ := List.forall₂_cons_left_iff.1 h
  obtain ⟨op', op'', rfl, hop', hop''⟩ := eq_two hrest
  exact ⟨op, op', op'', rfl, hop, hop', hop''⟩

end

end Kind

/-- The forms that an operation is encoded in, by the kinds of its operands. -/
def Mnemonic.forms : Mnemonic → List (List Kind)
  | .binary _ => [[.place, .place, .value], [.place, .value]]
  | .shift _ => [[.place, .place, .value]]
  | .multiply true => [[.place, .value, .value], [.place]]
  | .multiply false | .divide _ | .unary _ | .set _ | .pop => [[.place]]
  | .mov => [[.place, .value], [.segment, .place], [.place, .segment]]
  | .stos => [[.place, .value]]
  | .widen _ | .lea | .xchg | .cmpxchg | .movs => [[.place, .place]]
  | .push => [[.value]]
  | .pushad | .popad | .pushfd | .popfd | .leave | .cdq | .cld | .std | .nop | .into | .cpuid | .xgetbv => [[]]
  | .movlpd => [[.any, .any]]
  | .xorps => [[.any, .any, .any]]
  | .ret => [[], [.constant]]
  | .int | .jumpIf _ | .jecxz => [[.constant]]
  | .jump | .call => [[.value], [.constant, .constant]]
  | .importCall | .importJump | .dynamicCall | .dynamicJump => []

/-- The instruction has one of the forms of its operation. -/
def Instruction.Formed (i : Instruction) : Prop := ∃ form ∈ i.mnemonic.forms, List.Forall₂ Kind.Is form i.operands

namespace Opcode

/-- The kind of a place of some width. -/
def Width.place (w : Width) : Kind := if w = .xmm then .any else .place

/-- The kind of a constant of some width. -/
def Width.constant (w : Width) : Kind := if w = .xmm then .any else .constant

/-- The kinds of the operands that a shape asks for. -/
def Shape.kinds : Shape → List Kind
  | .none | .exactModRM _ => []
  | .rmReg w | .regRm w | .opRegAcc w | .accOffset w | .offsetAcc w | .move w | .fill w => [w.place, w.place]
  | .regRmWiden w => [.place, w.place]
  | .rmSegment => [.place, .segment]
  | .segmentRm => [.segment, .place]
  | .accImm w _ | .opRegImm w _ | .rmImm w _ => [w.place, w.constant]
  | .regRmImm w _ => [w.place, w.place, w.constant]
  | .opReg w | .rm w => [w.place]
  | .imm _ | .fixed _ | .relative _ => [.constant]
  | .rmOne w => [w.place, .constant]
  | .rmCl w => [w.place, .place]
  | .xmmRm | .rmXmm => [.any, .any]
  | .farPointer => [.constant, .constant]

/-- The kinds of the operands of an entry. -/
def Entry.kinds (e : Entry) : List Kind :=
  match e.readsFirst, e.shape.kinds with
  | true, first :: rest => first :: first :: rest
  | _, kinds => kinds

/-- Every entry of the table is in one of the forms of its operation. -/
theorem fits_of_mem_table {entry : Entry} (h : entry ∈ table) :
    ∃ form ∈ entry.mnemonic.forms, entry.kinds.isEqv form Kind.fits = true := by
  have hall : table.all (fun e => e.mnemonic.forms.any fun form => e.kinds.isEqv form Kind.fits) = true := by
    decide +kernel
  exact List.any_eq_true.1 (List.all_eq_true.1 hall entry h)

end Opcode

namespace Fetch

open Opcode (Shape Width)

variable {size : OperandSize}

/-! ### Places and constants -/

private theorem width_ne_bits128 (prefixes : Prefixes) {w : Width} (h : w ≠ .xmm) : width prefixes w ≠ .bits128 := by
  cases w with
  | xmm => exact absurd rfl h
  | full =>
    rw [width]
    split <;> simp
  | _ => simp [width]

private theorem is_place (prefixes : Prefixes) {w : Width} {op : Operand}
    (h : width prefixes w ≠ .bits128 → op.IsPlace) : w.place.Is op := by
  unfold Width.place
  split
  · trivial
  · exact h (width_ne_bits128 prefixes ‹_›)

private theorem is_constant (size : OperandSize) {w : Width} (value : Int64) (h : w ≠ .xmm → size ≠ .bits128) :
    w.constant.Is (.imm value size) := by
  unfold Width.constant
  split
  · trivial
  · exact ⟨value, size, rfl, h ‹_›⟩

private theorem reads_scalarAbsolute (prefixes : Prefixes) {plain : UInt32 → Operand} (hsize : size ≠ .bits128)
    (h : ∀ value, (plain value).IsPlace) : Reads (absolute prefixes size plain) Operand.IsPlace := by
  refine reads_bind (reads_number 4) fun value _ => ?_
  split
  · rename_i segment hsegment
    have hlt : segment.toNat < 6 := by
      rcases Prefixes.eq_of_baseSegment? hsegment with rfl | rfl <;> decide
    exact reads_pure ⟨hsize, hlt⟩
  · exact reads_pure (h value)

private theorem reads_scalarIndex (mode : UInt8) (hsize : size ≠ .bits128) :
    Reads (scaledIndex mode size) Operand.IsPlace := by
  refine reads_bind reads_byte fun sib _ => ?_
  dsimp only
  split
  · exact reads_bind reads_signedWord fun _ _ => reads_pure hsize
  · exact reads_bind (reads_displacement mode) fun _ _ => reads_pure hsize

private theorem reads_scalarRm (prefixes : Prefixes) (m : ModRM) (hsize : size ≠ .bits128) :
    Reads (rm prefixes m size) Operand.IsPlace := by
  unfold rm
  split
  · exact reads_pure hsize
  · split
    · exact reads_scalarIndex m.mode hsize
    · split
      · exact reads_scalarAbsolute prefixes hsize fun _ => hsize
      · exact reads_bind (reads_displacement m.mode) fun _ _ => reads_pure hsize

private theorem reads_place {prefixes : Prefixes} {m : ModRM} (w : Width) (hm : m.rm.toNat < 8) :
    Reads (rm prefixes m (width prefixes w)) w.place.Is := by
  by_cases hw : w = .xmm
  · subst hw
    exact (reads_rm prefixes _ hm).imp fun _ _ => trivial
  · exact (reads_scalarRm prefixes m (width_ne_bits128 prefixes hw)).imp fun _ hop => is_place prefixes fun _ => hop

private theorem reads_offsetPlace (prefixes : Prefixes) (w : Width) :
    Reads (memoryOffset prefixes (width prefixes w)) w.place.Is := by
  by_cases hw : w = .xmm
  · have hreads : Reads (memoryOffset prefixes (width prefixes w)) Operand.Numbered :=
      reads_absolute prefixes _ fun _ => trivial
    subst hw
    exact hreads.imp fun _ _ => trivial
  · have hsize : width prefixes w ≠ .bits128 := width_ne_bits128 prefixes hw
    have hreads : Reads (memoryOffset prefixes (width prefixes w)) Operand.IsPlace :=
      reads_scalarAbsolute prefixes hsize fun _ => hsize
    exact hreads.imp fun _ hop => is_place prefixes fun _ => hop

private theorem reads_constantKind {w : Width} (c : Opcode.Constant) (h : w ≠ .xmm → size ≠ .bits128) :
    Reads (constant size c) w.constant.Is :=
  reads_constant_of c fun value => is_constant size value h

/-! ### Shapes -/

/-- Operands that are made from a ModRM byte and its register or memory. -/
private theorem reads_withPlace {prefixes : Prefixes} {size : ModRM → OperandSize} {k : Kind}
    {f : ModRM → Operand → List Operand} {kinds : List Kind}
    (hrm : ∀ m : ModRM, m.rm.toNat < 8 → Reads (rm prefixes m (size m)) k.Is)
    (hf : ∀ m op, m.reg.toNat < 8 → k.Is op → List.Forall₂ Kind.Is kinds (f m op)) :
    Reads (do let m ← modRM; let op ← rm prefixes m (size m); return f m op) (List.Forall₂ Kind.Is kinds) :=
  reads_bind reads_modRM fun m hm => reads_bind (hrm m hm.2) fun op hop => reads_pure (hf m op hm.1 hop)

/-- The operands of an opcode are of the kinds that its shape asks for. -/
theorem reads_kinds (prefixes : Prefixes) (opcode : UInt16) (shape : Shape) :
    Reads (operands prefixes opcode shape) (List.Forall₂ Kind.Is shape.kinds) := by
  have hreg : ∀ (w : Width) (index : UInt8), w.place.Is (.reg index (width prefixes w)) :=
    fun _ _ => is_place prefixes id
  have hpointer : ∀ (w : Width) (index : UInt8), w.place.Is (.pointer index (width prefixes w)) :=
    fun _ _ => is_place prefixes id
  have hcl : Kind.place.Is (.reg 1 .bits8) := fun h => by cases h
  have hfull : width prefixes .full ≠ .bits128 := width_ne_bits128 prefixes (by simp)
  have hscalar : ∀ w : Width, w ≠ .xmm → width prefixes w ≠ .bits128 := fun _ => width_ne_bits128 prefixes
  have hconstant : ∀ size c, size ≠ .bits128 → Reads (constant size c) Kind.constant.Is :=
    fun size c hsize => reads_constantKind (w := .full) c fun _ => hsize
  cases shape with
  | none => exact reads_pure .nil
  | rmReg w => exact reads_withPlace (fun _ => reads_place w) fun m op _ hop => .cons hop (.cons (hreg w m.reg) .nil)
  | regRm w => exact reads_withPlace (fun _ => reads_place w) fun m op _ hop => .cons (hreg w m.reg) (.cons hop .nil)
  | regRmWiden w => exact reads_withPlace (fun _ => reads_place w) fun m op _ hop => .cons hfull (.cons hop .nil)
  | rmSegment =>
    refine reads_withPlace (k := .place) (fun m _ => reads_scalarRm prefixes m ?_) fun m op hm hop =>
      .cons hop (.cons ⟨m.reg, rfl, hm⟩ .nil)
    split
    · exact hfull
    · simp
  | segmentRm =>
    exact reads_withPlace (k := .place) (fun m _ => reads_scalarRm prefixes m (by simp)) fun m op hm hop =>
      .cons ⟨m.reg, rfl, hm⟩ (.cons hop .nil)
  | accImm w c =>
    exact reads_bind (reads_constantKind c (hscalar w)) fun op hop => reads_pure (.cons (hreg w 0) (.cons hop .nil))
  | rmImm w c =>
    refine reads_bind reads_modRM fun m hm => reads_bind (reads_place w hm.2) fun first hfirst => ?_
    refine reads_bind (reads_constantKind c fun hw => ?_) fun op hop => reads_pure (.cons hfirst (.cons hop .nil))
    split
    · simp
    · exact hscalar w hw
  | regRmImm w c =>
    refine reads_bind reads_modRM fun m hm => reads_bind (reads_place w hm.2) fun first hfirst => ?_
    exact reads_bind (reads_constantKind c (hscalar w)) fun op hop =>
      reads_pure (.cons (hreg w m.reg) (.cons hfirst (.cons hop .nil)))
  | opReg w => exact reads_pure (.cons (hreg w _) .nil)
  | opRegImm w c =>
    exact reads_bind (reads_constantKind c (hscalar w)) fun op hop => reads_pure (.cons (hreg w _) (.cons hop .nil))
  | opRegAcc w => exact reads_pure (.cons (hreg w _) (.cons (hreg w 0) .nil))
  | imm c =>
    refine reads_bind (hconstant _ c ?_) fun op hop => reads_pure (.cons hop .nil)
    cases c <;> simp [constantSize, hfull]
  | fixed value => exact reads_pure (.cons ⟨value, .bits8, rfl, by simp⟩ .nil)
  | relative c =>
    refine reads_bind (hconstant _ c ?_) fun op hop => reads_pure (.cons hop .nil)
    cases c <;> simp [relativeSize, hfull]
  | rm w => exact reads_withPlace (fun _ => reads_place w) fun m op _ hop => .cons hop .nil
  | rmOne w =>
    exact reads_withPlace (fun _ => reads_place w) fun m op _ hop => .cons hop (.cons ⟨1, .bits8, rfl, by simp⟩ .nil)
  | rmCl w => exact reads_withPlace (fun _ => reads_place w) fun m op _ hop => .cons hop (.cons hcl .nil)
  | accOffset w =>
    exact reads_bind (reads_offsetPlace prefixes w) fun op hop => reads_pure (.cons (hreg w 0) (.cons hop .nil))
  | offsetAcc w =>
    exact reads_bind (reads_offsetPlace prefixes w) fun op hop => reads_pure (.cons hop (.cons (hreg w 0) .nil))
  | move w => exact reads_pure (.cons (hpointer w 7) (.cons (hpointer w 6) .nil))
  | fill w => exact reads_pure (.cons (hpointer w 7) (.cons (hreg w 0) .nil))
  | xmmRm | rmXmm =>
    exact reads_withPlace (fun _ => reads_place .xmm) fun m op _ _ => .cons trivial (.cons trivial .nil)
  | farPointer =>
    refine reads_bind (hconstant _ .full hfull) fun offset hoffset => ?_
    exact reads_bind (hconstant .bits16 .word (by simp)) fun selector hselector =>
      reads_pure (.cons hselector (.cons hoffset .nil))
  | exactModRM byte =>
    refine reads_bind reads_byte fun b _ => ?_
    split
    · exact reads_pure .nil
    · exact reads_throw _

end Fetch

/-- The operands of an entry are of its kinds when those that are read are of the kinds of its shape. -/
theorem Opcode.Entry.forall₂_kinds {e : Opcode.Entry} {ops : List Operand}
    (h : List.Forall₂ Kind.Is e.shape.kinds ops) :
    List.Forall₂ Kind.Is e.kinds (if e.readsFirst then Fetch.repeatFirst ops else ops) := by
  unfold Opcode.Entry.kinds
  generalize e.shape.kinds = kinds at h
  cases h with
  | nil => cases e.readsFirst <;> exact .nil
  | cons hfirst hrest =>
    cases e.readsFirst with
    | false => exact .cons hfirst hrest
    | true => exact .cons hfirst (.cons hfirst hrest)

/-- The operands of a decoded instruction are in one of the forms of its operation. -/
theorem formed_of_decode {bytes : List UInt8} {address : UInt32} {i : Instruction} {n : Nat}
    (h : decode bytes address = .ok (i, n)) : i.Formed := by
  obtain ⟨rest, hread⟩ := instruction_of_decode h
  obtain ⟨entry, hentry, behind, read, -, hread, hmnemonic, hoperands⟩ := Fetch.exists_entry_of_instruction hread
  obtain ⟨-, hkinds⟩ := Fetch.reads_kinds _ _ _ _ _ _ hread
  obtain ⟨form, hform, hfits⟩ := Opcode.fits_of_mem_table hentry
  refine ⟨form, hmnemonic ▸ hform, Kind.forall₂_of_fits hfits ?_⟩
  rw [hoperands]
  exact Opcode.Entry.forall₂_kinds hkinds

end Ia32Wasm.X86
