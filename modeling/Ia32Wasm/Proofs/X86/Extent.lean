import Ia32Wasm.Proofs.X86.Reading
import Mathlib.Data.List.TakeWhile

/-!
# The extent of encodings

How many bytes the operands of an opcode take.  A ModRM byte says whether a SIB byte follows and how long the
displacement is, together with the base in the SIB byte; the shape of the opcode says which constants come behind
them.

* `Opcode.Shape.length` is the number of bytes that a shape takes from the front of some bytes.
* `Spans` is a reader that takes a number of bytes which these bytes determine: its value depends on nothing behind
  them, and they are truncated when some of them are missing.  It passes through sequences (`Spans.bind`), and the
  operands of every shape without an exact ModRM byte span the length of the shape (`spans_operands`).
* Prefixes are read up to the first byte that is none, and fifteen of them are too many (`prefixes_append_cons`,
  `prefixes_eq_tooLong`, `prefixes_eq_truncated`).
-/

namespace Ia32Wasm.X86

/-! ### Lengths -/

/-- The number of bytes behind a ModRM byte that belong to its register or memory: a SIB byte and a displacement. -/
def ModRM.tailLength (m : ModRM) (sib : UInt8) : Nat :=
  (if m.mode ≠ 3 ∧ m.rm = 4 then 1 else 0) +
    if m.mode = 1 then 1
    else if m.mode = 2 then 4
    else if m.mode = 0 ∧ (m.rm = 5 ∨ m.rm = 4 ∧ sib &&& 7 = 5) then 4
    else 0

namespace Prefixes

/-- The byte is a prefix. -/
def isByte (b : UInt8) : Bool := (ofByte? b).isSome

/-- The prefixes and the one that a byte encodes. -/
def add (p : Prefixes) (b : UInt8) : Prefixes := p.union ((ofByte? b).getD {})

end Prefixes

namespace Encoding

/-- The prefixes in front of the bytes. -/
def prefixes (bytes : List UInt8) : List UInt8 := bytes.takeWhile Prefixes.isByte

/-- The bytes behind the prefixes. -/
def body (bytes : List UInt8) : List UInt8 := bytes.dropWhile Prefixes.isByte

variable {bytes : List UInt8}

/-- Prefixes and body are all the bytes. -/
theorem prefixes_append_body (bytes : List UInt8) : prefixes bytes ++ body bytes = bytes :=
  List.takeWhile_append_dropWhile

theorem isByte_of_mem_prefixes : ∀ b ∈ prefixes bytes, Prefixes.isByte b = true := fun _ => List.mem_takeWhile_imp

/-- The body does not begin with a prefix. -/
theorem isByte_of_body_eq_cons {first : UInt8} {rest : List UInt8} (h : body bytes = first :: rest) :
    Prefixes.isByte first = false := by
  have hhead := List.head?_dropWhile_not Prefixes.isByte bytes
  rw [← body, h] at hhead
  simpa using hhead

end Encoding

namespace Opcode

/-- The number of bytes of a constant; one of full width is short under the operand-size prefix. -/
def Constant.length (short : Bool) : Constant → Nat
  | .signedByte | .unsignedByte => 1
  | .word => 2
  | .full => if short then 2 else 4

/-- The number of bytes of the constants and absolute offsets of a shape. -/
def Shape.constantLength (short : Bool) : Shape → Nat
  | .accImm _ c | .rmImm _ c | .regRmImm _ c | .opRegImm _ c | .imm c | .relative c => c.length short
  | .accOffset _ | .offsetAcc _ => 4
  | .farPointer => Constant.full.length short + Constant.word.length short
  | _ => 0

/-- The number of bytes that a shape takes from the front of `bytes`. -/
def Shape.length (short : Bool) (s : Shape) (bytes : List UInt8) : Nat :=
  (if s.hasModRM then 1 + (ModRM.ofByte (bytes.headD 0)).tailLength (bytes.tail.headD 0) else 0) +
    s.constantLength short

/-- A constant of full width belongs to an operation of full width. -/
def Shape.matched : Shape → Bool
  | .accImm w c | .rmImm w c | .regRmImm w c | .opRegImm w c => c ≠ .full || w = .full
  | _ => true

/-- In the table, constants of full width belong to operations of full width. -/
theorem matched_of_mem_table {entry : Entry} (h : entry ∈ table) : entry.shape.matched = true := by
  have hall : table.all (·.shape.matched) = true := by decide +kernel
  exact List.all_eq_true.1 hall entry h

end Opcode

namespace Fetch

open Opcode (Constant Shape Width)

variable {α β : Type} {x : Fetch α} {f : α → Fetch β} {m n : List UInt8 → Nat} {bytes middle : List UInt8}

/-- A sequence goes on with the rest of the bytes. -/
theorem bind_of_ok {a : α} (h : x bytes = .ok (a, middle)) : (x >>= f) bytes = f a middle := by
  show StateT.bind x f bytes = _
  rw [StateT.bind, h]
  rfl

/-- A sequence ends with the first fault. -/
theorem bind_of_error {fault : DecodeFault} (h : x bytes = .error fault) : (x >>= f) bytes = .error fault := by
  show StateT.bind x f bytes = _
  rw [StateT.bind, h]
  rfl

/-! ### Readers that span a number of bytes -/

/-- The reader takes `n bytes` bytes from the front of `bytes`.  Its value depends on these alone. -/
structure Spans (x : Fetch α) (n : List UInt8 → Nat) : Prop where
  truncated : ∀ bytes, bytes.length < n bytes → x bytes = .error .truncated
  reads : ∀ bytes, n bytes ≤ bytes.length → ∃ a, ∀ rest, x (bytes.take (n bytes) ++ rest) = .ok (a, rest)

private theorem Spans.of_eq (hx : Spans x m) (h : ∀ bytes, m bytes = n bytes) : Spans x n := by
  obtain rfl : m = n := funext h
  exact hx

private theorem spans_pure (a : α) : Spans (pure a) fun _ => 0 where
  truncated _ h := absurd h (Nat.not_lt_zero _)
  reads _ _ := ⟨a, fun _ => rfl⟩

/-- A reader goes on where another one has stopped. -/
theorem Spans.bind (hx : Spans x m) (hf : ∀ a, Spans (f a) n) :
    Spans (x >>= f) fun bytes => m bytes + n (bytes.drop (m bytes)) where
  truncated bytes h := by
    by_cases hm : bytes.length < m bytes
    · exact bind_of_error (hx.truncated bytes hm)
    · obtain ⟨a, ha⟩ := hx.reads bytes (by omega)
      have hfirst := ha (bytes.drop (m bytes))
      rw [List.take_append_drop] at hfirst
      rw [bind_of_ok hfirst]
      apply (hf a).truncated
      rw [List.length_drop]
      omega
  reads bytes h := by
    obtain ⟨a, ha⟩ := hx.reads bytes (by omega)
    obtain ⟨b, hb⟩ := (hf a).reads (bytes.drop (m bytes)) (by rw [List.length_drop]; omega)
    refine ⟨b, fun rest => ?_⟩
    rw [List.take_add, List.append_assoc, bind_of_ok (ha _)]
    exact hb rest

theorem Spans.map (hx : Spans x m) (g : α → β) : Spans (do return g (← x)) m := hx.bind fun a => spans_pure (g a)

/-- What comes behind a byte may depend on it. -/
private theorem spans_byte_bind {f : UInt8 → Fetch β} {n : UInt8 → List UInt8 → Nat} (hf : ∀ b, Spans (f b) (n b)) :
    Spans (byte >>= f) fun bytes => 1 + n (bytes.headD 0) bytes.tail where
  truncated bytes h := by
    cases bytes with
    | nil => rfl
    | cons b rest =>
      simp only [List.headD_cons, List.tail_cons, List.length_cons] at h
      exact (hf b).truncated rest (by omega)
  reads bytes h := by
    cases bytes with
    | nil =>
      simp only [List.length_nil] at h
      omega
    | cons b rest =>
      simp only [List.headD_cons, List.tail_cons, List.length_cons] at h
      obtain ⟨a, ha⟩ := (hf b).reads rest (by omega)
      refine ⟨a, fun behind => ?_⟩
      simp only [List.headD_cons, List.tail_cons, Nat.add_comm 1, List.take_succ_cons]
      exact ha behind

private theorem spans_byte : Spans byte fun _ => 1 := by
  rw [← bind_pure byte]
  exact spans_byte_bind fun b => spans_pure b

private theorem spans_modRM_bind {f : ModRM → Fetch β} {n : UInt8 → List UInt8 → Nat}
    (hf : ∀ b, Spans (f (ModRM.ofByte b)) (n b)) :
    Spans (modRM >>= f) fun bytes => 1 + n (bytes.headD 0) bytes.tail := by
  rw [modRM, bind_assoc]
  exact spans_byte_bind hf

/-! ### Numbers -/

private theorem spans_number (n : Nat) : Spans (number n) fun _ => n := by
  induction n with
  | zero => exact spans_pure 0
  | succ n ih =>
    have hread : Spans (number (n + 1)) fun _ => 1 + n := spans_byte.bind fun low => ih.map fun high => _
    exact hread.of_eq fun _ => Nat.add_comm 1 n

private theorem spans_signedByte : Spans signedByte fun _ => 1 := spans_byte.map _

private theorem spans_signedWord : Spans signedWord fun _ => 4 := (spans_number 4).map _

private theorem spans_displacement (mode : UInt8) :
    Spans (displacement mode) fun _ => if mode = 1 then 1 else if mode = 2 then 4 else 0 := by
  unfold displacement
  split
  · exact spans_signedByte.map some
  · split
    · exact spans_signedWord.map some
    · exact spans_pure none

private theorem spans_absolute (prefixes : Prefixes) (size : OperandSize) (plain : UInt32 → Operand) :
    Spans (absolute prefixes size plain) fun _ => 4 := by
  refine (spans_number 4).bind (n := fun _ => 0) fun value => ?_
  split
  · exact spans_pure _
  · exact spans_pure _

private theorem spans_scaledIndex (mode : UInt8) (size : OperandSize) :
    Spans (scaledIndex mode size) fun bytes =>
      1 + if bytes.headD 0 &&& 7 = 5 ∧ mode = 0 then 4 else if mode = 1 then 1 else if mode = 2 then 4 else 0 := by
  refine spans_byte_bind (n := fun sib _ =>
    if sib &&& 7 = 5 ∧ mode = 0 then 4 else if mode = 1 then 1 else if mode = 2 then 4 else 0) fun sib => ?_
  dsimp only
  split
  · exact spans_signedWord.map _
  · exact (spans_displacement mode).map _

private theorem spans_rm (prefixes : Prefixes) (m : ModRM) (size : OperandSize) :
    Spans (rm prefixes m size) fun bytes => m.tailLength (bytes.headD 0) := by
  unfold rm
  split
  · rename_i hmode
    exact (spans_pure _).of_eq fun bytes => by simp [ModRM.tailLength, hmode]
  · rename_i hmode
    split
    · rename_i hrm
      refine (spans_scaledIndex m.mode size).of_eq fun bytes => ?_
      by_cases hzero : m.mode = 0
      · simp [ModRM.tailLength, hrm, hzero]
      · simp [ModRM.tailLength, hrm, hzero, hmode]
    · rename_i hrm
      split
      · rename_i habsolute
        exact (spans_absolute prefixes size _).of_eq fun bytes => by simp [ModRM.tailLength, habsolute]
      · rename_i hdirect
        refine ((spans_displacement m.mode).map _).of_eq fun bytes => ?_
        have hnone : ¬ (m.mode = 0 ∧ m.rm = 5) := fun h => hdirect h.symm
        simp [ModRM.tailLength, hrm, hnone]

/-! ### Constants -/

private theorem width_full_eq_bits16_iff (prefixes : Prefixes) :
    width prefixes .full = .bits16 ↔ prefixes.contains .operandSize = true := by
  rw [width]
  split <;> simp_all

private theorem spans_constant {short : Bool} {size : OperandSize} {c : Constant}
    (h : c = .full → (size = .bits16 ↔ short = true)) : Spans (constant size c) fun _ => c.length short := by
  cases c with
  | signedByte => exact spans_signedByte.map _
  | unsignedByte => exact spans_byte.map _
  | word => exact (spans_number 2).map _
  | full =>
    rw [constant]
    split
    · rename_i hsize
      exact ((spans_number 2).map _).of_eq fun _ => by rw [Constant.length, if_pos ((h rfl).1 hsize)]
    · rename_i hsize
      exact (spans_signedWord.map _).of_eq fun _ => by rw [Constant.length, if_neg (mt (h rfl).2 hsize)]

/-- A constant of an operation whose width is full if that of the constant is. -/
private theorem spans_matched (prefixes : Prefixes) {w : Width} {c : Constant} (h : c ≠ .full ∨ w = .full) :
    Spans (constant (width prefixes w) c) fun _ => c.length (prefixes.contains .operandSize) := by
  refine spans_constant fun hc => ?_
  rw [h.resolve_left (absurd hc)]
  exact width_full_eq_bits16_iff prefixes

/-! ### Shapes -/

/-- Operands that are made from a ModRM byte and its register or memory. -/
private theorem spans_withRm {prefixes : Prefixes} (size : ModRM → OperandSize) {f : ModRM → Operand →
    Fetch β} {k : Nat}
    (hf : ∀ m op, Spans (f m op) fun _ => k) :
    Spans (do let m ← modRM; let op ← rm prefixes m (size m); f m op) fun bytes =>
      1 + (ModRM.ofByte (bytes.headD 0)).tailLength (bytes.tail.headD 0) + k := by
  refine (spans_modRM_bind fun b => (spans_rm prefixes (ModRM.ofByte b) _).bind fun op => hf _ op).of_eq
    fun bytes => ?_
  exact (Nat.add_assoc _ _ _).symm

/-- The operands of a shape take as many bytes as the shape says. -/
theorem spans_operands (prefixes : Prefixes) (opcode : UInt16) {shape : Shape} (hmatched : shape.matched = true)
    (hexact : shape.exactModRM? = none) :
    Spans (operands prefixes opcode shape) (shape.length (prefixes.contains .operandSize)) := by
  have hfull : Spans (constant (width prefixes .full) .full) fun _ =>
      Constant.full.length (prefixes.contains .operandSize) := spans_matched prefixes (.inr rfl)
  cases shape with
  | none | opReg | opRegAcc | fixed | move | fill => exact spans_pure _
  | rmReg | regRm | regRmWiden | rmSegment | segmentRm | rm | rmOne | rmCl | xmmRm | rmXmm =>
    exact spans_withRm _ fun _ _ => spans_pure _
  | accImm w c | opRegImm w c =>
    have hconstant := spans_matched prefixes (w := w) (c := c) (by simpa [Shape.matched] using hmatched)
    exact (hconstant.map _).of_eq fun _ => (Nat.zero_add _).symm
  | rmImm w c =>
    have hwidth : c ≠ .full ∨ w = .full := by simpa [Shape.matched] using hmatched
    refine spans_withRm _ fun _ op => Spans.map (spans_constant fun hc => ?_) _
    rw [if_neg (by simp [hc]), hwidth.resolve_left (absurd hc)]
    exact width_full_eq_bits16_iff prefixes
  | regRmImm w c =>
    have hconstant := spans_matched prefixes (w := w) (c := c) (by simpa [Shape.matched] using hmatched)
    exact spans_withRm _ fun _ op => hconstant.map _
  | imm c | relative c =>
    refine (Spans.map (spans_constant fun hc => ?_) _).of_eq fun _ => (Nat.zero_add _).symm
    subst hc
    exact width_full_eq_bits16_iff prefixes
  | accOffset | offsetAcc => exact (spans_absolute prefixes _ _).map _
  | farPointer =>
    have hselector : Spans (constant .bits16 .word) fun _ => Constant.word.length (prefixes.contains .operandSize) :=
      spans_constant fun hc => by cases hc
    exact (hfull.bind fun _ => hselector.map _).of_eq fun _ => (Nat.zero_add _).symm
  | exactModRM => cases hexact

/-! ### Prefixes -/

variable {seen : Prefixes} {count : Nat} {leading rest : List UInt8}

private theorem prefixes_cons {b : UInt8} (hb : Prefixes.isByte b = true) :
    prefixes seen count (b :: rest) =
      if maxLength ≤ count + 1 then .error .tooLong else prefixes (seen.add b) (count + 1) rest := by
  obtain ⟨p, hp⟩ := Option.isSome_iff_exists.1 hb
  simp [prefixes, Prefixes.add, hp]

/-- Prefixes are collected up to the first byte that is none. -/
theorem prefixes_append_cons {first : UInt8} (hleading : ∀ b ∈ leading, Prefixes.isByte b = true)
    (hfirst : Prefixes.isByte first = false) (hcount : count + leading.length < maxLength) :
    prefixes seen count (leading ++ first :: rest) = .ok (leading.foldl Prefixes.add seen, first :: rest) := by
  induction leading generalizing seen count with
  | nil =>
    have hnone : Prefixes.ofByte? first = none := by simpa [Prefixes.isByte] using hfirst
    simp [prefixes, hnone]
  | cons b leading ih =>
    rw [List.forall_mem_cons] at hleading
    rw [List.length_cons] at hcount
    rw [List.cons_append, prefixes_cons hleading.1, if_neg (by omega)]
    exact ih hleading.2 (by omega)

/-- Prefixes alone can make an instruction too long. -/
theorem prefixes_eq_tooLong (hleading : ∀ b ∈ leading, Prefixes.isByte b = true) (hcount : count < maxLength)
    (hlong : maxLength ≤ count + leading.length) : prefixes seen count (leading ++ rest) = .error .tooLong := by
  induction leading generalizing seen count with
  | nil =>
    rw [List.length_nil] at hlong
    omega
  | cons b leading ih =>
    rw [List.forall_mem_cons] at hleading
    rw [List.length_cons] at hlong
    rw [List.cons_append, prefixes_cons hleading.1]
    split
    · rfl
    · exact ih hleading.2 (by omega) (by omega)

/-- Prefixes alone are no instruction. -/
theorem prefixes_eq_truncated (hleading : ∀ b ∈ leading, Prefixes.isByte b = true)
    (hcount : count + leading.length < maxLength) : prefixes seen count leading = .error .truncated := by
  induction leading generalizing seen count with
  | nil => rfl
  | cons b leading ih =>
    rw [List.forall_mem_cons] at hleading
    rw [List.length_cons] at hcount
    rw [prefixes_cons hleading.1, if_neg (by omega)]
    exact ih hleading.2 (by omega)

/-! ### Parts of an instruction -/

/-- What comes behind the opcode, for an opcode and field that may be in the table. -/
def listed (prefixes : Prefixes) (opcode : UInt16) (field : Option UInt8) :
    Fetch (Prefixes × UInt16 × Mnemonic × List Operand) :=
  match Opcode.find? opcode field with
  | none => throw (.unknownOpcode opcode)
  | some entry => do
    let operands ← operands prefixes opcode entry.shape
    return (prefixes, opcode, entry.mnemonic, if entry.readsFirst then repeatFirst operands else operands)

/-- An opcode that is not in the table is unknown. -/
theorem listed_of_none {opcode : UInt16} {field : Option UInt8} (prefixes : Prefixes)
    (h : Opcode.find? opcode field = none) : listed prefixes opcode field = throw (.unknownOpcode opcode) := by
  rw [listed, h]

/-- An opcode in the table has the operands of its shape. -/
theorem listed_of_some {opcode : UInt16} {field : Option UInt8} {entry : Opcode.Entry} (prefixes : Prefixes)
    (h : Opcode.find? opcode field = some entry) :
    listed prefixes opcode field = do
      let operands ← operands prefixes opcode entry.shape
      return (prefixes, opcode, entry.mnemonic, if entry.readsFirst then repeatFirst operands else operands) := by
  rw [listed, h]

/-- What comes behind the prefixes. -/
def encoded (prefixes : Prefixes) : Fetch (Prefixes × UInt16 × Mnemonic × List Operand) := do
  let opcode ← opcode
  let field ← groupField opcode
  listed prefixes opcode field

theorem instruction_eq_bind : instruction = prefixes {} 0 >>= encoded := rfl

end Fetch

end Ia32Wasm.X86
