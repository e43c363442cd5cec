import Ia32Wasm.X86.Decoding

/-!
# What decoding reads

A decoded instruction takes at least one byte and at most fifteen, all of them from the bytes it was decoded from, and
its registers have numbers below eight.  Both follow from one property of readers, `Reads`, which passes through the
sequence of two readers.  A conditional jump has one operand, a constant, since the opcode table gives it no other
shape.
-/

namespace Ia32Wasm.X86

/-- The number of a register operand is one of eight. -/
def Operand.Numbered : Operand → Prop
  | .register index _ _ _ => index.toNat < 8
  | _ => True

@[simp] theorem Operand.numbered_imm (value : Int64) (size : OperandSize) :
    (Operand.imm value size).Numbered := trivial

theorem Prefixes.eq_of_baseSegment? {p : Prefixes} {segment : UInt8} (h : p.baseSegment? = some segment) :
    segment = 4 ∨ segment = 5 := by
  unfold baseSegment? at h
  split at h
  · exact .inl (Option.some.inj h).symm
  · split at h
    · exact .inr (Option.some.inj h).symm
    · cases h

namespace Fetch

variable {α β : Type} {Q : α → Prop} {R : β → Prop}

/-- The reader leaves at most the bytes that it got, and its value has a property. -/
def Reads (x : Fetch α) (Q : α → Prop) : Prop :=
  ∀ bytes a rest, x bytes = .ok (a, rest) → rest.length ≤ bytes.length ∧ Q a

/-- A sequence of readers succeeds if both do, the second on what the first left. -/
theorem bind_eq_ok {x : Fetch α} {f : α → Fetch β} {bytes rest : List UInt8} {b : β} :
    (x >>= f) bytes = .ok (b, rest) ↔ ∃ a middle, x bytes = .ok (a, middle) ∧ f a middle = .ok (b, rest) := by
  show (StateT.bind x f bytes) = .ok (b, rest) ↔ _
  unfold StateT.bind
  cases hx : x bytes with
  | error fault => simp [bind, Except.bind]
  | ok read =>
    obtain ⟨a, middle⟩ := read
    simp only [bind, Except.bind, Except.ok.injEq, Prod.mk.injEq]
    constructor
    · intro h
      exact ⟨a, middle, ⟨rfl, rfl⟩, h⟩
    · rintro ⟨_, _, ⟨rfl, rfl⟩, h⟩
      exact h

theorem reads_pure {a : α} (h : Q a) : Reads (pure a) Q := by
  intro bytes b rest hb
  cases hb
  exact ⟨Nat.le_refl _, h⟩

/-- What a sequence reads. -/
theorem reads_bind {x : Fetch α} {f : α → Fetch β} (hx : Reads x Q) (hf : ∀ a, Q a → Reads (f a) R) :
    Reads (x >>= f) R := by
  intro bytes b rest hb
  obtain ⟨a, middle, ha, hb⟩ := bind_eq_ok.1 hb
  obtain ⟨hmiddle, hQ⟩ := hx bytes a middle ha
  obtain ⟨hrest, hR⟩ := hf a hQ middle b rest hb
  exact ⟨Nat.le_trans hrest hmiddle, hR⟩

theorem reads_throw (fault : DecodeFault) : Reads (throw fault : Fetch α) Q := by
  intro bytes a rest ha
  cases ha

/-- What is read has weaker properties too. -/
theorem Reads.imp {x : Fetch α} {Q' : α → Prop} (hx : Reads x Q) (h : ∀ a, Q a → Q' a) : Reads x Q' := by
  intro bytes a rest ha
  obtain ⟨hlength, hQ⟩ := hx bytes a rest ha
  exact ⟨hlength, h a hQ⟩

/-! ### Numbers -/

theorem byte_eq_ok {bytes rest : List UInt8} {b : UInt8} (h : byte bytes = .ok (b, rest)) : bytes = b :: rest := by
  cases bytes with
  | nil => cases h
  | cons first tail =>
    cases h
    rfl

theorem reads_byte : Reads byte fun _ => True := by
  intro bytes b rest h
  rw [byte_eq_ok h]
  exact ⟨Nat.le_succ _, trivial⟩

private theorem reads_peek : Reads peek fun _ => True := by
  intro bytes b rest h
  cases bytes with
  | nil => cases h
  | cons first tail =>
    cases h
    exact ⟨Nat.le_refl _, trivial⟩

theorem reads_number (n : Nat) : Reads (number n) fun _ => True := by
  induction n with
  | zero => exact reads_pure trivial
  | succ n ih => exact reads_bind reads_byte fun _ _ => reads_bind ih fun _ _ => reads_pure trivial

private theorem reads_signedByte : Reads signedByte fun _ => True :=
  reads_bind reads_byte fun _ _ => reads_pure trivial

theorem reads_signedWord : Reads signedWord fun _ => True := reads_bind (reads_number 4) fun _ _ => reads_pure trivial

theorem reads_displacement (mode : UInt8) : Reads (displacement mode) fun _ => True := by
  unfold displacement
  split
  · exact reads_bind reads_signedByte fun _ _ => reads_pure trivial
  · split
    · exact reads_bind reads_signedWord fun _ _ => reads_pure trivial
    · exact reads_pure trivial

private theorem reads_prefixes (seen : Prefixes) (count : Nat) : Reads (prefixes seen count) fun _ => True := by
  intro bytes
  induction bytes generalizing seen count with
  | nil =>
    intro a rest h
    cases h
  | cons first tail ih =>
    intro a rest h
    rw [prefixes] at h
    split at h
    · cases h
      exact ⟨Nat.le_refl _, trivial⟩
    · split at h
      · cases h
      · have := ih _ _ a rest h
        exact ⟨Nat.le_succ_of_le this.1, trivial⟩

/-- An opcode takes at least one byte. -/
private theorem length_lt_of_opcode {bytes rest : List UInt8} {code : UInt16} (h : opcode bytes = .ok (code, rest)) :
    rest.length < bytes.length := by
  obtain ⟨first, middle, hfirst, h⟩ := bind_eq_ok.1 h
  have hrest : Reads (if first = 0x0f then do return 0x0f00 ||| (← byte).toUInt16 else pure first.toUInt16 :
    Fetch UInt16)
      fun _ => True := by
    split
    · exact reads_bind reads_byte fun _ _ => reads_pure trivial
    · exact reads_pure trivial
  have hle := (hrest middle code rest h).1
  rw [byte_eq_ok hfirst]
  exact Nat.lt_succ_of_le hle

/-! ### Operands -/

private theorem toNat_and_seven_lt (b : UInt8) : (b &&& 7).toNat < 8 := by
  rw [UInt8.toNat_and]
  exact Nat.lt_succ_of_le Nat.and_le_right

theorem numbered_reg {index : UInt8} (size : OperandSize) (h : index.toNat < 8) :
    (Operand.reg index size).Numbered := h

/-- The fields of a ModRM byte are below eight. -/
theorem reads_modRM : Reads modRM fun m => m.reg.toNat < 8 ∧ m.rm.toNat < 8 :=
  reads_bind reads_byte fun _ _ => reads_pure ⟨toNat_and_seven_lt _, toNat_and_seven_lt _⟩

/-- An absolute address is numbered, with a segment or without. -/
theorem reads_absolute (prefixes : Prefixes) (size : OperandSize) {plain : UInt32 → Operand}
    (h : ∀ value, (plain value).Numbered) : Reads (absolute prefixes size plain) Operand.Numbered := by
  refine reads_bind (reads_number 4) fun value _ => ?_
  split
  · exact reads_pure trivial
  · exact reads_pure (h value)

private theorem reads_scaledIndex (mode : UInt8) (size : OperandSize) :
    Reads (scaledIndex mode size) Operand.Numbered := by
  refine reads_bind reads_byte fun sib _ => ?_
  dsimp only
  split
  · exact reads_bind reads_signedWord fun _ _ => reads_pure trivial
  · exact reads_bind (reads_displacement mode) fun _ _ => reads_pure trivial

/-- An operand of a ModRM byte names registers that there are. -/
theorem reads_rm (prefixes : Prefixes) {m : ModRM} (size : OperandSize) (h : m.rm.toNat < 8) :
    Reads (rm prefixes m size) Operand.Numbered := by
  unfold rm
  split
  · exact reads_pure h
  · split
    · exact reads_scaledIndex m.mode size
    · split
      · exact reads_absolute prefixes size fun _ => trivial
      · exact reads_bind (reads_displacement m.mode) fun _ _ => reads_pure h

/-- A constant has the size that is asked for. -/
theorem reads_constant (size : OperandSize) (c : Opcode.Constant) :
    Reads (constant size c) fun op => ∃ value, op = .imm value size := by
  cases c with
  | signedByte => exact reads_bind reads_signedByte fun _ _ => reads_pure ⟨_, rfl⟩
  | unsignedByte => exact reads_bind reads_byte fun _ _ => reads_pure ⟨_, rfl⟩
  | word => exact reads_bind (reads_number 2) fun _ _ => reads_pure ⟨_, rfl⟩
  | full =>
    rw [constant]
    split
    · exact reads_bind (reads_number 2) fun _ _ => reads_pure ⟨_, rfl⟩
    · exact reads_bind reads_signedWord fun _ _ => reads_pure ⟨_, rfl⟩

theorem reads_constant_of {P : Operand → Prop} {size : OperandSize} (c : Opcode.Constant)
    (h : ∀ value, P (.imm value size)) : Reads (constant size c) P := by
  refine (reads_constant size c).imp fun op hop => ?_
  obtain ⟨value, rfl⟩ := hop
  exact h value

/-- The constants that are read for a shape, with their sizes. -/
def constants (prefixes : Prefixes) : Opcode.Shape → List (OperandSize × Opcode.Constant)
  | .accImm w c | .regRmImm w c | .opRegImm w c => [(width prefixes w, c)]
  | .rmImm w c => [(if c = .unsignedByte then .bits8 else width prefixes w, c)]
  | .imm c => [(constantSize prefixes c, c)]
  | .relative c => [(relativeSize prefixes c, c)]
  | .farPointer => [(width prefixes .full, .full), (.bits16, .word)]
  | _ => []

/-- The constant that a shape has without reading it. -/
def fixed? : Opcode.Shape → Option Int64
  | .fixed value => some value
  | .rmOne _ => some 1
  | _ => none

/-- Operands have a property that registers, constants, addressed memory and places of ModRM bytes have. -/
theorem reads_operands_of {P : Operand → Prop} {prefixes : Prefixes} {shape : Opcode.Shape}
    (hreg : ∀ index size, index.toNat < 8 → P (.reg index size))
    (hpointer : ∀ index size, index.toNat < 8 → P (.pointer index size))
    (hfixed : ∀ value, fixed? shape = some value → P (.imm value .bits8))
    (hconstant : ∀ x ∈ constants prefixes shape, Reads (constant x.1 x.2) P)
    (hsegment : ∀ index, index.toNat < 8 → P (segmentRegister index))
    (hoffset : ∀ size, Reads (memoryOffset prefixes size) P)
    (hrm : ∀ (m : ModRM) size, m.rm.toNat < 8 → Reads (rm prefixes m size) P) (opcode : UInt16) :
    Reads (operands prefixes opcode shape) fun ops => ∀ op ∈ ops, P op := by
  have hacc : ∀ size, P (acc size) := fun size => hreg 0 size (by decide)
  have hcl : ∀ size, P (.reg 1 size) := fun size => hreg 1 size (by decide)
  have hopcode : ∀ size, P (.reg (opcode.toUInt8 &&& 7) size) := fun size => hreg _ size (toNat_and_seven_lt _)
  have hsource : ∀ size, P (.pointer 6 size) := fun size => hpointer 6 size (by decide)
  have htarget : ∀ size, P (.pointer 7 size) := fun size => hpointer 7 size (by decide)
  -- operands that are made from a ModRM byte and its register or memory
  have hwithRm : ∀ (size : ModRM → OperandSize) (f : ModRM → Operand → List Operand),
      (∀ m op, m.reg.toNat < 8 → P op → ∀ x ∈ f m op, P x) →
      Reads (do let m ← modRM; let op ← rm prefixes m (size m); return f m op) fun ops => ∀ op ∈ ops, P op :=
    fun size f hf => reads_bind reads_modRM fun m hm => reads_bind (hrm m _ hm.2) fun op hop =>
      reads_pure (hf m op hm.1 hop)
  cases shape with
  | none => exact reads_pure (by simp)
  | rmReg | regRm | regRmWiden | xmmRm | rmXmm => exact hwithRm _ _ fun m op hm hop => by simp [hop, hreg _ _ hm]
  | rmSegment | segmentRm => exact hwithRm _ _ fun m op hm hop => by simp [hop, hsegment _ hm]
  | rm => exact hwithRm _ _ fun m op _ hop => by simp [hop]
  | rmOne => exact hwithRm _ _ fun m op _ hop => by simp [hop, hfixed 1 rfl]
  | rmCl => exact hwithRm _ _ fun m op _ hop => by simp [hop, hcl]
  | accImm =>
    exact reads_bind (hconstant _ (List.mem_singleton_self _)) fun op hop => reads_pure (by simp [hop, hacc])
  | rmImm =>
    refine reads_bind reads_modRM fun m hm => reads_bind (hrm _ _ hm.2) fun first hfirst => ?_
    exact reads_bind (hconstant _ (List.mem_singleton_self _)) fun op hop => reads_pure (by simp [hop, hfirst])
  | regRmImm =>
    refine reads_bind reads_modRM fun m hm => reads_bind (hrm _ _ hm.2) fun first hfirst => ?_
    exact reads_bind (hconstant _ (List.mem_singleton_self _)) fun op hop =>
      reads_pure (by simp [hop, hfirst, hreg _ _ hm.1])
  | opReg => exact reads_pure (by simp [hopcode])
  | opRegImm =>
    exact reads_bind (hconstant _ (List.mem_singleton_self _)) fun op hop => reads_pure (by simp [hop, hopcode])
  | opRegAcc => exact reads_pure (by simp [hopcode, hacc])
  | imm | relative =>
    exact reads_bind (hconstant _ (List.mem_singleton_self _)) fun op hop => reads_pure (by simp [hop])
  | fixed => exact reads_pure (by simp [hfixed _ rfl])
  | accOffset | offsetAcc => exact reads_bind (hoffset _) fun op hop => reads_pure (by simp [hop, hacc])
  | move => exact reads_pure (by simp [hsource, htarget])
  | fill => exact reads_pure (by simp [htarget, hacc])
  | farPointer =>
    refine reads_bind (hconstant _ List.mem_cons_self) fun offset hoffset => ?_
    exact reads_bind (hconstant _ (List.mem_cons_of_mem _ (List.mem_singleton_self _))) fun selector hselector =>
      reads_pure (by simp [hoffset, hselector])
  | exactModRM =>
    refine reads_bind reads_byte fun b _ => ?_
    split
    · exact reads_pure (by simp)
    · exact reads_throw _

/-- All operands name registers that there are. -/
theorem reads_operands (prefixes : Prefixes) (opcode : UInt16) (shape : Opcode.Shape) :
    Reads (operands prefixes opcode shape) fun operands => ∀ op ∈ operands, op.Numbered :=
  reads_operands_of (fun _ => numbered_reg) (fun _ _ h => h) (fun _ _ => trivial)
    (fun x _ => reads_constant_of x.2 fun _ => trivial) (fun _ _ => trivial)
    (fun size => reads_absolute prefixes size fun _ => trivial) (fun _ => reads_rm prefixes) opcode

/-- The entries of conditional jumps ask for one constant. -/
private theorem relative_of_mem_table {entry : Opcode.Entry} (h : entry ∈ Opcode.table)
    (hjump : entry.mnemonic.isConditionalJump = true) :
    (∃ c, entry.shape = .relative c) ∧ entry.readsFirst = false := by
  have hall : Opcode.table.all (fun entry => !entry.mnemonic.isConditionalJump ||
      (entry.shape = .relative .signedByte ∨ entry.shape = .relative .full) && !entry.readsFirst) = true := by
    decide +kernel
  have hentry := List.all_eq_true.1 hall entry h
  simp only [hjump, Bool.not_true, Bool.false_or, Bool.and_eq_true, decide_eq_true_eq, Bool.not_eq_true'] at hentry
  exact ⟨hentry.1.elim (fun hshape => ⟨_, hshape⟩) fun hshape => ⟨_, hshape⟩, hentry.2⟩

/-- An instruction has an entry of the table, whose operands are read behind at least one byte. -/
theorem exists_entry_of_instruction {bytes rest : List UInt8} {prefixes : Prefixes} {opcode : UInt16}
    {mnemonic : Mnemonic} {ops : List Operand}
    (h : instruction bytes = .ok ((prefixes, opcode, mnemonic, ops), rest)) :
    ∃ entry ∈ Opcode.table, ∃ behind read, behind.length < bytes.length ∧
      operands prefixes opcode entry.shape behind = .ok (read, rest) ∧ mnemonic = entry.mnemonic ∧
      ops = if entry.readsFirst then repeatFirst read else read := by
  obtain ⟨seen, afterPrefixes, hprefixes, h⟩ := bind_eq_ok.1 h
  obtain ⟨code, afterOpcode, hopcode, h⟩ := bind_eq_ok.1 h
  obtain ⟨field, behind, hfield, h⟩ := bind_eq_ok.1 h
  have h₁ := (reads_prefixes {} 0 _ _ _ hprefixes).1
  have h₂ := length_lt_of_opcode hopcode
  have h₃ : behind.length ≤ afterOpcode.length := by
    have hreads : Reads (groupField code) fun _ => True := by
      unfold groupField
      split
      · exact reads_bind reads_peek fun _ _ => reads_pure trivial
      · exact reads_pure trivial
    exact (hreads _ _ _ hfield).1
  cases hentry : Opcode.find? code field with
  | none =>
    rw [hentry] at h
    cases h
  | some entry =>
    rw [hentry] at h
    obtain ⟨read, afterOperands, hread, h⟩ := bind_eq_ok.1 h
    cases h
    exact ⟨entry, List.mem_of_find?_eq_some hentry, behind, read, by omega, hread, rfl, rfl⟩

/-- To repeat the first operand adds no other. -/
theorem mem_of_mem_repeatFirst {entry : Opcode.Entry} {read : List Operand} {op : Operand}
    (h : op ∈ if entry.readsFirst then repeatFirst read else read) : op ∈ read := by
  split at h
  · cases read with
    | nil => cases h
    | cons first others => simpa [repeatFirst] using h
  · exact h

/-- The parts of an instruction take at least one byte, and its registers have numbers below eight. -/
private theorem instruction_eq_ok {bytes rest : List UInt8} {prefixes : Prefixes} {opcode : UInt16}
    {mnemonic : Mnemonic}
    {operands : List Operand} (h : instruction bytes = .ok ((prefixes, opcode, mnemonic, operands), rest)) :
    rest.length < bytes.length ∧ (∀ op ∈ operands, op.Numbered) ∧
      (mnemonic.isConditionalJump = true → ∃ value size, operands = [.imm value size]) := by
  obtain ⟨entry, hentry, behind, read, hbehind, hread, rfl, rfl⟩ := exists_entry_of_instruction h
  obtain ⟨hrest, hnumbered⟩ := reads_operands _ _ _ _ _ _ hread
  refine ⟨by omega, fun op hop => hnumbered op (mem_of_mem_repeatFirst hop), fun hjump => ?_⟩
  obtain ⟨⟨c, hshape⟩, hfirst⟩ := relative_of_mem_table hentry hjump
  rw [hshape] at hread
  obtain ⟨op, afterConstant, hop, hread⟩ := bind_eq_ok.1 hread
  obtain ⟨-, value, rfl⟩ := reads_constant _ _ _ _ _ hop
  cases hread
  exact ⟨value, _, by rw [hfirst]; rfl⟩

end Fetch

/-- The parts of a decoded instruction are those that its bytes hold. -/
theorem instruction_of_decode {bytes : List UInt8} {address : UInt32} {i : Instruction} {n : Nat}
    (h : decode bytes address = .ok (i, n)) :
    ∃ rest, Fetch.instruction bytes = .ok ((i.prefixes, i.opcode, i.mnemonic, i.operands), rest) := by
  unfold decode at h
  split at h
  · cases h
  · rename_i hread
    dsimp only at h
    split at h
    · cases h
    · cases h
      exact ⟨_, hread⟩

/-- What is known of every decoded instruction. -/
theorem decode_eq_ok {bytes : List UInt8} {address : UInt32} {i : Instruction} {n : Nat}
    (h : decode bytes address = .ok (i, n)) :
    i.address = address ∧ i.nextAddress = address + UInt32.ofNat n ∧ 0 < n ∧ n ≤ maxLength ∧ n ≤ bytes.length ∧
      (∀ op ∈ i.operands, op.Numbered) ∧
      (i.mnemonic.isConditionalJump = true → ∃ value size, i.operands = [.imm value size]) := by
  unfold decode at h
  split at h
  · cases h
  · rename_i hread
    dsimp only at h
    split at h
    · cases h
    · cases h
      obtain ⟨hlt, hnumbered, hjump⟩ := Fetch.instruction_eq_ok hread
      exact ⟨rfl, rfl, by omega, by omega, by omega, hnumbered, hjump⟩

end Ia32Wasm.X86
