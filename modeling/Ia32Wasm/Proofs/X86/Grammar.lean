import Ia32Wasm.Proofs.X86.Extent
import Mathlib.Data.List.Nodup

/-!
# The grammar of instructions

Which bytes are an instruction, said without reading them one after the other.  Behind the prefixes stand an opcode
and what its entry in the table asks for; the entry is found by the opcode and, in a group, by the register field of
the ModRM byte.

* `Encoding.Names` is the entry that some bytes name, `Encoding.Unlisted` an opcode that they name without an entry,
  and `Encoding.length` the number of bytes that an instruction with a given entry takes.
* The keys of the table are distinct (`Opcode.find?_eq_some_iff`), so bytes name one entry at most.
* `decode_grammar` is what the decoder answers in terms of these.
-/

namespace Ia32Wasm.X86

namespace Opcode

/-- The place of an entry in the order of the table. -/
private def Entry.rank (e : Entry) : Nat := 16 * e.opcode.toNat + (e.field.map (·.toNat + 1)).getD 0

private theorem rank_injOn {e e' : Entry} (he : e ∈ table) (he' : e' ∈ table) (h : e.rank = e'.rank) : e = e' := by
  have hchain : (table.map Entry.rank).IsChain (· < ·) := by decide +kernel
  have hnodup : (table.map Entry.rank).Nodup := (List.isChain_iff_pairwise.1 hchain).imp Nat.ne_of_lt
  exact List.inj_on_of_nodup_map hnodup he he' h

/-- The key of an entry finds it. -/
theorem find?_eq_some_iff {opcode : UInt16} {field : Option UInt8} {e : Entry} :
    find? opcode field = some e ↔ e ∈ table ∧ e.opcode = opcode ∧ e.field = field := by
  have hkey : ∀ {e'}, find? opcode field = some e' → e'.opcode = opcode ∧ e'.field = field := fun h => by
    simpa only [Bool.and_eq_true, beq_iff_eq] using List.find?_some h
  constructor
  · intro h
    exact ⟨List.mem_of_find?_eq_some h, hkey h⟩
  · rintro ⟨hmem, hopcode, hfield⟩
    cases hfind : find? opcode field with
    | none =>
      have hnone := List.find?_eq_none.1 hfind e hmem
      simp [hopcode, hfield] at hnone
    | some e' =>
      obtain ⟨hopcode', hfield'⟩ := hkey hfind
      have hrank : e'.rank = e.rank := by rw [Entry.rank, Entry.rank, hopcode, hopcode', hfield, hfield']
      rw [rank_injOn (List.mem_of_find?_eq_some hfind) hmem hrank]

private theorem Shape.eq_of_exactModRM? {s : Shape} {expected : UInt8} (h : s.exactModRM? = some expected) :
    s = .exactModRM expected := by
  cases s with
  | exactModRM b => rw [Option.some.inj h]
  | _ => cases h

/-- A ModRM byte that an entry asks for stands for registers. -/
private theorem mode_of_exactModRM? {e : Entry} (he : e ∈ table) {expected : UInt8}
    (h : e.shape.exactModRM? = some expected) :
    (ModRM.ofByte expected).mode = 3 := by
  have hall : table.all (fun e => e.shape.exactModRM?.all fun b => (ModRM.ofByte b).mode = 3) = true := by
    decide +kernel
  have hentry := List.all_eq_true.1 hall e he
  rw [h] at hentry
  simpa using hentry

end Opcode

namespace Prefixes

/-- The prefix is one bit, and no byte but `byte` adds it. -/
structure Single (q : Prefixes) (byte : UInt8) : Prop where
  bit : ∃ k < 16, q.bits.toBitVec = BitVec.twoPow 16 k
  contains_ofByte? : ∀ b, ((ofByte? b).getD {}).contains q = (byte == b)

/-- A set contains a prefix if the bit is set. -/
theorem contains_eq_getLsbD {q : Prefixes} {k : Nat} (p : Prefixes) (hk : k < 16)
    (hq : q.bits.toBitVec = BitVec.twoPow 16 k) : p.contains q = p.bits.toBitVec.getLsbD k := by
  have hne : BitVec.twoPow 16 k ≠ 0#16 := by
    intro hzero
    have hbit := @BitVec.getLsbD_twoPow 16 k k
    rw [hzero] at hbit
    simp [hk] at hbit
  rw [Bool.eq_iff_iff, contains, beq_iff_eq, ← UInt16.toBitVec_inj, UInt16.toBitVec_and, hq, BitVec.and_twoPow]
  split
  · rename_i hbit
    exact iff_of_true rfl hbit
  · rename_i hbit
    exact iff_of_false hne.symm hbit

/-- No byte but its own adds a prefix. -/
private theorem Single.contains_add {q : Prefixes} {byte : UInt8} (h : q.Single byte) (p : Prefixes) (b : UInt8) :
    (p.add b).contains q = (p.contains q || byte == b) := by
  obtain ⟨k, hk, hq⟩ := h.bit
  rw [← h.contains_ofByte? b, contains_eq_getLsbD _ hk hq, contains_eq_getLsbD _ hk hq,
    contains_eq_getLsbD _ hk hq, add,
    union, UInt16.toBitVec_or, BitVec.getLsbD_or]

private theorem contains_ofByte?_of_forall_lt {q : Prefixes} {byte : UInt8}
    (h : ∀ n < 256, ((ofByte? (UInt8.ofNat n)).getD {}).contains q = (byte == UInt8.ofNat n)) (b : UInt8) :
    ((ofByte? b).getD {}).contains q = (byte == b) := by
  have hbyte := h b.toNat b.toNat_lt
  rwa [UInt8.ofNat_toNat] at hbyte

theorem single_operandSize : operandSize.Single 0x66 :=
  ⟨⟨3, by decide, by decide⟩, contains_ofByte?_of_forall_lt (by decide +kernel)⟩

theorem single_fs : fs.Single 0x64 := ⟨⟨9, by decide, by decide⟩, contains_ofByte?_of_forall_lt (by decide +kernel)⟩

theorem single_gs : gs.Single 0x65 := ⟨⟨10, by decide, by decide⟩, contains_ofByte?_of_forall_lt (by decide +kernel)⟩

end Prefixes

namespace Encoding

/-! ### What bytes name -/

/-- The number of bytes of the opcode. -/
def opcodeLength (bytes : List UInt8) : Nat := if (body bytes).head? = some 0x0f then 2 else 1

/-- The bytes behind the opcode. -/
def tail (bytes : List UInt8) : List UInt8 := (body bytes).drop (opcodeLength bytes)

/-- The opcode, if all of it is there. -/
def opcode? (bytes : List UInt8) : Option UInt16 :=
  match body bytes with
  | [] => none
  | first :: rest =>
    if first = 0x0f then rest.head?.map fun second => 0x0f00 ||| second.toUInt16 else some first.toUInt16

/-- The opcode and, in a group, the register field behind it, if they are there. -/
def key? (bytes : List UInt8) : Option (UInt16 × Option UInt8) :=
  (opcode? bytes).bind fun opcode =>
    if Opcode.isGroup opcode then (tail bytes).head?.map fun b => (opcode, some (ModRM.ofByte b).reg)
    else some (opcode, none)

/-- The entry has the key of the bytes. -/
def Keyed (bytes : List UInt8) (e : Opcode.Entry) : Prop := e ∈ Opcode.table ∧ key? bytes = some (e.opcode, e.field)

/-- The bytes name the entry: it has their key, and its ModRM byte if it asks for one. -/
def Names (bytes : List UInt8) (e : Opcode.Entry) : Prop :=
  Keyed bytes e ∧ ∀ expected, e.shape.exactModRM? = some expected → (tail bytes).head? = some expected

/-- The bytes name an opcode and no entry: none has their key, or the one that has it asks for another ModRM byte. -/
def Unlisted (bytes : List UInt8) (opcode : UInt16) : Prop :=
  ∃ field, key? bytes = some (opcode, field) ∧
    ((∀ e, ¬ Keyed bytes e) ∨
      ∃ e expected b, Keyed bytes e ∧ e.shape.exactModRM? = some expected ∧ (tail bytes).head? = some b ∧
        b ≠ expected)

/-- The number of bytes of an instruction with the entry. -/
def length (bytes : List UInt8) (e : Opcode.Entry) : Nat :=
  (prefixes bytes).length + opcodeLength bytes + e.shape.length ((prefixes bytes).contains 0x66) (tail bytes)

/-- The set of the prefixes. -/
def prefixSet (bytes : List UInt8) : Prefixes := (prefixes bytes).foldl Prefixes.add {}

variable {bytes : List UInt8} {e e' : Opcode.Entry} {opcode : UInt16} {field : Option UInt8}

private theorem Keyed.find?_eq (h : Keyed bytes e) (hkey : key? bytes = some (opcode, field)) :
    Opcode.find? opcode field = some e := by
  obtain ⟨hmem, hkey'⟩ := h
  rw [hkey, Option.some.injEq, Prod.mk.injEq] at hkey'
  exact Opcode.find?_eq_some_iff.2 ⟨hmem, hkey'.1.symm, hkey'.2.symm⟩

private theorem keyed_of_find? (hkey : key? bytes = some (opcode, field)) (h : Opcode.find? opcode field = some e) :
    Keyed bytes e := by
  obtain ⟨hmem, rfl, rfl⟩ := Opcode.find?_eq_some_iff.1 h
  exact ⟨hmem, hkey⟩

/-- The bytes of an instruction have one entry. -/
theorem Keyed.unique (h : Keyed bytes e) (h' : Keyed bytes e') : e = e' := by
  have hfind := h.find?_eq h'.2
  rw [h'.find?_eq h'.2] at hfind
  exact (Option.some.inj hfind).symm

/-! ### Reading the key -/

private theorem opcode_body (bytes : List UInt8) :
    Fetch.opcode (body bytes) =
      match opcode? bytes with
      | none => .error .truncated
      | some opcode => .ok (opcode, tail bytes) := by
  rw [opcode?, tail, opcodeLength]
  cases body bytes with
  | nil => rfl
  | cons first rest =>
    by_cases hfirst : first = 0x0f
    · subst hfirst
      cases rest with
      | nil => rfl
      | cons second behind => rfl
    · have hhead : (first :: rest).head? ≠ some 0x0f := fun h => hfirst (Option.some.inj h)
      rw [if_neg hhead]
      simp only [if_neg hfirst]
      rw [Fetch.opcode, Fetch.bind_of_ok (x := Fetch.byte) rfl, if_neg hfirst]
      rfl

/-- Reading goes wrong without a key, and else goes on behind the opcode. -/
private theorem encoded_body (set : Prefixes) (bytes : List UInt8) :
    Fetch.encoded set (body bytes) =
      match key? bytes with
      | none => .error .truncated
      | some (opcode, field) => Fetch.listed set opcode field (tail bytes) := by
  have hopcode := opcode_body bytes
  rw [key?, Fetch.encoded]
  cases hcode : opcode? bytes with
  | none =>
    rw [hcode] at hopcode
    exact Fetch.bind_of_error hopcode
  | some opcode =>
    rw [hcode] at hopcode
    rw [Fetch.bind_of_ok hopcode, Fetch.groupField, Option.bind_some]
    by_cases hgroup : Opcode.isGroup opcode = true
    · simp only [hgroup, if_true]
      cases tail bytes with
      | nil => rfl
      | cons b rest => rfl
    · simp only [hgroup]
      rfl

private theorem opcodeLength_le (h : key? bytes = some (opcode, field)) :
    opcodeLength bytes ≤ (body bytes).length := by
  rw [key?, Option.bind_eq_some_iff] at h
  obtain ⟨code, hcode, -⟩ := h
  rw [opcode?] at hcode
  rw [opcodeLength]
  cases hbody : body bytes with
  | nil =>
    rw [hbody] at hcode
    cases hcode
  | cons first rest =>
    rw [hbody] at hcode
    by_cases hfirst : first = 0x0f
    · cases rest with
      | nil => simp [hfirst] at hcode
      | cons second behind => simp [hfirst]
    · simp [hfirst]

private theorem length_eq_add (h : key? bytes = some (opcode, field)) :
    bytes.length = (prefixes bytes).length + opcodeLength bytes + (tail bytes).length := by
  have hopcode := opcodeLength_le h
  have hsplit := congrArg List.length (prefixes_append_body bytes)
  rw [List.length_append] at hsplit
  rw [tail, List.length_drop]
  omega

/-! ### Reading the prefixes -/

/-- A prefix is in the set when its byte is there. -/
private theorem contains_foldl_add {q : Prefixes} {byte : UInt8} (h : q.Single byte) (seen : Prefixes)
    (leading : List UInt8) :
    (leading.foldl Prefixes.add seen).contains q = (seen.contains q || leading.contains byte) := by
  induction leading generalizing seen with
  | nil => simp
  | cons b leading ih => rw [List.foldl_cons, ih, h.contains_add, List.contains_cons, Bool.or_assoc]

/-- A prefix is in the set if its byte is among the prefixes. -/
theorem contains_prefixSet {q : Prefixes} {byte : UInt8} (h : q.Single byte) (bytes : List UInt8) :
    (prefixSet bytes).contains q = (prefixes bytes).contains byte := by
  obtain ⟨k, hk, hq⟩ := h.bit
  have hempty : Prefixes.contains {} q = false := by
    rw [Prefixes.contains_eq_getLsbD _ hk hq]
    exact BitVec.getLsbD_zero
  rw [prefixSet, contains_foldl_add h, hempty, Bool.false_or]

private theorem instruction_eq_tooLong (h : 15 ≤ (prefixes bytes).length) :
    Fetch.instruction bytes = .error .tooLong := by
  rw [Fetch.instruction_eq_bind]
  apply Fetch.bind_of_error
  have hlong : Fetch.prefixes {} 0 (prefixes bytes ++ body bytes) = .error .tooLong :=
    Fetch.prefixes_eq_tooLong isByte_of_mem_prefixes (by decide) (by rw [Nat.zero_add]; exact h)
  rwa [prefixes_append_body] at hlong

private theorem instruction_eq_encoded (h : (prefixes bytes).length ≤ 14) :
    Fetch.instruction bytes = Fetch.encoded (prefixSet bytes) (body bytes) := by
  have hcount : 0 + (prefixes bytes).length < maxLength := by rw [maxLength]; omega
  have hsplit := prefixes_append_body bytes
  rw [Fetch.instruction_eq_bind]
  cases hbody : body bytes with
  | nil =>
    rw [hbody, List.append_nil] at hsplit
    have hread : Fetch.prefixes {} 0 (prefixes bytes) = .error .truncated :=
      Fetch.prefixes_eq_truncated isByte_of_mem_prefixes hcount
    rw [hsplit] at hread
    rw [Fetch.bind_of_error hread]
    rfl
  | cons first rest =>
    have hread : Fetch.prefixes {} 0 (prefixes bytes ++ first :: rest) =
        .ok ((prefixes bytes).foldl Prefixes.add {}, first :: rest) :=
      Fetch.prefixes_append_cons isByte_of_mem_prefixes (isByte_of_body_eq_cons hbody) hcount
    rw [← hbody, hsplit] at hread
    rw [Fetch.bind_of_ok hread, hbody, prefixSet]

/-! ### Reading the operands -/

/-- The operands of a named entry take the bytes that its shape asks for. -/
private theorem operands_tail (set : Prefixes) (opcode : UInt16) (h : Names bytes e) {n : Nat}
    (hn : e.shape.length (set.contains .operandSize) (tail bytes) = n) :
    ((tail bytes).length < n → Fetch.operands set opcode e.shape (tail bytes) = .error .truncated) ∧
      (n ≤ (tail bytes).length → ∃ ops,
        Fetch.operands set opcode e.shape (tail bytes) = .ok (ops, (tail bytes).drop n)) := by
  obtain ⟨⟨hmem, -⟩, hexact⟩ := h
  cases hshape : e.shape.exactModRM? with
  | none =>
    have hspans := Fetch.spans_operands set opcode (Opcode.matched_of_mem_table hmem) hshape
    subst hn
    refine ⟨hspans.truncated _, fun henough => ?_⟩
    obtain ⟨ops, hops⟩ := hspans.reads _ henough
    have hread := hops ((tail bytes).drop (e.shape.length (set.contains .operandSize) (tail bytes)))
    rw [List.take_append_drop] at hread
    exact ⟨ops, hread⟩
  | some expected =>
    -- The byte that the entry asks for is there, and it is all that the shape takes.
    obtain ⟨rest, htail⟩ := List.head?_eq_some_iff.1 (hexact expected hshape)
    have hmode := Opcode.mode_of_exactModRM? hmem hshape
    rw [Opcode.Shape.eq_of_exactModRM? hshape] at hn ⊢
    have hone : n = 1 := by
      rw [← hn, htail]
      simp [Opcode.Shape.length, Opcode.Shape.hasModRM, Opcode.Shape.constantLength, ModRM.tailLength, hmode]
    subst hone
    rw [htail]
    refine ⟨fun hfew => absurd hfew (by simp), fun _ => ⟨[], ?_⟩⟩
    rw [Fetch.operands, Fetch.bind_of_ok (x := Fetch.byte) rfl, if_pos rfl]
    rfl

private theorem instruction_of_names (hprefixes : (prefixes bytes).length ≤ 14) (h : Names bytes e) :
    (bytes.length < length bytes e → Fetch.instruction bytes = .error .truncated) ∧
      (length bytes e ≤ bytes.length → ∃ ops rest,
        Fetch.instruction bytes = .ok ((prefixSet bytes, e.opcode, e.mnemonic, ops), rest) ∧
          bytes.length - rest.length = length bytes e) := by
  have hkey := h.1.2
  have htotal := length_eq_add hkey
  have hread : Fetch.instruction bytes = Fetch.listed (prefixSet bytes) e.opcode e.field (tail bytes) := by
    rw [instruction_eq_encoded hprefixes, encoded_body, hkey]
  rw [hread, Fetch.listed_of_some _ (h.1.find?_eq hkey), length]
  obtain ⟨hfew, henough⟩ := operands_tail (prefixSet bytes) e.opcode h
    (n := e.shape.length ((prefixes bytes).contains 0x66) (tail bytes))
      (by rw [contains_prefixSet Prefixes.single_operandSize])
  constructor
  · intro hshort
    exact Fetch.bind_of_error (hfew (by omega))
  · intro hfits
    obtain ⟨ops, hops⟩ := henough (by omega)
    refine ⟨_, _, Fetch.bind_of_ok hops, ?_⟩
    rw [List.length_drop]
    omega

private theorem instruction_of_unlisted (hprefixes : (prefixes bytes).length ≤ 14) (h : Unlisted bytes opcode) :
    Fetch.instruction bytes = .error (.unknownOpcode opcode) := by
  obtain ⟨field, hkey, hentry⟩ := h
  have hread : Fetch.instruction bytes = Fetch.listed (prefixSet bytes) opcode field (tail bytes) := by
    rw [instruction_eq_encoded hprefixes, encoded_body, hkey]
  rw [hread]
  rcases hentry with hnone | ⟨e, expected, b, hkeyed, hshape, hhead, hne⟩
  · have hfind : Opcode.find? opcode field = none :=
      Option.eq_none_iff_forall_ne_some.2 fun e hfind => hnone e (keyed_of_find? hkey hfind)
    rw [Fetch.listed_of_none _ hfind]
    rfl
  · obtain ⟨rest, htail⟩ := List.head?_eq_some_iff.1 hhead
    rw [Fetch.listed_of_some _ (hkeyed.find?_eq hkey), Opcode.Shape.eq_of_exactModRM? hshape, htail]
    apply Fetch.bind_of_error
    rw [Fetch.operands, Fetch.bind_of_ok (x := Fetch.byte) rfl, if_neg hne]
    rfl

/-- Bytes that name no entry and are not unlisted end before their key or before the ModRM byte of their entry. -/
private theorem instruction_of_unnamed (hprefixes : (prefixes bytes).length ≤ 14) (hnames : ∀ e, ¬ Names bytes e)
    (hunlisted : ∀ opcode, ¬ Unlisted bytes opcode) : Fetch.instruction bytes = .error .truncated := by
  rw [instruction_eq_encoded hprefixes, encoded_body]
  cases hkey : key? bytes with
  | none => rfl
  | some key =>
    obtain ⟨opcode, field⟩ := key
    obtain ⟨e, hkeyed⟩ : ∃ e, Keyed bytes e := by
      by_contra hnone
      exact hunlisted opcode ⟨field, hkey, .inl (not_exists.1 hnone)⟩
    obtain ⟨expected, hshape, hhead⟩ :
        ∃ expected, e.shape.exactModRM? = some expected ∧ (tail bytes).head? ≠ some expected := by
      by_contra hnone
      push Not at hnone
      exact hnames e ⟨hkeyed, hnone⟩
    cases htail : tail bytes with
    | nil =>
      dsimp only
      rw [Fetch.listed_of_some _ (hkeyed.find?_eq hkey), Opcode.Shape.eq_of_exactModRM? hshape]
      rfl
    | cons b rest =>
      rw [htail] at hhead
      have hne : b ≠ expected := fun h => hhead (congrArg some h)
      exact absurd ⟨field, hkey, .inr ⟨e, expected, b, hkeyed, hshape, by rw [htail]; rfl, hne⟩⟩ (hunlisted opcode)

end Encoding

/-! ### Answers of the decoder -/

open Encoding (Names Unlisted)

variable {bytes : List UInt8} {e : Opcode.Entry}

private theorem decode_of_instruction_error {fault : DecodeFault} (address : UInt32)
    (h : Fetch.instruction bytes = .error fault) : decode bytes address = .error ⟨address, fault⟩ := by
  rw [decode, h]

/-- An instruction of a named entry, all of whose bytes are there, is refused for its length alone. -/
private theorem decode_of_names (address : UInt32) (hprefixes : (Encoding.prefixes bytes).length ≤ 14)
    (h : Names bytes e)
    (hfits : Encoding.length bytes e ≤ bytes.length) :
    ∃ ops, decode bytes address =
      if 15 < Encoding.length bytes e then .error ⟨address, .tooLong⟩
      else .ok (⟨Encoding.prefixSet bytes, e.opcode, e.mnemonic, ops, address,
        address + UInt32.ofNat (Encoding.length bytes e)⟩, Encoding.length bytes e) := by
  obtain ⟨ops, rest, hread, hlength⟩ := (Encoding.instruction_of_names hprefixes h).2 hfits
  refine ⟨ops, ?_⟩
  rw [decode, hread]
  dsimp only
  rw [hlength]
  rfl

private theorem decode_of_short (address : UInt32) (hprefixes : (Encoding.prefixes bytes).length ≤ 14)
    (hunlisted : ∀ opcode, ¬ Unlisted bytes opcode) (hshort : ∀ e, Names bytes e →
      bytes.length < Encoding.length bytes e) :
    decode bytes address = .error ⟨address, .truncated⟩ := by
  apply decode_of_instruction_error
  by_cases hnames : ∃ e, Names bytes e
  · obtain ⟨e, he⟩ := hnames
    exact (Encoding.instruction_of_names hprefixes he).1 (hshort e he)
  · exact Encoding.instruction_of_unnamed hprefixes (not_exists.1 hnames) hunlisted

/-- What is decoded is the instruction of a named entry. -/
theorem exists_names_of_decode {address : UInt32} {i : Instruction} {n : Nat}
    (h : decode bytes address = .ok (i, n)) :
    (Encoding.prefixes bytes).length ≤ 14 ∧ ∃ e ops, Names bytes e ∧ Encoding.length bytes e = n ∧ n ≤ 15 ∧
      n ≤ bytes.length ∧
      i = ⟨Encoding.prefixSet bytes, e.opcode, e.mnemonic, ops, address, address + UInt32.ofNat n⟩ := by
  have herror : ∀ fault, decode bytes address ≠ .error ⟨address, fault⟩ := fun fault hfault => by
    rw [h] at hfault
    cases hfault
  have hprefixes : (Encoding.prefixes bytes).length ≤ 14 := by
    by_contra hmany
    exact herror _ (decode_of_instruction_error address (Encoding.instruction_eq_tooLong (by omega)))
  have hunlisted : ∀ opcode, ¬ Unlisted bytes opcode := fun opcode hopcode =>
    herror _ (decode_of_instruction_error address (Encoding.instruction_of_unlisted hprefixes hopcode))
  obtain ⟨e, hnames, hfits⟩ : ∃ e, Names bytes e ∧ Encoding.length bytes e ≤ bytes.length := by
    by_contra hnone
    push Not at hnone
    exact herror _ (decode_of_short address hprefixes hunlisted hnone)
  obtain ⟨ops, hdecode⟩ := decode_of_names address hprefixes hnames hfits
  rw [h] at hdecode
  split at hdecode
  · cases hdecode
  · rename_i hlength
    cases hdecode
    exact ⟨hprefixes, e, ops, hnames, rfl, by omega, hfits, rfl⟩

/-- The operands of a decoded instruction are read behind its opcode. -/
theorem operands_of_decode {address : UInt32} {i : Instruction} {n : Nat} (h : decode bytes address = .ok (i, n))
    (hnames : Names bytes e) :
    i.mnemonic = e.mnemonic ∧ i.prefixes = Encoding.prefixSet bytes ∧ ∃ ops rest,
      Fetch.operands (Encoding.prefixSet bytes) e.opcode e.shape (Encoding.tail bytes) = .ok (ops, rest) ∧
      i.operands = if e.readsFirst then Fetch.repeatFirst ops else ops := by
  obtain ⟨hprefixes, -⟩ := exists_names_of_decode h
  obtain ⟨rest, hread⟩ := instruction_of_decode h
  rw [Encoding.instruction_eq_encoded hprefixes, Encoding.encoded_body, hnames.1.2] at hread
  dsimp only at hread
  rw [Fetch.listed_of_some _ (hnames.1.find?_eq hnames.1.2)] at hread
  obtain ⟨ops, middle, hops, hpure⟩ := Fetch.bind_eq_ok.1 hread
  obtain ⟨_, _, _, _, _, _⟩ := i
  cases hpure
  exact ⟨rfl, rfl, ops, _, hops, rfl⟩

/-- The decoder accepts exactly the bytes of its grammar, and says in this order what is wrong with others: too many
prefixes, an opcode that is not listed, an instruction that is too long, and else that bytes are missing. -/
theorem decode_grammar (bytes : List UInt8) (address : UInt32) :
    (∀ n, (∃ i, decode bytes address = .ok (i, n)) ↔
      (Encoding.prefixes bytes).length ≤ 14 ∧
        ∃ e, Names bytes e ∧ Encoding.length bytes e = n ∧ n ≤ 15 ∧ n ≤ bytes.length) ∧
    (∀ i n, decode bytes address = .ok (i, n) →
      i.prefixes = Encoding.prefixSet bytes ∧ i.address = address ∧ i.nextAddress = address + UInt32.ofNat n ∧
        ∀ e, Names bytes e → i.opcode = e.opcode ∧ i.mnemonic = e.mnemonic) ∧
    (15 ≤ (Encoding.prefixes bytes).length → decode bytes address = .error ⟨address, .tooLong⟩) ∧
    ((Encoding.prefixes bytes).length ≤ 14 →
      (∀ opcode, Unlisted bytes opcode → decode bytes address = .error ⟨address, .unknownOpcode opcode⟩) ∧
      (∀ e, Names bytes e → 15 < Encoding.length bytes e → Encoding.length bytes e ≤ bytes.length →
        decode bytes address = .error ⟨address, .tooLong⟩) ∧
      ((∀ opcode, ¬ Unlisted bytes opcode) → (∀ e, Names bytes e → bytes.length < Encoding.length bytes e) →
        decode bytes address = .error ⟨address, .truncated⟩)) := by
  refine ⟨fun n => ⟨?_, ?_⟩, fun i n hok => ?_, fun hmany => ?_, fun hprefixes => ⟨fun opcode hopcode => ?_, ?_, ?_⟩⟩
  · rintro ⟨i, hok⟩
    obtain ⟨hprefixes, e, -, hnames, hlength, hmax, hfits, -⟩ := exists_names_of_decode hok
    exact ⟨hprefixes, e, hnames, hlength, hmax, hfits⟩
  · rintro ⟨hprefixes, e, hnames, rfl, hmax, hfits⟩
    obtain ⟨ops, hdecode⟩ := decode_of_names address hprefixes hnames hfits
    rw [if_neg (by omega)] at hdecode
    exact ⟨_, hdecode⟩
  · obtain ⟨-, e, ops, hnames, -, -, -, rfl⟩ := exists_names_of_decode hok
    refine ⟨rfl, rfl, rfl, fun e' hnames' => ?_⟩
    obtain rfl := hnames.1.unique hnames'.1
    exact ⟨rfl, rfl⟩
  · exact decode_of_instruction_error address (Encoding.instruction_eq_tooLong hmany)
  · exact decode_of_instruction_error address (Encoding.instruction_of_unlisted hprefixes hopcode)
  · intro e hnames hlong hfits
    obtain ⟨ops, hdecode⟩ := decode_of_names address hprefixes hnames hfits
    rw [hdecode, if_pos hlong]
  · intro hunlisted hshort
    exact decode_of_short address hprefixes hunlisted hshort

/-- The sum of a constant and memory addressed by a SIB byte and a displacement, under the given number of
prefixes. -/
def prefixedSum (count : Nat) : List UInt8 :=
  List.replicate count 0x64 ++ [0x81, 0x84, 0x8b, 0x10, 0x32, 0x54, 0x76, 0x98, 0xba, 0xdc, 0xfe]

/-- Four prefixes make the sum as long as an instruction may be, and a fifth makes it too long. -/
theorem decode_prefixedSum :
    (∃ i, decode (prefixedSum 4) 0xfffffffc = .ok (i, 15) ∧ i.mnemonic = .binary .add ∧ i.nextAddress = 11) ∧
      decode (prefixedSum 5) 0xfffffffc = .error ⟨0xfffffffc, .tooLong⟩ := by
  have hnames : ∀ count < 6, Names (prefixedSum count)
    (Opcode.member 0x81 (.rmImm .full .full) true 0 (.binary .add)) :=
    fun count hcount => by
      refine ⟨⟨by decide +kernel, ?_⟩, fun _ h => by cases h⟩
      revert count
      decide +kernel
  obtain ⟨haccepts, hresult, -, -⟩ := decode_grammar (prefixedSum 4) 0xfffffffc
  obtain ⟨i, hi⟩ := (haccepts 15).2 ⟨by decide, _, hnames 4 (by decide), by decide, by decide, by decide⟩
  obtain ⟨-, -, hnext, hentry⟩ := hresult i 15 hi
  obtain ⟨-, -, -, hfaults⟩ := decode_grammar (prefixedSum 5) 0xfffffffc
  obtain ⟨-, hlong, -⟩ := hfaults (by decide)
  exact ⟨⟨i, hi, (hentry _ (hnames 4 (by decide))).2, hnext⟩,
    hlong _ (hnames 5 (by decide)) (by decide) (by decide)⟩

end Ia32Wasm.X86
