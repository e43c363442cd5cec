import Ia32Wasm.Proofs.Outcomes
import Ia32Wasm.Proofs.X86.Extent

/-!
# Decoding needs no more bytes than it takes

A decoder that gets the bytes of an instruction one by one can answer as soon as the last of them is there, and not
before.  So its answer does not change when more bytes follow, unless it was that some are missing.

* `Settles` is a reader that has come to its answer by the end of some bytes.  Answers pass through sequences
  (`Settles.bind`).  A reader that has looked at one byte more than it took settles together with the next one, which
  takes that byte (`Looks.bind`): prefixes with the opcode behind them, and the field of a group with the ModRM byte.
* The address of an instruction only names it (`decode_readdress`).
-/

namespace Ia32Wasm.X86

namespace Fetch

variable {α β : Type} {x : Fetch α} {f : α → Fetch β} {bytes : List UInt8}

/-- What the reader makes of `bytes`: more of them are needed, or it fails whatever follows, or it takes a part from
their front, with the same value whatever follows that part. -/
inductive Settles (x : Fetch α) (bytes : List UInt8) : Prop
  | truncated : x bytes = .error .truncated → Settles x bytes
  | fault (fault : DecodeFault) : (∀ rest, x (bytes ++ rest) = .error fault) → Settles x bytes
  | value (front back : List UInt8) (a : α) : bytes = front ++ back → (∀ rest, x (front ++ rest) = .ok (a, rest)) →
    Settles x bytes

/-- Like `Settles`, but the value depends on one byte that the reader leaves in place. -/
inductive Looks (x : Fetch α) (bytes : List UInt8) : Prop
  | truncated : x bytes = .error .truncated → Looks x bytes
  | fault (fault : DecodeFault) : (∀ rest, x (bytes ++ rest) = .error fault) → Looks x bytes
  | value (front back : List UInt8) (next : UInt8) (a : α) : bytes = front ++ next :: back →
    (∀ rest, x (front ++ next :: rest) = .ok (a, next :: rest)) → Looks x bytes

/-! ### Composition -/

private theorem settles_pure (a : α) (bytes : List UInt8) : Settles (pure a) bytes :=
  .value [] bytes a rfl fun _ => rfl

private theorem settles_throw (fault : DecodeFault) (bytes : List UInt8) : Settles (throw fault : Fetch α) bytes :=
  .fault fault fun _ => rfl

private theorem settles_byte (bytes : List UInt8) : Settles byte bytes := by
  cases bytes with
  | nil => exact .truncated rfl
  | cons b rest => exact .value [b] rest b rfl fun _ => rfl

/-- A sequence settles if its first part does and the second does so on all bytes. -/
theorem Settles.bind (hx : Settles x bytes) (hf : ∀ a bytes, Settles (f a) bytes) : Settles (x >>= f) bytes := by
  cases hx with
  | truncated h => exact .truncated (bind_of_error h)
  | fault fault h => exact .fault fault fun rest => bind_of_error (h rest)
  | value front back a hbytes h =>
    subst hbytes
    cases hf a back with
    | truncated h' => exact .truncated (by rw [bind_of_ok (h back), h'])
    | fault fault h' =>
      refine .fault fault fun rest => ?_
      rw [List.append_assoc, bind_of_ok (h _), h']
    | value front' back' b hback h' =>
      subst hback
      refine .value (front ++ front') back' b (List.append_assoc ..).symm fun rest => ?_
      rw [List.append_assoc, bind_of_ok (h _), h']

/-- The next reader takes the byte that was looked at, since it has no value without any bytes. -/
theorem Looks.bind (hx : Looks x bytes) (hf : ∀ a bytes, Settles (f a) bytes) (hnil : ∀ a v, f a [] ≠ .ok v) :
    Settles (x >>= f) bytes := by
  cases hx with
  | truncated h => exact .truncated (bind_of_error h)
  | fault fault h => exact .fault fault fun rest => bind_of_error (h rest)
  | value front back next a hbytes h =>
    subst hbytes
    cases hf a (next :: back) with
    | truncated h' => exact .truncated (by rw [bind_of_ok (h back), h'])
    | fault fault h' =>
      refine .fault fault fun rest => ?_
      rw [List.append_assoc, List.cons_append, bind_of_ok (h _)]
      exact h' rest
    | value taken back' b hback h' =>
      cases taken with
      | nil => exact absurd (h' []) (hnil a _)
      | cons first taken =>
        obtain ⟨rfl, rfl⟩ := List.cons.inj hback
        refine .value (front ++ next :: taken) back' b (by simp) fun rest => ?_
        rw [List.append_assoc, List.cons_append, bind_of_ok (h _)]
        exact h' rest

private theorem Spans.settles {n : List UInt8 → Nat} (hx : Spans x n) (bytes : List UInt8) : Settles x bytes := by
  by_cases h : bytes.length < n bytes
  · exact .truncated (hx.truncated bytes h)
  · obtain ⟨a, ha⟩ := hx.reads bytes (by omega)
    exact .value _ _ a (List.take_append_drop (n bytes) bytes).symm ha

/-! ### Parts of instructions -/

private theorem looks_prefixes (bytes : List UInt8) : Looks (prefixes {} 0) bytes := by
  have hsplit := Encoding.prefixes_append_body bytes
  by_cases hlong : maxLength ≤ 0 + (Encoding.prefixes bytes).length
  · refine .fault .tooLong fun rest => ?_
    rw [← hsplit, List.append_assoc]
    exact prefixes_eq_tooLong Encoding.isByte_of_mem_prefixes (by decide) hlong
  · rw [Nat.not_le] at hlong
    cases hbody : Encoding.body bytes with
    | nil =>
      rw [hbody, List.append_nil] at hsplit
      rw [← hsplit]
      exact .truncated (prefixes_eq_truncated Encoding.isByte_of_mem_prefixes hlong)
    | cons first behind =>
      rw [hbody] at hsplit
      exact .value _ behind first _ hsplit.symm fun rest =>
        prefixes_append_cons Encoding.isByte_of_mem_prefixes (Encoding.isByte_of_body_eq_cons hbody) hlong

private theorem settles_opcode (bytes : List UInt8) : Settles opcode bytes := by
  refine (settles_byte bytes).bind fun first rest => ?_
  split
  · exact (settles_byte rest).bind fun second => settles_pure _
  · exact settles_pure _ rest

private theorem settles_operands (prefixes : Prefixes) (opcode : UInt16) {entry : Opcode.Entry}
    (hentry : entry ∈ Opcode.table)
    (bytes : List UInt8) : Settles (operands prefixes opcode entry.shape) bytes := by
  have hmatched := Opcode.matched_of_mem_table hentry
  cases hshape : entry.shape with
  | exactModRM expected =>
    refine (settles_byte bytes).bind fun b rest => ?_
    split
    · exact settles_pure [] rest
    · exact settles_throw _ rest
  | _ => exact (spans_operands prefixes opcode (hshape ▸ hmatched) rfl).settles bytes

private theorem settles_listed (prefixes : Prefixes) (opcode : UInt16) (field : Option UInt8) (bytes : List UInt8) :
    Settles (listed prefixes opcode field) bytes := by
  cases hentry : Opcode.find? opcode field with
  | none =>
    rw [listed_of_none prefixes hentry]
    exact settles_throw _ bytes
  | some entry =>
    rw [listed_of_some prefixes hentry]
    exact (settles_operands prefixes opcode (List.mem_of_find?_eq_some hentry) bytes).bind fun _ => settles_pure _

/-- The entries of groups have a ModRM byte. -/
private theorem hasModRM_of_field {opcode : UInt16} {field : UInt8} {entry : Opcode.Entry}
    (h : Opcode.find? opcode (some field) = some entry) : entry.shape.hasModRM = true := by
  have hall : Opcode.table.all (fun e => !e.field.isSome || e.shape.hasModRM) = true := by decide +kernel
  have hentry := List.all_eq_true.1 hall entry (List.mem_of_find?_eq_some h)
  have hfield : entry.field = some field := by
    have hkey := List.find?_some h
    simp only [Bool.and_eq_true, beq_iff_eq] at hkey
    exact hkey.2
  rw [hfield] at hentry
  exact hentry

private theorem operands_nil {prefixes : Prefixes} {opcode : UInt16} {entry : Opcode.Entry}
    (hentry : entry ∈ Opcode.table) (hmodRM : entry.shape.hasModRM = true) :
    operands prefixes opcode entry.shape [] = .error .truncated := by
  have hmatched := Opcode.matched_of_mem_table hentry
  cases hshape : entry.shape with
  | exactModRM expected => rfl
  | _ =>
    refine (spans_operands prefixes opcode (hshape ▸ hmatched) rfl).truncated [] ?_
    rw [hshape] at hmodRM
    rw [Opcode.Shape.length, if_pos hmodRM, List.length_nil]
    omega

private theorem listed_nil (prefixes : Prefixes) (opcode : UInt16) (field : UInt8)
    (v : (Prefixes × UInt16 × Mnemonic × List Operand) × List UInt8) :
    listed prefixes opcode (some field) [] ≠ .ok v := by
  intro h
  cases hentry : Opcode.find? opcode (some field) with
  | none =>
    rw [listed_of_none prefixes hentry] at h
    cases h
  | some entry =>
    rw [listed_of_some prefixes hentry,
      bind_of_error (operands_nil (List.mem_of_find?_eq_some hentry) (hasModRM_of_field hentry))] at h
    cases h

private theorem looks_peek (bytes : List UInt8) : Looks peek bytes := by
  cases bytes with
  | nil => exact .truncated rfl
  | cons next back => exact .value [] back next next rfl fun _ => rfl

private theorem settles_encoded (prefixes : Prefixes) (bytes : List UInt8) : Settles (encoded prefixes) bytes := by
  refine (settles_opcode bytes).bind fun opcode rest => ?_
  rw [groupField]
  split
  · rw [bind_assoc]
    exact (looks_peek rest).bind (fun b => settles_listed prefixes opcode _) fun b => listed_nil prefixes opcode _
  · exact (settles_pure none rest).bind (settles_listed prefixes opcode)

private theorem settles_instruction (bytes : List UInt8) : Settles instruction bytes := by
  rw [instruction_eq_bind]
  exact (looks_prefixes bytes).bind settles_encoded fun _ _ h => by cases h

end Fetch

/-! ### Instructions -/

/-- The answer of a decoder for the same bytes at another address. -/
def readdress (address : UInt32) : Except DecodeError (Instruction × Nat) → Except DecodeError (Instruction × Nat)
  | .ok (i, n) => .ok ({ i with address, nextAddress := address + UInt32.ofNat n }, n)
  | .error e => .error { e with address }

/-- The address of an instruction only names it and what follows. -/
theorem decode_readdress (bytes : List UInt8) (address address' : UInt32) :
    decode bytes address' = readdress address' (decode bytes address) := by
  unfold decode
  split
  · rfl
  · dsimp only
    split
    · rfl
    · rfl

/-- Unless more bytes are needed, a part from the front decides the answer, and an instruction is as long as that
part. -/
theorem exists_deciding_front (bytes : List UInt8) (address : UInt32) :
    decode bytes address = .error ⟨address, .truncated⟩ ∨
      ∃ front back, bytes = front ++ back ∧ (∀ rest, decode (front ++ rest) address = decode bytes address) ∧
        ∀ i n, decode bytes address = .ok (i, n) → n = front.length := by
  cases Fetch.settles_instruction bytes with
  | truncated h => exact .inl (by rw [decode, h])
  | fault fault h =>
    have hfault : ∀ rest, decode (bytes ++ rest) address = .error ⟨address, fault⟩ := fun rest => by rw [decode, h]
    have hbytes := hfault []
    rw [List.append_nil] at hbytes
    refine .inr ⟨bytes, [], (List.append_nil bytes).symm, fun rest => by rw [hfault, hbytes], fun i n hok => ?_⟩
    rw [hbytes] at hok
    cases hok
  | value front back v hbytes h =>
    subst hbytes
    have hlength : ∀ rest : List UInt8, (front ++ rest).length - rest.length = front.length := fun rest => by simp
    refine .inr ⟨front, back, rfl, fun rest => ?_, fun i n hok => ?_⟩
    · rw [decode, h, decode, h]
      simp only [hlength]
    · rw [decode, h] at hok
      simp only [hlength] at hok
      split at hok
      · cases hok
      · cases hok
        rfl

/-- The decoder answers from the bytes that it takes.  More bytes change no answer but that some are missing; an
instruction is decoded from its own bytes and from no part of them; and at another address the same bytes give the
same answer but for the address. -/
theorem decode_online (bytes : List UInt8) (address : UInt32) :
    (∀ rest, (∀ e, decode bytes address = .error e → e.fault ≠ .truncated) →
      decode (bytes ++ rest) address = decode bytes address) ∧
    (∀ i n, decode bytes address = .ok (i, n) →
      decode (bytes.take n) address = .ok (i, n) ∧
      ∀ part, part <+: bytes.take n → part ≠ bytes.take n → decode part address = .error ⟨address, .truncated⟩) ∧
    ∀ address', decode bytes address' = readdress address' (decode bytes address) := by
  refine ⟨fun rest hfault => ?_, fun i n hok => ?_, decode_readdress bytes address⟩
  · rcases exists_deciding_front bytes address with htruncated | ⟨front, back, rfl, hfront, -⟩
    · exact absurd rfl (hfault _ htruncated)
    · rw [List.append_assoc]
      exact hfront _
  · rcases exists_deciding_front bytes address with htruncated | ⟨front, back, rfl, hfront, hlength⟩
    · rw [hok] at htruncated
      cases htruncated
    · obtain rfl := hlength i n hok
      rw [List.take_left]
      refine ⟨?_, fun part hpart hne => ?_⟩
      · rw [← hok, ← hfront [], List.append_nil]
      · -- If a proper part were enough to answer, the instruction would be as long as that part.
        refine (exists_deciding_front part address).resolve_right ?_
        rintro ⟨taken, left, rfl, htaken, hshort⟩
        obtain ⟨missing, rfl⟩ := hpart
        have hpartOk : decode (taken ++ left) address = .ok (i, (taken ++ left ++ missing).length) := by
          rw [← hok, ← htaken (left ++ missing ++ back)]
          simp only [List.append_assoc]
        have hmissing := hshort i _ hpartOk
        rw [List.length_append, List.length_append] at hmissing
        have hnil : missing = [] := List.eq_nil_of_length_eq_zero (by omega)
        rw [hnil, List.append_nil] at hne
        exact hne rfl

/-- The sum of a register and memory addressed by a SIB byte, with a displacement and a constant, under two prefixes
and in front of other bytes. -/
def dense : List UInt8 := [0x64, 0x66, 0x81, 0x84, 0x8b, 0x10, 0x32, 0x54, 0x76, 0x98, 0xba, 0x90, 0xc3]

/-- The eleven bytes are enough, ten are not, and two more change nothing. -/
theorem decode_dense : ∃ i, decode dense 0xfffffffc = .ok (i, 11) ∧ i.nextAddress = 7 ∧
    decode (dense.take 11) 0xfffffffc = .ok (i, 11) ∧
    decode (dense.take 10) 0xfffffffc = .error ⟨0xfffffffc, .truncated⟩ ∧
    decode dense 0x1000 = .ok ({ i with address := 0x1000, nextAddress := 0x100b }, 11) := by
  obtain ⟨⟨i, _⟩, hr, rfl, hnext⟩ : ∃ r, decode dense 0xfffffffc = .ok r ∧ r.2 = 11 ∧ r.1.nextAddress = 7 :=
    exists_of_any_toOption (by decide +kernel)
  obtain ⟨-, hparts, hmoved⟩ := decode_online dense 0xfffffffc
  obtain ⟨hown, hpart⟩ := hparts i 11 hr
  exact ⟨i, hr, hnext, hown, hpart _ (List.prefix_take_iff.2 ⟨by decide, by decide⟩) (by decide),
    by rw [hmoved 0x1000, hr]; rfl⟩

end Ia32Wasm.X86
