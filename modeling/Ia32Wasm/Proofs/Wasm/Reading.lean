import Ia32Wasm.Proofs.Wasm.Binary

/-!
# Modules read back

What is written is read back: numbers with the fewest bytes, names, vectors, instructions with their immediates, and
sections.

* `Yields p bytes a`: whatever follows them, the reader `p` takes exactly `bytes` and gives `a`.
* `Readable` is the property of code that its constructs match and its indices have at most 32 bits.  Valid code has
  it (`readable_of_validate`).
* A module with readable code reads as what it was made from (`read?_encode`), unless a section is so large that its
  size has more than 32 bits or the edition of the grammar does not have one of its instructions; such a module is
  refused.
-/

namespace Ia32Wasm.Wasm

/-- The index in the instruction, if there is one, has at most 32 bits. -/
def Instr.Fits : Instr Nat → Prop
  | .br index | .brIf index | .call index | .localGet index | .localSet index | .globalGet index | .globalSet index =>
    index < 2 ^ 32
  | _ => True

/-- The constructs of the code match, and its indices have at most 32 bits. -/
structure Readable (code : List (Instr Nat)) : Prop where
  fits : ∀ instr ∈ code, instr.Fits
  closes : code.foldlM Instr.follow [false] = some [false]

namespace Binary

variable {α β γ : Type}

/-! ### Sequences -/

/-- Whatever follows the bytes, the reader takes them and gives the value. -/
def Yields (p : Reader α) (bytes : List UInt8) (a : α) : Prop := ∀ rest, p (bytes ++ rest) = some (a, rest)

section Yields

variable {p : Reader α} {f : α → Reader β} {bytes bytes' rest : List UInt8} {a : α} {b : β}

private theorem bind_of_some (h : p bytes = some (a, rest)) : (p >>= f) bytes = f a rest := by
  show StateT.bind p f bytes = _
  rw [StateT.bind, h]
  rfl

private theorem bind_of_none (h : p bytes = none) : (p >>= f) bytes = none := by
  show StateT.bind p f bytes = _
  rw [StateT.bind, h]
  rfl

/-- What is read in sequence is written in sequence. -/
theorem Yields.bind (hp : Yields p bytes a) (hf : Yields (f a) bytes' b) : Yields (p >>= f) (bytes ++ bytes') b := by
  intro rest
  rw [List.append_assoc, bind_of_some (hp (bytes' ++ rest))]
  exact hf rest

/-- A reader that yields takes all the bytes if nothing follows. -/
theorem Yields.all (hp : Yields p bytes a) : p bytes = some (a, []) := by
  have h := hp []
  rwa [List.append_nil] at h

private theorem yields_pure (a : α) : Yields (pure a) [] a := fun _ => rfl

theorem Yields.map {g : α → β} (hp : Yields p bytes a) : Yields (do return g (← p)) bytes (g a) := by
  have h := hp.bind (f := fun a => pure (g a)) (yields_pure (g a))
  rwa [List.append_nil] at h

private theorem yields_byte (b : UInt8) : Yields byte [b] b := fun _ => rfl

private theorem Yields.byte_bind {f : UInt8 → Reader β} {first : UInt8} (h : Yields (f first) bytes b) :
    Yields (byte >>= f) (first :: bytes) b :=
  (yields_byte first).bind h

private theorem yields_guard {c : Prop} [Decidable c] (h : c) : Yields (guard c) [] () := by
  intro rest
  have hguard : (guard c : Reader Unit) = pure () := if_pos h
  rw [hguard]
  rfl

private theorem yields_expect (b : UInt8) : Yields (expect b) [b] () := (yields_byte b).bind (yields_guard rfl)

private theorem Yields.expect_bind {p : Reader β} {first : UInt8} (h : Yields p bytes b) :
    Yields (do expect first; p) (first :: bytes) b :=
  (yields_expect first).bind h

end Yields

/-! ### Numbers -/

private theorem pow_split {bits : Nat} (h : 7 < bits) : 2 ^ bits = 128 * 2 ^ (bits - 7) := by
  rw [show bits = 7 + (bits - 7) by omega, Nat.pow_add, show 7 + (bits - 7) - 7 = bits - 7 by omega]

/-- A number is read back if it has at most as many bits as are asked for, and refused otherwise. -/
private theorem unsigned_leb128 (bits n : Nat) (rest : List UInt8) :
    unsigned bits (Leb128.unsigned n ++ rest) = if n < 2 ^ bits then some (n, rest) else none := by
  induction n using Nat.strongRecOn generalizing bits with
  | ind n ih =>
    rw [Leb128.unsigned]
    split
    · rename_i hsmall
      have hbyte : (UInt8.ofNat n).toNat = n := by
        rw [UInt8.toNat_ofNat']
        omega
      rw [List.singleton_append, unsigned, hbyte, if_pos (by omega)]
    · rename_i hlarge
      have hbyte : (UInt8.ofNat (n % 128 + 128)).toNat = n % 128 + 128 := by
        rw [UInt8.toNat_ofNat']
        omega
      rw [List.cons_append, unsigned, hbyte, if_neg (by omega), ih (n / 128) (by omega)]
      by_cases hbits : 7 < bits
      · have hsplit := pow_split hbits
        rw [if_pos hbits]
        by_cases hn : n < 2 ^ bits
        · have hquotient : n / 128 < 2 ^ (bits - 7) := by omega
          have hvalue : 2 ^ 7 * (n / 128) + (n % 128 + 128 - 2 ^ 7) = n := by omega
          rw [if_pos hquotient, if_pos hn]
          exact congrArg (fun m => some (m, rest)) hvalue
        · have hquotient : ¬ n / 128 < 2 ^ (bits - 7) := by omega
          rw [if_neg hquotient, if_neg hn, Option.map_none]
      · have hle : 2 ^ bits ≤ 2 ^ 7 := Nat.pow_le_pow_right (by omega) (by omega)
        rw [if_neg hbits, if_neg (by omega)]

private theorem yields_unsigned {bits n : Nat} (h : n < 2 ^ bits) : Yields (unsigned bits) (Leb128.unsigned n) n := by
  intro rest
  rw [unsigned_leb128, if_pos h]

private theorem yields_signed {bits : Nat} {n : Int} (hlow : -(2 ^ (bits - 1) : Nat) ≤ n)
    (hhigh : n < (2 ^ (bits - 1) : Nat)) :
    Yields (signed bits) (Leb128.signed n) n := by
  intro rest
  induction bits using Nat.strongRecOn generalizing n with
  | ind bits ih =>
    rw [Leb128.signed]
    split
    · rename_i hsmall
      have hbyte : (UInt8.ofNat (n % 128).toNat).toNat = (n % 128).toNat := by
        rw [UInt8.toNat_ofNat']
        omega
      rw [List.singleton_append, signed, hbyte]
      by_cases hneg : n < 0
      · rw [if_neg (by omega), if_pos (by omega), if_pos (by omega)]
        congr 2
        omega
      · rw [if_pos (by omega), if_pos (by omega)]
        congr 2
        omega
    · rename_i hlarge
      have hbits : 7 < bits := by
        refine Nat.lt_of_not_le fun hle => ?_
        have hpow : 2 ^ (bits - 1) ≤ 2 ^ 6 := Nat.pow_le_pow_right (by omega) (by omega)
        omega
      have hsplit : 2 ^ (bits - 1) = 128 * 2 ^ (bits - 7 - 1) := by
        rw [show bits - 1 = 7 + (bits - 7 - 1) by omega, Nat.pow_add]
      have hbyte : (UInt8.ofNat ((n % 128).toNat + 128)).toNat = (n % 128).toNat + 128 := by
        rw [UInt8.toNat_ofNat']
        omega
      have hquotient := ih (bits - 7) (by omega) (n := n / 128) (by omega) (by omega)
      have hvalue : 2 ^ 7 * (n / 128) + (((n % 128).toNat + 128 : Nat) - 2 ^ 7) = n := by omega
      rw [List.cons_append, signed, hbyte, if_neg (by omega), if_neg (by omega), if_pos hbits, hquotient]
      exact congrArg (fun i => some (i, rest)) hvalue

/-! ### Frames -/

section Frames

variable {p : Reader α} {bytes : List UInt8} {a : α}

private theorem yields_framed (h : p bytes = some (a, [])) (hfits : bytes.length < 2 ^ 32) :
    Yields (framed p) (sized bytes) a := by
  intro rest
  have hsize : unsigned 32 (Leb128.unsigned bytes.length ++ (bytes ++ rest)) = some (bytes.length, bytes ++ rest) :=
    yields_unsigned hfits _
  rw [sized, List.append_assoc, framed, bind_of_some hsize, exactly, if_neg (by simp), List.take_left, List.drop_left,
    h]

private theorem framed_of_none (h : p bytes = none) (hfits : bytes.length < 2 ^ 32) (rest : List UInt8) :
    framed p (sized bytes ++ rest) = none := by
  have hsize : unsigned 32 (Leb128.unsigned bytes.length ++ (bytes ++ rest)) = some (bytes.length, bytes ++ rest) :=
    yields_unsigned hfits _
  rw [sized, List.append_assoc, framed, bind_of_some hsize, exactly, if_neg (by simp), List.take_left, h]

private theorem framed_of_le (h : 2 ^ 32 ≤ bytes.length) (rest : List UInt8) :
    framed p (sized bytes ++ rest) = none := by
  have hsize : unsigned 32 (Leb128.unsigned bytes.length ++ (bytes ++ rest)) = none := by
    rw [unsigned_leb128, if_neg (Nat.not_lt.2 h)]
  rw [sized, List.append_assoc, framed, bind_of_none hsize]

end Frames

private theorem yields_name {s : String} (h : s.toUTF8.data.toList.length < 2 ^ 32) :
    Yields name (nameBytes s) s := by
  have htext : text s.toUTF8.data.toList = some (s, []) := by
    have hread : String.fromUTF8? s.toUTF8 = some s := dif_pos s.isValidUTF8
    rw [text, Array.toArray_toList, hread]
    rfl
  exact yields_framed htext h

section Sections

variable {p : Reader (List α)} {items : List (List UInt8)} {as : List α}

private theorem yields_section (id : UInt8) (h : Yields p (counted items) as)
    (hfits : (counted items).length < 2 ^ 32) :
    Yields (sectionOf id p) (sectionBytes id items) as := by
  intro rest
  rw [sectionBytes, List.cons_append, sectionOf, if_pos rfl]
  exact yields_framed h.all hfits rest

/-- A section is refused if its contents are. -/
private theorem sectionOf_of_none (id : UInt8) (h : p (counted items) = none)
    (hfits : (counted items).length < 2 ^ 32)
    (rest : List UInt8) : sectionOf id p (sectionBytes id items ++ rest) = none := by
  rw [sectionBytes, List.cons_append, sectionOf, if_pos rfl]
  exact framed_of_none h hfits rest

/-- A section is refused if its size has more than 32 bits. -/
private theorem sectionOf_of_le (id : UInt8) (h : 2 ^ 32 ≤ (counted items).length) (rest : List UInt8) :
    sectionOf id p (sectionBytes id items ++ rest) = none := by
  rw [sectionBytes, List.cons_append, sectionOf, if_pos rfl]
  exact framed_of_le h rest

end Sections

/-! ### Vectors -/

section Vectors

variable {p : Reader α} {encode : γ → List UInt8} {view : γ → α} {items : List γ}

private theorem yields_times (h : ∀ x ∈ items, Yields p (encode x) (view x)) :
    Yields (times items.length p) (items.map encode).flatten (items.map view) := by
  induction items with
  | nil => exact yields_pure []
  | cons x items ih =>
    obtain ⟨hx, hitems⟩ := List.forall_mem_cons.1 h
    exact hx.bind (ih hitems).map

private theorem yields_vector (h : ∀ x ∈ items, Yields p (encode x) (view x)) (hfits : items.length < 2 ^ 32) :
    Yields (vector p) (counted (items.map encode)) (items.map view) := by
  have hcount : Yields (unsigned 32) (Leb128.unsigned (items.map encode).length) items.length := by
    rw [List.length_map]
    exact yields_unsigned hfits
  exact hcount.bind (yields_times h)

private theorem yields_vector_singleton {bytes : List UInt8} {a : α} (h : Yields p bytes a) :
    Yields (vector p) (counted [bytes]) [a] := by
  have hitems : ∀ x ∈ [()], Yields p ((fun _ => bytes) x) ((fun _ => a) x) := fun _ _ => h
  exact yields_vector hitems (by decide)

private theorem vector_singleton_of_none {bytes : List UInt8} (h : p bytes = none) :
    vector p (counted [bytes]) = none := by
  have hcount : Yields (unsigned 32) (Leb128.unsigned 1) 1 := yields_unsigned (by decide)
  rw [vector, counted, List.flatten_singleton, List.length_singleton, bind_of_some (hcount bytes)]
  exact bind_of_none h

private theorem counted_of_lt {contents : List (List UInt8)} (h : contents.length < 128) :
    counted contents = UInt8.ofNat contents.length :: contents.flatten := by
  rw [counted, Leb128.unsigned, if_pos h]
  rfl

private theorem length_le_of_mem_counted {contents : List (List UInt8)} {item : List UInt8} (h : item ∈ contents) :
    item.length ≤ (counted contents).length := by
  have hflat : item.length ≤ contents.flatten.length := (List.sublist_flatten_of_mem h).length_le
  rw [counted, List.length_append]
  omega

private theorem length_le_counted {contents : List (List UInt8)} (h : ∀ item ∈ contents, item ≠ []) :
    contents.length ≤ (counted contents).length := by
  have hflat : contents.length ≤ contents.flatten.length := by
    induction contents with
    | nil => exact Nat.le_refl 0
    | cons item contents ih =>
      obtain ⟨hitem, hcontents⟩ := List.forall_mem_cons.1 h
      have hpos := List.length_pos_iff.2 hitem
      have hrest := ih hcontents
      rw [List.flatten_cons, List.length_append, List.length_cons]
      omega
  rw [counted, List.length_append]
  omega

end Vectors

/-! ### Code -/

/-- The natural alignment of an access and offset zero are read as such. -/
private theorem yields_memoryArgument (access : Access) :
    Yields (memoryArgument access.alignment.toNat) [access.alignment, 0x00] () := by
  intro rest
  cases access <;> rfl

private theorem yields_instruction {e : Edition} {instr : Instr Nat} (h : instr.Fits)
    (hknown : e.knows instr = true) :
    Yields (instruction e) instr.encode instr := by
  cases instr with
  | unreachable | orElse | close | ret | select => exact fun _ => rfl
  | block | loop | ifThen => exact ((yields_pure _).expect_bind).byte_bind
  | br index | brIf index | call index | localGet index | localSet index | globalGet index | globalSet index =>
    exact (yields_unsigned h).map.byte_bind
  | load access =>
    have hargument : Yields (do memoryArgument access.alignment.toNat; return (.load access : Instr Nat))
        [access.alignment, 0x00] (.load access) := (yields_memoryArgument access).bind (yields_pure _)
    cases access <;> exact hargument.byte_bind
  | store access =>
    have hargument : Yields (do memoryArgument access.alignment.toNat; return (.store access : Instr Nat))
        [access.alignment, 0x00] (.store access) := (yields_memoryArgument access).bind (yields_pure _)
    cases access <;> exact hargument.byte_bind
  | i32Const v =>
    have hvalue : Yields (signed 32) (Leb128.signed v.toInt32.toInt) v.toInt32.toInt :=
      yields_signed (Int32.le_toInt _) (Int32.toInt_lt _)
    have hback : (Int32.ofInt v.toInt32.toInt).toUInt32 = v := by simp
    have hmap := hvalue.map (g := fun i => (.i32Const (Int32.ofInt i).toUInt32 : Instr Nat))
    rw [hback] at hmap
    exact hmap.byte_bind
  | i64Const v =>
    have hvalue : Yields (signed 64) (Leb128.signed v.toInt64.toInt) v.toInt64.toInt :=
      yields_signed (Int64.le_toInt _) (Int64.toInt_lt _)
    have hback : (Int64.ofInt v.toInt64.toInt).toUInt64 = v := by simp
    have hmap := hvalue.map (g := fun i => (.i64Const (Int64.ofInt i).toUInt64 : Instr Nat))
    rw [hback] at hmap
    exact hmap.byte_bind
  | op o =>
    intro rest
    cases e with
    | signExtending => cases o <;> rfl
    | core =>
      cases o with
      | i32Extend8S | i32Extend16S => cases hknown
      | _ => rfl

/-- An instruction that the edition does not have is refused. -/
private theorem instruction_of_not_knows {e : Edition} {instr : Instr Nat} (h : e.knows instr = false)
    (rest : List UInt8) :
    instruction e (instr.encode ++ rest) = none := by
  cases instr with
  | op o =>
    cases e with
    | signExtending => cases h
    | core =>
      cases o with
      | i32Extend8S | i32Extend16S => rfl
      | _ => cases h
  | _ => cases e <;> cases h

/-- Code whose constructs match is read up to the end of the function, unless the edition does not have one of its
instructions. -/
private theorem instructions_encode (e : Edition) {code : List (Instr Nat)} {constructs : List Bool} {count : Nat}
    (hfits : ∀ instr ∈ code, instr.Fits) (hcloses : code.foldlM Instr.follow constructs = some [false])
    (hcount : code.length < count) (rest : List UInt8) :
    instructions e count constructs (encodeCode (code ++ [.close]) ++ rest) =
      if code.all e.knows then some (code, rest) else none := by
  induction code generalizing constructs count with
  | nil =>
    cases hcloses
    cases count with
    | zero => cases hcount
    | succ count => cases e <;> rfl
  | cons instr code ih =>
    obtain ⟨hinstr, hcode⟩ := List.forall_mem_cons.1 hfits
    obtain ⟨inner, hinner, hrest⟩ := Option.bind_eq_some_iff.1 hcloses
    have hbytes : encodeCode (instr :: code ++ [.close]) ++ rest =
        instr.encode ++ (encodeCode (code ++ [.close]) ++ rest) := by
      rw [encodeCode, List.cons_append, List.flatMap_cons, List.append_assoc, ← encodeCode]
    rw [hbytes]
    cases count with
    | zero => cases hcount
    | succ count =>
      rw [instructions]
      cases hknown : e.knows instr with
      | false =>
        rw [bind_of_none (instruction_of_not_knows hknown _), List.all_cons, hknown]
        rfl
      | true =>
        rw [bind_of_some (yields_instruction hinstr hknown _), hinner, List.all_cons, hknown, Bool.true_and]
        cases inner with
        -- behind the end of the function there is no more code
        | nil => cases code <;> cases hrest
        | cons isFirst outer =>
          have hlater := ih hcode hrest (Nat.lt_of_succ_lt_succ hcount)
          cases hall : code.all e.knows with
          | false =>
            rw [hall] at hlater
            exact bind_of_none hlater
          | true =>
            rw [hall] at hlater
            exact bind_of_some hlater

private theorem encode_ne_nil (instr : Instr Nat) : instr.encode ≠ [] := by cases instr <;> simp [Instr.encode]

private theorem length_le_encodeCode (code : List (Instr Nat)) : code.length ≤ (encodeCode code).length := by
  induction code with
  | nil => exact Nat.le_refl 0
  | cons instr code ih =>
    have hpos := List.length_pos_iff.2 (encode_ne_nil instr)
    rw [encodeCode, List.flatMap_cons, List.length_append, List.length_cons, ← encodeCode]
    omega

private theorem expression_encode (e : Edition) {code : List (Instr Nat)} (h : Readable code) (rest : List UInt8) :
    expression e (encodeCode (code ++ [.close]) ++ rest) = if code.all e.knows then some (code, rest) else none := by
  have hlength := length_le_encodeCode (code ++ [.close])
  rw [List.length_append, List.length_singleton] at hlength
  refine instructions_encode e h.fits h.closes ?_ rest
  rw [List.length_append]
  omega

/-- The locals and the code of a function are read back, unless the edition does not have one of its instructions. -/
private theorem function_bodyBytes (e : Edition) {code : List (Instr Nat)} (h : Readable code) :
    function e (bodyBytes code) = if code.all e.knows then some (⟨[(4, .i32), (1, .i64)], code⟩, []) else none := by
  have hlocals : Yields (vector localGroup) localTypes [(4, .i32), (1, .i64)] := by
    rw [localTypes, counted_of_lt (by decide)]
    exact fun _ => rfl
  have hcount : ∀ rest, (guard (4 + 1 < 2 ^ 32) : Reader Unit) rest = some ((), rest) := yields_guard (by decide)
  have hcode := expression_encode e h []
  rw [List.append_nil] at hcode
  rw [bodyBytes, function, bind_of_some (hlocals _)]
  refine (bind_of_some (hcount _)).trans ?_
  cases hall : code.all e.knows with
  | false =>
    rw [hall] at hcode
    exact bind_of_none hcode
  | true =>
    rw [hall] at hcode
    exact bind_of_some hcode

/-! ### Modules -/

/-- What an import is read as; every function has the first type. -/
def External.ofKind : ImportKind → External
  | .memory minPages maxPages => .memory minPages.toNat (maxPages.map (·.toNat))
  | .global => .global .i32 true
  | .function => .function 0

/-- An import as it is read. -/
def Imported.ofImport (i : Import) : Imported := ⟨i.library, i.name, .ofKind i.kind⟩

/-- A module as it is read. -/
def Contents.ofModule (m : Module) : Contents where
  types := [⟨[], []⟩]
  imports := m.imports.map .ofImport
  functions := [0]
  exports := [⟨m.exportName, .functions, m.functionIndex⟩]
  bodies := [⟨[(4, .i32), (1, .i64)], m.body⟩]

private theorem yields_external (kind : ImportKind) : Yields external kind.encode (.ofKind kind) := by
  have hpages : ∀ pages : UInt32, Yields (unsigned 32) (Leb128.unsigned pages.toNat) pages.toNat :=
    fun pages => yields_unsigned pages.toNat_lt
  cases kind with
  | memory minPages maxPages =>
    cases maxPages with
    | none =>
      have hlimits : Yields limits (0x00 :: Leb128.unsigned minPages.toNat) (minPages.toNat, none) :=
        (hpages minPages).map.byte_bind
      exact hlimits.map.byte_bind
    | some maxPages =>
      have hlimits : Yields limits (0x01 :: (Leb128.unsigned minPages.toNat ++ Leb128.unsigned maxPages.toNat))
          (minPages.toNat, some maxPages.toNat) :=
        ((hpages minPages).bind (hpages maxPages).map).byte_bind
      exact hlimits.map.byte_bind
  | global => exact fun _ => rfl
  | function => exact fun _ => rfl

private theorem yields_imported {i : Import} (h : i.encode.length < 2 ^ 32) :
    Yields imported i.encode (.ofImport i) := by
  have hnames : i.encode = nameBytes i.library ++ (nameBytes i.name ++ i.kind.encode) := by
    rw [Import.encode, List.append_assoc]
  have hlibrary : i.library.toUTF8.data.toList.length < 2 ^ 32 := by
    rw [hnames, List.length_append, nameBytes, sized, List.length_append] at h
    omega
  have hname : i.name.toUTF8.data.toList.length < 2 ^ 32 := by
    rw [hnames, List.length_append, List.length_append, nameBytes, nameBytes, sized, sized, List.length_append,
      List.length_append] at h
    omega
  rw [hnames]
  exact (yields_name hlibrary).bind ((yields_name hname).bind (yields_external i.kind).map)

end Binary

/-- The sizes of the sections of the module have at most 32 bits. -/
def Module.Fits (m : Module) : Prop :=
  (counted (m.imports.map Import.encode)).length < 2 ^ 32 ∧
    (counted [nameBytes m.exportName ++ 0x00 :: Leb128.unsigned m.functionIndex]).length < 2 ^ 32 ∧
    (counted [sized (bodyBytes m.body)]).length < 2 ^ 32

instance (m : Module) : Decidable m.Fits := inferInstanceAs (Decidable (_ ∧ _ ∧ _))

private theorem length_le_sectionBytes (id : UInt8) (items : List (List UInt8)) :
    (counted items).length ≤ (sectionBytes id items).length := by
  rw [sectionBytes, sized, List.length_cons, List.length_append]
  omega

/-- A module of less than four gibibytes has no section that is too large. -/
theorem Module.fits_of_length {m : Module} (h : m.encode.length < 2 ^ 32) : m.Fits := by
  have himports := length_le_sectionBytes 2 (m.imports.map Import.encode)
  have hexports := length_le_sectionBytes 7 [nameBytes m.exportName ++ 0x00 :: Leb128.unsigned m.functionIndex]
  have hcode := length_le_sectionBytes 10 [sized (bodyBytes m.body)]
  simp only [encode, List.length_append] at h
  refine ⟨?_, ?_, ?_⟩ <;> omega

private theorem Import.encode_ne_nil (i : Import) : i.encode ≠ [] := by
  cases i with
  | mk library name kind => rcases kind with ⟨_, _ | _⟩ | _ | _ <;> simp [Import.encode, ImportKind.encode]

private theorem length_imports_le {m : Module} :
    m.imports.length ≤ (counted (m.imports.map Import.encode)).length := by
  have hitems : ∀ item ∈ m.imports.map Import.encode, item ≠ [] :=
    List.forall_mem_map.2 fun i _ => Import.encode_ne_nil i
  have hle := Binary.length_le_counted hitems
  rwa [List.length_map] at hle

theorem Module.functionIndex_lt {m : Module} (h : m.Fits) : m.functionIndex < 2 ^ 32 :=
  Nat.lt_of_le_of_lt (Nat.le_trans List.countP_le_length length_imports_le) h.1

theorem Module.length_body_lt {m : Module} (h : m.Fits) : m.body.length < 2 ^ 32 := by
  have hitem := Nat.lt_of_le_of_lt (Binary.length_le_of_mem_counted (List.mem_singleton_self _)) h.2.2
  have hcode := Binary.length_le_encodeCode (m.body ++ [.close])
  rw [sized, List.length_append, bodyBytes, List.length_append] at hitem
  rw [List.length_append] at hcode
  omega

namespace Binary

variable {m : Module}

private theorem yields_imports (h : (counted (m.imports.map Import.encode)).length < 2 ^ 32) :
    Yields (vector imported) (counted (m.imports.map Import.encode)) (m.imports.map .ofImport) := by
  refine yields_vector (fun i hi => ?_) (Nat.lt_of_le_of_lt length_imports_le h)
  have hmem : i.encode ∈ m.imports.map Import.encode := List.mem_map_of_mem hi
  exact yields_imported (Nat.lt_of_le_of_lt (length_le_of_mem_counted hmem) h)

private theorem yields_exports (hindex : m.functionIndex < 2 ^ 32)
    (h : (counted [nameBytes m.exportName ++ 0x00 :: Leb128.unsigned m.functionIndex]).length < 2 ^ 32) :
    Yields (vector exported) (counted [nameBytes m.exportName ++ 0x00 :: Leb128.unsigned m.functionIndex])
      [⟨m.exportName, .functions, m.functionIndex⟩] := by
  have hitem := Nat.lt_of_le_of_lt (length_le_of_mem_counted (List.mem_singleton_self _)) h
  have hname : m.exportName.toUTF8.data.toList.length < 2 ^ 32 := by
    rw [List.length_append, nameBytes, sized, List.length_append] at hitem
    omega
  have hspace : Yields indexSpace [0x00] .functions := fun _ => rfl
  exact yields_vector_singleton ((yields_name hname).bind (hspace.bind (yields_unsigned hindex).map))

section Bodies

variable {e : Edition} (hbody : Readable m.body) (h : (counted [sized (bodyBytes m.body)]).length < 2 ^ 32)

include h in
private theorem length_bodyBytes_lt : (bodyBytes m.body).length < 2 ^ 32 := by
  have hitem := Nat.lt_of_le_of_lt (length_le_of_mem_counted (List.mem_singleton_self _)) h
  rw [sized, List.length_append] at hitem
  omega

include hbody h

private theorem yields_bodies (hknown : m.body.all e.knows = true) :
    Yields (vector (framed (function e))) (counted [sized (bodyBytes m.body)])
      [⟨[(4, .i32), (1, .i64)], m.body⟩] := by
  have hfunction := function_bodyBytes e hbody
  rw [if_pos hknown] at hfunction
  exact yields_vector_singleton (yields_framed hfunction (length_bodyBytes_lt h))

private theorem bodies_of_not_knows (hknown : m.body.all e.knows = false) :
    vector (framed (function e)) (counted [sized (bodyBytes m.body)]) = none := by
  have hfunction := function_bodyBytes e hbody
  rw [hknown] at hfunction
  have hframed := framed_of_none hfunction (length_bodyBytes_lt h) []
  rw [List.append_nil] at hframed
  exact vector_singleton_of_none hframed

end Bodies

private theorem yields_preamble : Yields preamble Module.header () := fun _ => rfl

private theorem yields_types :
    Yields (sectionOf 1 (vector signature)) (sectionBytes 1 [functionType]) [⟨[], []⟩] := by
  have hsignature : Yields signature functionType ⟨[], []⟩ := fun _ => rfl
  refine yields_section 1 (yields_vector_singleton hsignature) ?_
  rw [counted_of_lt (by decide)]
  decide

private theorem yields_functions : Yields (sectionOf 3 (vector (unsigned 32))) (sectionBytes 3 [[0x00]]) [0] := by
  have hindex : Yields (unsigned 32) [0x00] 0 := fun _ => rfl
  refine yields_section 3 (yields_vector_singleton hindex) ?_
  rw [counted_of_lt (by decide)]
  decide

/-- The sections are read one after the other, up to the first that is too large, and up to an instruction that the
edition does not have. -/
private theorem contents_encode (e : Edition) (hbody : m.Fits → Readable m.body) :
    contents e m.encode = if m.Fits ∧ m.body.all e.knows then some (.ofModule m, []) else none := by
  have hindex : m.functionIndex ≤ (counted (m.imports.map Import.encode)).length :=
    Nat.le_trans List.countP_le_length length_imports_le
  have hencode : m.encode = Module.header ++ (sectionBytes 1 [functionType] ++
      (sectionBytes 2 (m.imports.map Import.encode) ++ (sectionBytes 3 [[0x00]] ++
      (sectionBytes 7 [nameBytes m.exportName ++ 0x00 :: Leb128.unsigned m.functionIndex] ++
      (sectionBytes 10 [sized (bodyBytes m.body)] ++ []))))) := by
    simp only [Module.encode, List.append_assoc, List.append_nil]
  rw [hencode, contents, bind_of_some (yields_preamble _), bind_of_some (yields_types _)]
  by_cases himports : (counted (m.imports.map Import.encode)).length < 2 ^ 32
  · rw [bind_of_some (yields_section 2 (yields_imports himports) himports _), bind_of_some (yields_functions _)]
    by_cases hexports :
        (counted [nameBytes m.exportName ++ 0x00 :: Leb128.unsigned m.functionIndex]).length < 2 ^ 32
    · have hexported := yields_exports (Nat.lt_of_le_of_lt hindex himports) hexports
      rw [bind_of_some (yields_section 7 hexported hexports _)]
      by_cases hcode : (counted [sized (bodyBytes m.body)]).length < 2 ^ 32
      · have hfits : m.Fits := ⟨himports, hexports, hcode⟩
        cases hknown : m.body.all e.knows with
        | true =>
          have hbodies := yields_bodies (hbody hfits) hcode hknown
          rw [bind_of_some (yields_section 10 hbodies hcode _), if_pos ⟨hfits, rfl⟩]
          rfl
        | false =>
          have hbodies := bodies_of_not_knows (hbody hfits) hcode hknown
          rw [bind_of_none (sectionOf_of_none 10 hbodies hcode _), if_neg fun h => Bool.false_ne_true h.2]
      · rw [bind_of_none (sectionOf_of_le 10 (Nat.not_lt.1 hcode) _), if_neg fun h => hcode h.1.2.2]
    · rw [bind_of_none (sectionOf_of_le 7 (Nat.not_lt.1 hexports) _), if_neg fun h => hexports h.1.2.1]
  · rw [bind_of_none (sectionOf_of_le 2 (Nat.not_lt.1 himports) _), if_neg fun h => himports h.1.1]

/-- A module with readable code reads as what it was made from, unless a section is too large or the edition does not
have one of its instructions. -/
theorem read?_encode (e : Edition) (hbody : m.Fits → Readable m.body) :
    read? e m.encode = if m.Fits ∧ m.body.all e.knows then some (.ofModule m) else none := by
  rw [read?, contents_encode e hbody]
  by_cases hread : m.Fits ∧ m.body.all e.knows
  · rw [if_pos hread, if_pos hread]
  · rw [if_neg hread, if_neg hread]

end Binary

/-! ### Valid code -/

section Valid

variable {κ : Type} {C : Context κ} {f f' : Frame} {frames frames' : List Frame}

/-- The constructs of some frames, each with whether it can still get a second part. -/
def constructs (frames : List Frame) : List Bool := frames.map fun f => f.construct == .first

private theorem Frame.construct_of_pop? {found : Option ValueType} (h : f.pop? = some (found, f')) :
    f'.construct = f.construct := by
  unfold pop? at h
  grind

private theorem Frame.construct_of_take? {type : ValueType} (h : f.take? type = some f') :
    f'.construct = f.construct := by
  obtain ⟨⟨found, g⟩, hpop, hg⟩ := Option.bind_eq_some_iff.1 h
  dsimp only at hg
  split at hg
  · cases hg
    exact construct_of_pop? hpop
  · cases hg

private theorem Frame.construct_of_takeAll? {types : List ValueType} (h : f.takeAll? types = some f') :
    f'.construct = f.construct := by
  induction types generalizing f with
  | nil =>
    cases h
    rfl
  | cons type types ih =>
    obtain ⟨g, hg, hrest⟩ := Option.bind_eq_some_iff.1 h
    rw [ih hrest, construct_of_take? hg]

private theorem Instr.construct_of_effect {instr : Instr κ} {outer : Nat} (h : instr.effect C outer f = some f') :
    f'.construct = f.construct := by
  cases instr with
  | unreachable | ret | i32Const | i64Const =>
    cases h
    rfl
  | block | loop | ifThen | orElse | close => cases h
  | br | call | globalGet =>
    simp only [effect] at h
    split at h <;> cases h
    rfl
  | brIf | globalSet =>
    simp only [effect] at h
    split at h
    · exact Frame.construct_of_take? h
    · cases h
  | select =>
    obtain ⟨g, hg, h⟩ := Option.bind_eq_some_iff.1 h
    obtain ⟨⟨type, g'⟩, hg', h⟩ := Option.bind_eq_some_iff.1 h
    obtain ⟨⟨type', g''⟩, hg'', h⟩ := Option.bind_eq_some_iff.1 h
    dsimp only at h
    split at h
    · cases h
      have hchain := (Frame.construct_of_pop? hg'').trans (Frame.construct_of_pop? hg')
      exact hchain.trans (Frame.construct_of_take? hg)
    · cases h
  | localGet =>
    obtain ⟨type, -, rfl⟩ := Option.map_eq_some_iff.1 h
    rfl
  | localSet =>
    obtain ⟨type, -, h⟩ := Option.bind_eq_some_iff.1 h
    exact Frame.construct_of_take? h
  | load =>
    simp only [effect] at h
    split at h
    · obtain ⟨g, hg, rfl⟩ := Option.map_eq_some_iff.1 h
      show g.construct = f.construct
      exact Frame.construct_of_take? hg
    · cases h
  | store =>
    simp only [effect] at h
    split at h
    · exact Frame.construct_of_takeAll? h
    · cases h
  | op =>
    obtain ⟨g, hg, rfl⟩ := Option.map_eq_some_iff.1 h
    show g.construct = f.construct
    exact Frame.construct_of_takeAll? hg

/-- The constructs of valid code match. -/
private theorem Instr.follow_of_check {instr : Instr κ} (h : instr.check C frames = some frames') :
    instr.follow (constructs frames) = some (constructs frames') := by
  cases frames with
  | nil => cases instr <;> cases h
  | cons f outer =>
    cases instr with
    | block | loop =>
      cases h
      rfl
    | ifThen =>
      obtain ⟨g, hg, rfl⟩ := Option.map_eq_some_iff.1 h
      simp [constructs, follow, Frame.opened, Frame.construct_of_take? hg]
    | orElse =>
      simp only [check] at h
      split at h
      · rename_i hfirst
        cases h
        simp [constructs, follow, Frame.opened, hfirst.1]
      · cases h
    | close =>
      simp only [check] at h
      split at h
      · cases h
        rfl
      · cases h
    | _ =>
      simp only [check, Option.map_eq_some_iff] at h
      obtain ⟨g, hg, rfl⟩ := h
      simp [constructs, follow, construct_of_effect hg]

private theorem follow_of_validate {code : List (Instr κ)} (h : validate C code frames = some frames') :
    code.foldlM Instr.follow (constructs frames) = some (constructs frames') := by
  induction code generalizing frames with
  | nil =>
    cases h
    rfl
  | cons instr code ih =>
    rw [validate_cons] at h
    obtain ⟨middle, hinstr, hcode⟩ := Option.bind_eq_some_iff.1 h
    rw [List.foldlM_cons, Instr.follow_of_check hinstr]
    exact ih hcode

private theorem Instr.length_of_follow {instr : Instr κ} {open₁ open₂ : List Bool}
    (h : instr.follow open₁ = some open₂) :
    open₂.length ≤ open₁.length + 1 := by
  unfold follow at h
  grind

private theorem length_of_check {instr : Instr κ} (h : instr.check C frames = some frames') :
    frames'.length ≤ frames.length + 1 := by
  have hlength := Instr.length_of_follow (Instr.follow_of_check h)
  rwa [constructs, constructs, List.length_map, List.length_map] at hlength

end Valid

section Indices

variable {C : Context Nat} {instr : Instr Nat} {code : List (Instr Nat)} {frames frames' : List Frame}
  (hlocals : C.locals.length ≤ 2 ^ 32) (hglobals : C.globals ≤ 2 ^ 32)
  (hcallable : ∀ index, C.callable index = true → index < 2 ^ 32)
include hlocals hglobals hcallable

/-- The indices in valid code have at most 32 bits if there are not more locals, globals, functions and constructs. -/
private theorem fits_of_check (hframes : frames.length ≤ 2 ^ 32) (h : instr.check C frames = some frames') :
    instr.Fits := by
  cases frames with
  | nil => cases instr <;> cases h
  | cons f outer =>
    rw [List.length_cons] at hframes
    cases instr with
    | br depth | brIf depth =>
      obtain ⟨g, hg, -⟩ := Option.map_eq_some_iff.1 h
      simp only [Instr.effect] at hg
      split at hg
      · show depth < 2 ^ 32
        omega
      · cases hg
    | call index =>
      obtain ⟨g, hg, -⟩ := Option.map_eq_some_iff.1 h
      simp only [Instr.effect] at hg
      split at hg
      · exact hcallable index ‹_›
      · cases hg
    | localGet index =>
      obtain ⟨g, hg, -⟩ := Option.map_eq_some_iff.1 h
      obtain ⟨type, htype, -⟩ := Option.map_eq_some_iff.1 hg
      exact Nat.lt_of_lt_of_le (List.getElem?_eq_some_iff.1 htype).1 hlocals
    | localSet index =>
      obtain ⟨g, hg, -⟩ := Option.map_eq_some_iff.1 h
      obtain ⟨type, htype, -⟩ := Option.bind_eq_some_iff.1 hg
      exact Nat.lt_of_lt_of_le (List.getElem?_eq_some_iff.1 htype).1 hlocals
    | globalGet index | globalSet index =>
      obtain ⟨g, hg, -⟩ := Option.map_eq_some_iff.1 h
      simp only [Instr.effect] at hg
      split at hg
      · exact Nat.lt_of_lt_of_le ‹_› hglobals
      · cases hg
    | _ => trivial

private theorem fits_of_validate (hlength : frames.length + code.length ≤ 2 ^ 32)
    (h : validate C code frames = some frames') :
    ∀ instr ∈ code, instr.Fits := by
  induction code generalizing frames with
  | nil => exact fun _ hmem => by cases hmem
  | cons instr code ih =>
    rw [validate_cons] at h
    rw [List.length_cons] at hlength
    obtain ⟨middle, hinstr, hcode⟩ := Option.bind_eq_some_iff.1 h
    have hmiddle := length_of_check hinstr
    have hfirst : instr.Fits := fits_of_check hlocals hglobals hcallable (by omega) hinstr
    exact List.forall_mem_cons.2 ⟨hfirst, ih (by omega) hcode⟩

/-- Valid code can be read: its constructs match. -/
theorem readable_of_validate (hlength : code.length < 2 ^ 32)
    (h : validate C code [.opened .function] = some [.opened .function]) : Readable code where
  fits := fits_of_validate hlocals hglobals hcallable (by rw [List.length_singleton]; omega) h
  closes := follow_of_validate h

end Indices

end Ia32Wasm.Wasm
