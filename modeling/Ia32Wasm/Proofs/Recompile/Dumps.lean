import Ia32Wasm.Image.Json
import Ia32Wasm.Machine.Json
import Ia32Wasm.Program.Json
import Ia32Wasm.Proofs.Json.Reading
import Ia32Wasm.Proofs.Json.Text
import Ia32Wasm.Proofs.Text.BitNames
import Ia32Wasm.Recompile.Json

/-!
# Dumps reload

Every value that has a JSON form is read back from it: instructions, chunks, programs, images, machine states and
options.  A value is put together from its parts as its form is, so each law rests on those of the parts; the parts
that take an argument of their own are the texts of bit sets, and operands, whose members are held until their type
is known.
-/

namespace Ia32Wasm

open Json

namespace X86

/-! ### Named alternatives -/

/-- A value is found under its name in a list of names. -/
private theorem lookup_variantName {α : Type} [BEq α] [LawfulBEq α] {variants : List (String × α)}
    (hnodup : (variants.map Prod.fst).Nodup) {a : α} (ha : a ∈ variants.map Prod.snd) :
    variants.lookup (variantName variants a) = some a := by
  cases hfind : variants.find? fun v => v.2 == a with
  | none =>
    obtain ⟨entry, hentry, rfl⟩ := List.mem_map.1 ha
    exact absurd (beq_self_eq_true entry.2) (List.find?_eq_none.1 hfind entry hentry)
  | some entry =>
    have hvalue := List.find?_some hfind
    rw [variantName, hfind, ← eq_of_beq hvalue]
    exact lookup_of_mem hnodup (List.mem_of_find?_eq_some hfind)

private theorem OperandSize.ofJson?_toJson (size : OperandSize) : ofJson? size.toJson = some size :=
  lookup_variantName (by decide) (by cases size <;> decide)

private theorem Condition.ofJson?_toJson (condition : Condition) : ofJson? condition.toJson = some condition :=
  lookup_variantName (by decide) (by cases condition <;> decide)

/-- Every mnemonic without a condition has a name. -/
private theorem Mnemonic.mem_variants {m : Mnemonic} (hjump : ∀ c, m ≠ .jumpIf c) (hset : ∀ c, m ≠ .set c) :
    m ∈ variants.map Prod.snd := by
  cases m with
  | jumpIf c => exact absurd rfl (hjump c)
  | set c => exact absurd rfl (hset c)
  | binary op | unary op | shift op => cases op <;> decide
  | multiply signed | divide signed | widen signed => cases signed <;> decide
  | _ => decide

private theorem Mnemonic.ofJson?_toJson (m : Mnemonic) : ofJson? m.toJson = some m := by
  unfold toJson
  split
  · rename_i c
    show (Condition.ofJson? c.toJson).map Mnemonic.jumpIf = _
    rw [Condition.ofJson?_toJson, Option.map_some]
  · rename_i c
    show (Condition.ofJson? c.toJson).map Mnemonic.set = _
    rw [Condition.ofJson?_toJson, Option.map_some]
  · rename_i hjump hset
    exact lookup_variantName (by decide) (mem_variants hjump hset)

/-! ### Prefixes -/

private theorem Prefixes.ofJson?_toJson (p : Prefixes) : ofJson? p.toJson = some p := by
  have hproper : names.Proper := by constructor <;> decide
  have hparse : names.parse? 16 p.text = some p.bits.toNat := BitNames.parse?_render hproper p.bits.toNat_lt
  simp [ofJson?, toJson, hparse]

/-! ### Operands -/

namespace Operand

private theorem sizeOfJson?_toJson (size : OperandSize) : sizeOfJson? size.toJson = some size :=
  OperandSize.ofJson?_toJson size

/-- An object with its type in front is an operand of the type when its members can be held. -/
private theorem ofJson?_record (outer : Nat) {tag : String} {members : List (String × Json)}
    (hnodup : ((("type", .str tag) :: members).map Prod.fst).Nodup)
    (hheld : ∀ room, ∀ member ∈ members, member.2.isHoldable room = true) :
    ofJson? outer (.record (("type", .str tag) :: members)) =
      ofTagged? tag (.record (("type", .str tag) :: members)) := by
  have htype : once? (("type", .str tag) :: members) "type" = some (some (.str tag)) := by
    rw [once?_eq hnodup, List.lookup_cons_self]
  have hall : ∀ room, (("type", Json.str tag) :: members).all (fun m => m.2.isHoldable room) = true :=
    fun room => List.all_eq_true.2 (List.forall_mem_cons.2 ⟨rfl, hheld room⟩)
  rw [record, ofJson?, members?_map, areMembersHoldable_map, hall]
  simp [htype]

@[simp] private theorem uint8?_byteJson (b : UInt8) : uint8? (byteJson b) = some b := uint8?_nat b

@[simp] private theorem nullable?_byteJson (b : Option UInt8) : nullable? uint8? (.opt byteJson b) = some b :=
  nullable?_opt uint8?_byteJson (by rintro _ ⟨⟩) b

@[simp] private theorem nullable?_displacementJson (d : Option Int32) :
    nullable? int32? (displacementJson d) = some d :=
  nullable?_opt int32?_int (by rintro _ ⟨⟩) d

@[simp] private theorem isHoldable_byteJson (room : Nat) (b : UInt8) : isHoldable room (byteJson b) = true :=
  isHoldable_uint8 room b

@[simp] private theorem isHoldable_opt_byteJson (room : Nat) (b : Option UInt8) :
    isHoldable room (.opt byteJson b) = true :=
  isHoldable_opt (isHoldable_byteJson room) b

@[simp] private theorem isHoldable_displacementJson (room : Nat) (d : Option Int32) :
    isHoldable room (displacementJson d) = true :=
  isHoldable_opt (isHoldable_int32 room) d

theorem ofJson?_toJson (outer : Nat) (o : Operand) : ofJson? outer o.toJson = some o := by
  cases o <;>
    rw [toJson, ofJson?_record outer (by simp) (by simp [OperandSize.toJson]), ofTagged?,
      fields?_record (by simp)] <;>
    simp [List.lookup_cons, sizeOfJson?_toJson]

end Operand

/-! ### Instructions -/

private theorem Instruction.ofJson?_toJson (outer : Nat) (i : Instruction) : ofJson? outer i.toJson = some i := by
  rw [ofJson?, toJson, fields?_record (by simp)]
  simp [List.lookup_cons, Prefixes.ofJson?_toJson, Mnemonic.ofJson?_toJson, list?_list (Operand.ofJson?_toJson _)]

end X86

/-! ### Images -/

private theorem Section.ofJson?_toJson (s : Section) : ofJson? s.toJson = some s := by
  rw [ofJson?, toJson, fields?_record (by simp)]
  simp [List.lookup_cons]

private theorem ImportEntry.ofJson?_toJson (e : ImportEntry) : ofJson? e.toJson = some e := by
  rw [ofJson?, toJson, fields?_record (by simp)]
  simp [List.lookup_cons, nullable?_opt string?_str (by rintro _ ⟨⟩)]

private theorem ImportLibrary.ofJson?_toJson (l : ImportLibrary) : ofJson? l.toJson = some l := by
  rw [ofJson?, toJson, fields?_record (by simp)]
  simp [List.lookup_cons, list?_list ImportEntry.ofJson?_toJson]

private theorem ImportTable.ofJson?_toJson (t : ImportTable) : ofJson? t.toJson = some t := by
  rw [ofJson?, toJson, fields?_record (by simp)]
  simp [List.lookup_cons, list?_list ImportLibrary.ofJson?_toJson]

private theorem Image.ofJson?_toJson (i : Image) : ofJson? i.toJson = some i := by
  rw [ofJson?, toJson, fields?_record (by simp)]
  simp [List.lookup_cons, list?_list uint8?_nat, list?_list Section.ofJson?_toJson, ImportTable.ofJson?_toJson]

/-! ### Programs -/

private theorem AddressRange.ofJson?_toJson (r : AddressRange) : ofJson? r.toJson = some r := by
  rw [ofJson?, toJson, fields?_record (by simp)]
  simp [List.lookup_cons]

namespace IndexSet

private theorem eq_of_toList {s t : IndexSet} (h : s.toList = t.toList) : s = t := by
  cases s
  cases t
  cases h
  rfl

private theorem insertList_of_lt {x : UInt32} {l : List UInt32} (h : ∀ y ∈ l, y < x) : insertList x l = l ++ [x] := by
  induction l with
  | nil => rfl
  | cons y l ih =>
    obtain ⟨hy, hl⟩ := List.forall_mem_cons.1 h
    rw [insertList, if_neg (UInt32.lt_asymm hy), if_neg (UInt32.ne_of_lt hy).symm, ih hl, List.cons_append]

/-- The members of a set, taken in ascending order, make up the set. -/
theorem ofList_toList (s : IndexSet) : ofList s.toList = s := by
  have hfold : ∀ (l : List UInt32) (read : IndexSet), (read.toList ++ l).Pairwise (· < ·) →
      (l.foldl insert read).toList = read.toList ++ l := by
    intro l
    induction l with
    | nil => simp
    | cons x l ih =>
      intro read hread
      have hlt : ∀ y ∈ read.toList, y < x := fun y hy => (List.pairwise_append.1 hread).2.2 y hy x List.mem_cons_self
      have hinsert : (read.insert x).toList = read.toList ++ [x] := insertList_of_lt hlt
      rw [List.append_cons] at hread ⊢
      rw [List.foldl_cons, ih _ (by rwa [hinsert]), hinsert]
  exact eq_of_toList (hfold s.toList empty s.ascending)

theorem ofJson?_toJson (s : IndexSet) : ofJson? s.toJson = some s := by
  rw [ofJson?, toJson, list?_list uint32?_nat, Option.map_some, ofList_toList]

end IndexSet

private theorem Chunk.ofJson?_toJson (outer : Nat) (c : Chunk) : ofJson? outer c.toJson = some c := by
  rw [ofJson?, toJson, fields?_record (by simp)]
  simp [List.lookup_cons, list?_list (X86.Instruction.ofJson?_toJson _), list?_list AddressRange.ofJson?_toJson,
    IndexSet.ofJson?_toJson]

private theorem Program.ofJson?_toJson (p : Program) : ofJson? p.toJson = some p := by
  rw [ofJson?, toJson, fields?_record (by simp)]
  simp [List.lookup_cons, list?_list (Chunk.ofJson?_toJson _), list?_list uint32?_nat,
    list?_list AddressRange.ofJson?_toJson]

/-! ### Machine states -/

namespace Machine

private theorem Flags.ofJson?_toJson (f : Flags) : ofJson? f.toJson = some f := by
  have hproper : names.Proper := by constructor <;> decide
  have hparse : names.parse? 32 f.text = some f.bits.toNat := BitNames.parse?_render hproper f.bits.toNat_lt
  simp [ofJson?, toJson, hparse]

private theorem words?_wordsJson {n : Nat} (ws : Vector UInt32 n) : words? n (wordsJson ws) = some ws := by
  have hlength : ws.toList.length = n := by simp
  rw [words?, wordsJson, list?_list uint32?_nat, Option.bind_some, dif_pos hlength]
  exact congrArg some (Vector.toArray_inj.1 (Vector.toArray_toList ..))

private theorem State.ofJson?_toJson (s : State) : ofJson? s.toJson = some s := by
  rw [ofJson?, toJson, fields?_record (by simp)]
  simp [List.lookup_cons, words?_wordsJson, Flags.ofJson?_toJson]

end Machine

/-! ### Options -/

private theorem Limits.ofJson?_toJson (l : Limits) : ofJson? l.toJson = some l := by
  rw [ofJson?, toJson, settings?_record (by simp)]
  simp [List.lookup_cons]

private theorem AssemblyOptions.ofJson?_toJson (o : AssemblyOptions) : ofJson? o.toJson = some o := by
  rw [ofJson?, toJson, settings?_record (by simp)]
  simp [List.lookup_cons, nullable?_opt uint32?_nat (by rintro _ ⟨⟩)]

private theorem Options.ofJson?_toJson (o : Options) : ofJson? o.toJson = some o := by
  rw [ofJson?, toJson, settings?_record (by simp)]
  simp [List.lookup_cons, Limits.ofJson?_toJson, AssemblyOptions.ofJson?_toJson, list?_list uint32?_nat]

/-! ### Texts -/

/-- The compact text of the JSON form of a value is read as the value. -/
def Reloads {α : Type} (toJson : α → Json) (ofJson? : Json → Option α) : Prop :=
  ∀ a, (parse? (toJson a).toText).bind ofJson? = some a

private theorem Reloads.of_ofJson? {α : Type} {toJson : α → Json} {ofJson? : Json → Option α}
    (h : ∀ a, ofJson? (toJson a) = some a) : Reloads toJson ofJson? := by
  intro a
  rw [parse?_toText]
  exact h a

/-- Dumps of instructions, chunks, programs, images, machine states and options reload to the same value; those that
can stand inside other dumps do so at any depth. -/
theorem dumps_reload :
    (∀ outer, Reloads X86.Instruction.toJson (X86.Instruction.ofJson? outer)) ∧
    (∀ outer, Reloads Chunk.toJson (Chunk.ofJson? outer)) ∧
    Reloads Program.toJson Program.ofJson? ∧
    Reloads Image.toJson Image.ofJson? ∧
    Reloads Machine.State.toJson Machine.State.ofJson? ∧
    Reloads Options.toJson Options.ofJson? := by
  refine ⟨fun outer => .of_ofJson? ?_, fun outer => .of_ofJson? ?_, .of_ofJson? ?_, .of_ofJson? ?_, .of_ofJson? ?_,
    .of_ofJson? ?_⟩
  · exact X86.Instruction.ofJson?_toJson outer
  · exact Chunk.ofJson?_toJson outer
  · exact Program.ofJson?_toJson
  · exact Image.ofJson?_toJson
  · exact Machine.State.ofJson?_toJson
  · exact Options.ofJson?_toJson

end Ia32Wasm
