import Ia32Wasm.Json.Reading
import Ia32Wasm.X86.Instruction

/-!
# Instructions as JSON

The JSON form of the parts of an instruction.  An alternative without contents is its name, a
mnemonic with a condition an object with one member, a prefix set its text, and an operand an object
tagged by `type`, which may stand anywhere among its members.
-/

namespace Ia32Wasm.X86

open Json (required? optional?)

/-! ### Named alternatives -/

/-- The names of the operand sizes. -/
def OperandSize.variants : List (String × OperandSize) :=
  [("Bits8", .bits8), ("Bits16", .bits16), ("Bits32", .bits32), ("Bits128", .bits128)]

/-- The names of the conditions. -/
def Condition.variants : List (String × Condition) :=
  [("O", .o), ("No", .no), ("B", .b), ("Ae", .ae), ("E", .e), ("Ne", .ne), ("Be", .be), ("A", .a),
    ("S", .s), ("Ns", .ns), ("P", .p), ("Np", .np), ("L", .l), ("Ge", .ge), ("Le", .le), ("G", .g)]

/-- The names of the mnemonics without a condition. -/
def Mnemonic.variants : List (String × Mnemonic) :=
  [("Add", .binary .add), ("Or", .binary .or), ("Adc", .binary .adc), ("Sbb", .binary .sbb), ("And", .binary .and),
    ("Sub", .binary .sub), ("Xor", .binary .xor), ("Cmp", .binary .cmp), ("Inc", .unary .inc), ("Dec", .unary .dec),
    ("Neg", .unary .neg), ("Not", .unary .not), ("Test", .binary .test), ("Imul", .multiply true),
    ("Mul", .multiply false), ("Div", .divide false), ("Idiv", .divide true), ("Shl", .shift .shl),
    ("Shr", .shift .shr), ("Sar", .shift .sar), ("Mov", .mov), ("Movzx", .widen false), ("Movsx", .widen true),
    ("Lea", .lea), ("Xchg", .xchg), ("Cmpxchg", .cmpxchg), ("Push", .push), ("Pop", .pop), ("Pushad", .pushad),
    ("Popad", .popad), ("Pushfd", .pushfd), ("Popfd", .popfd), ("Leave", .leave), ("Cdq", .cdq), ("Nop", .nop),
    ("Cld", .cld), ("Std", .std), ("Movs", .movs), ("Stos", .stos), ("Jecxz", .jecxz), ("Jmp", .jump),
    ("Call", .call), ("Ret", .ret), ("Int", .int), ("Into", .into), ("Cpuid", .cpuid), ("Xgetbv", .xgetbv),
    ("Movlpd", .movlpd), ("Xorps", .xorps), ("Extern", .importCall), ("ExternJmp", .importJump),
    ("IJmp", .dynamicJump), ("ICall", .dynamicCall)]

/-- The name under which a value stands in a list of names. -/
def variantName {α : Type} [BEq α] (variants : List (String × α)) (a : α) : String :=
  ((variants.find? fun v => v.2 == a).map Prod.fst).getD ""

/-- The JSON form of an operand size. -/
def OperandSize.toJson (s : OperandSize) : Json := .str (variantName variants s)

/-- An operand size from its JSON form. -/
def OperandSize.ofJson? (j : Json) : Option OperandSize := j.variant?.bind fun name => variants.lookup name

/-- The JSON form of a condition. -/
def Condition.toJson (c : Condition) : Json := .str (variantName variants c)

/-- A condition from its JSON form. -/
def Condition.ofJson? (j : Json) : Option Condition := j.variant?.bind fun name => variants.lookup name

/-- The JSON form of a mnemonic. -/
def Mnemonic.toJson : Mnemonic → Json
  | .jumpIf c => .record [("Jcc", c.toJson)]
  | .set c => .record [("Setcc", c.toJson)]
  | m => .str (variantName variants m)

/-- A mnemonic from its JSON form. -/
def Mnemonic.ofJson? : Json → Option Mnemonic
  | .object [(some "Jcc", c)] => (Condition.ofJson? c).map .jumpIf
  | .object [(some "Setcc", c)] => (Condition.ofJson? c).map .set
  | j => j.variant?.bind fun name => variants.lookup name

/-! ### Prefixes -/

/-- The JSON form of a prefix set. -/
def Prefixes.toJson (p : Prefixes) : Json := .str p.text

/-- A prefix set from its JSON form. -/
def Prefixes.ofJson? (j : Json) : Option Prefixes :=
  (j.string?.bind (names.parse? 16)).map fun bits => ⟨UInt16.ofNat bits⟩

/-! ### Operands -/

namespace Operand

/-- A register number, a scale or a byte. -/
def byteJson (b : UInt8) : Json := .nat b.toNat

/-- A displacement. -/
def displacementJson : Option Int32 → Json := Json.opt fun d => .int d.toInt

/-- The JSON form of an operand. -/
def toJson : Operand → Json
  | .register index size indirect displacement =>
    .record [("type", .str "register"), ("index", byteJson index), ("size", size.toJson),
      ("indirect", .bool indirect), ("displacement", displacementJson displacement)]
  | .immediate value size indirect displacement =>
    .record [("type", .str "immediate"), ("value", .int value.toInt), ("size", size.toJson),
      ("indirect", .bool indirect), ("displacement", displacementJson displacement)]
  | .scaledIndex base index scale displacement size indirect =>
    .record [("type", .str "scaled_index_base"), ("base", .opt byteJson base), ("index", .opt byteJson index),
      ("scale", byteJson scale), ("displacement", displacementJson displacement), ("size", size.toJson),
      ("indirect", .bool indirect)]
  | .segment index size indirect displacement =>
    .record [("type", .str "segment"), ("index", byteJson index), ("size", size.toJson),
      ("indirect", .bool indirect), ("displacement", displacementJson displacement)]
  | .offset value size =>
    .record [("type", .str "memory_offset"), ("value", .nat value.toNat), ("size", size.toJson)]
  | .symbol name => .record [("type", .str "external"), ("symbol", .str name)]

/-- The size of an operand, which may also be the only key of an object that holds an empty object. -/
def sizeOfJson? : Json → Option OperandSize
  | .object [(some name, .object [])] => OperandSize.variants.lookup name
  | j => OperandSize.ofJson? j

/-- An operand of the named type from its other members. -/
def ofTagged? (tag : String) (j : Json) : Option Operand :=
  match tag with
  | "register" => do
    let [index, size, indirect, displacement] ← j.fields? ["index", "size", "indirect", "displacement"] | none
    return .register (← required? Json.uint8? index) (← required? sizeOfJson? size)
      (← required? Json.bool? indirect) (← optional? Json.int32? displacement)
  | "immediate" => do
    let [value, size, indirect, displacement] ← j.fields? ["value", "size", "indirect", "displacement"] | none
    return .immediate (← required? Json.int64? value) (← required? sizeOfJson? size)
      (← required? Json.bool? indirect) (← optional? Json.int32? displacement)
  | "scaled_index_base" => do
    let [base, index, scale, displacement, size, indirect] ←
      j.fields? ["base", "index", "scale", "displacement", "size", "indirect"] | none
    return .scaledIndex (← optional? Json.uint8? base) (← optional? Json.uint8? index)
      (← required? Json.uint8? scale) (← optional? Json.int32? displacement) (← required? sizeOfJson? size)
      (← required? Json.bool? indirect)
  | "segment" => do
    let [index, size, indirect, displacement] ← j.fields? ["index", "size", "indirect", "displacement"] | none
    return .segment (← required? Json.uint8? index) (← required? sizeOfJson? size)
      (← required? Json.bool? indirect) (← optional? Json.int32? displacement)
  | "memory_offset" => do
    let [value, size] ← j.fields? ["value", "size"] | none
    return .offset (← required? Json.uint32? value) (← required? sizeOfJson? size)
  | "external" => do
    let [name] ← j.fields? ["symbol"] | none
    return .symbol (← required? Json.string? name)
  | _ => none

/-- The depth to which the containers of a text may nest when an operand is read from it. -/
def nestingLimit : Nat := 127

/-- An operand from its JSON form, which stands inside `outer` containers.  The members are held
until the type is known, so all of them have to be holdable. -/
def ofJson? (outer : Nat) : Json → Option Operand
  | .object members => do
    let ms ← Json.members? members
    let tag ← required? Json.string? (← Json.once? ms "type")
    if Json.areMembersHoldable (nestingLimit - outer - 1) members then ofTagged? tag (.object members) else none
  | .array (tag :: items) => do ofTagged? (← tag.string?) (.array items)
  | _ => none

end Operand

/-! ### Instructions -/

namespace Instruction

/-- The JSON form of an instruction. -/
def toJson (i : Instruction) : Json :=
  .record [("prefixes", i.prefixes.toJson), ("opcode", .nat i.opcode.toNat), ("mnemonic", i.mnemonic.toJson),
    ("operands", .list Operand.toJson i.operands), ("address", .nat i.address.toNat),
    ("next_address", .nat i.nextAddress.toNat)]

/-- An instruction from its JSON form, which stands inside `outer` containers. -/
def ofJson? (outer : Nat) (j : Json) : Option Instruction := do
  let [prefixes, opcode, mnemonic, operands, address, nextAddress] ←
    j.fields? ["prefixes", "opcode", "mnemonic", "operands", "address", "next_address"] | none
  return {
    prefixes := ← required? Prefixes.ofJson? prefixes
    opcode := ← required? Json.uint16? opcode
    mnemonic := ← required? Mnemonic.ofJson? mnemonic
    operands := ← required? (Json.list? (Operand.ofJson? (outer + 2))) operands
    address := ← required? Json.uint32? address
    nextAddress := ← required? Json.uint32? nextAddress }

end Instruction

end Ia32Wasm.X86
