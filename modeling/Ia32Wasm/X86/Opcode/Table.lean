import Ia32Wasm.X86.Mnemonic
import Ia32Wasm.X86.Opcode.Shape

/-!
# The opcode table

One entry for each opcode or, where the register field of the ModRM byte selects the operation, for
each opcode and field.  An opcode of the second kind is a group; the two kinds never share an
opcode.  The entries stand in ascending order of opcode and field.
-/

namespace Ia32Wasm.X86.Opcode

/-- What an opcode means.  When `readsFirst` holds, the first operand is repeated, once as
destination and once as source. -/
structure Entry where
  opcode : UInt16
  field : Option UInt8
  mnemonic : Mnemonic
  shape : Shape
  readsFirst : Bool
deriving DecidableEq, Repr

/-! ### Families of entries -/

/-- An opcode by itself. -/
def plain (opcode : UInt16) (mnemonic : Mnemonic) (shape : Shape) (readsFirst : Bool := false) : Entry :=
  ⟨opcode, none, mnemonic, shape, readsFirst⟩

/-- A member of a group. -/
def member (opcode : UInt16) (shape : Shape) (readsFirst : Bool) (field : UInt8) (mnemonic : Mnemonic) : Entry :=
  ⟨opcode, some field, mnemonic, shape, readsFirst⟩

/-- Consecutive opcodes with a register in the low three bits, from the register `first` on. -/
def registers (base : UInt16) (first : Nat) (mnemonic : Mnemonic) (shape : Shape) : List Entry :=
  (List.range' first (8 - first)).map fun i => plain (base + UInt16.ofNat i) mnemonic shape

/-- Sixteen consecutive opcodes with a condition in the low four bits. -/
def conditions (base : UInt16) (mnemonic : Condition → Mnemonic) (shape : Shape) : List Entry :=
  Condition.all.map fun c => plain (base + UInt16.ofNat c.code) (mnemonic c) shape

/-- The operations of the first eight rows and of the groups `80`, `81` and `83`, by number. -/
def binaryOps : List BinaryOp := [.add, .or, .adc, .sbb, .and, .sub, .xor, .cmp]

/-- The six encodings of a binary operation; a comparison does not write its first operand. -/
def binaryRow (base : UInt16) (op : BinaryOp) : List Entry :=
  let writes : Bool := op ≠ .cmp
  [plain base (.binary op) (.rmReg .byte) writes,
    plain (base + 1) (.binary op) (.rmReg .full) writes,
    plain (base + 2) (.binary op) (.regRm .byte) writes,
    plain (base + 3) (.binary op) (.regRm .full) writes,
    plain (base + 4) (.binary op) (.accImm .byte .signedByte) writes,
    plain (base + 5) (.binary op) (.accImm .full .full) writes]

/-- A group of binary operations with a constant. -/
def binaryGroup (opcode : UInt16) (shape : Shape) : List Entry :=
  binaryOps.mapIdx fun i op => member opcode shape (op ≠ .cmp) (UInt8.ofNat i) (.binary op)

/-- A group of shifts; the field 6 is a second encoding of the left shift. -/
def shiftGroup (opcode : UInt16) (shape : Shape) : List Entry :=
  [member opcode shape true 4 (.shift .shl), member opcode shape true 5 (.shift .shr),
    member opcode shape true 6 (.shift .shl), member opcode shape true 7 (.shift .sar)]

/-- A group of operations on one operand. -/
def unaryGroup (opcode : UInt16) (width : Width) (constant : Constant) : List Entry :=
  [member opcode (.rmImm width constant) false 0 (.binary .test), member opcode (.rm width) false 2 (.unary .not),
    member opcode (.rm width) false 3 (.unary .neg), member opcode (.rm width) false 4 (.multiply false),
    member opcode (.rm width) false 5 (.multiply true), member opcode (.rm width) false 6 (.divide false),
    member opcode (.rm width) false 7 (.divide true)]

/-! ### The table -/

/-- The entries of the one-byte opcodes below `80`. -/
def lowEntries : List Entry :=
  (binaryOps.mapIdx fun i op => binaryRow (UInt16.ofNat (8 * i)) op).flatten ++
  registers 0x40 0 (.unary .inc) (.opReg .full) ++
  registers 0x48 0 (.unary .dec) (.opReg .full) ++
  registers 0x50 0 .push (.opReg .full) ++
  registers 0x58 0 .pop (.opReg .full) ++
  [plain 0x60 .pushad .none, plain 0x61 .popad .none, plain 0x68 .push (.imm .full),
    plain 0x69 (.multiply true) (.regRmImm .full .full), plain 0x6a .push (.imm .signedByte),
    plain 0x6b (.multiply true) (.regRmImm .full .signedByte)] ++
  conditions 0x70 .jumpIf (.relative .signedByte)

/-- The entries of the one-byte opcodes from `80` to `bf`; the exchange of the accumulator with
itself does nothing. -/
def middleEntries : List Entry :=
  binaryGroup 0x80 (.rmImm .byte .signedByte) ++
  binaryGroup 0x81 (.rmImm .full .full) ++
  binaryGroup 0x83 (.rmImm .full .signedByte) ++
  [plain 0x84 (.binary .test) (.rmReg .byte), plain 0x85 (.binary .test) (.rmReg .full),
    plain 0x86 .xchg (.rmReg .byte), plain 0x87 .xchg (.rmReg .full),
    plain 0x88 .mov (.rmReg .byte), plain 0x89 .mov (.rmReg .full),
    plain 0x8a .mov (.regRm .byte), plain 0x8b .mov (.regRm .full),
    plain 0x8c .mov .rmSegment, plain 0x8d .lea (.regRm .full), plain 0x8e .mov .segmentRm,
    member 0x8f (.rm .full) false 0 .pop, plain 0x90 .nop .none] ++
  registers 0x90 1 .xchg (.opRegAcc .full) ++
  [plain 0x99 .cdq .none, plain 0x9a .call .farPointer, plain 0x9c .pushfd .none, plain 0x9d .popfd .none,
    plain 0xa0 .mov (.accOffset .byte), plain 0xa1 .mov (.accOffset .full),
    plain 0xa2 .mov (.offsetAcc .byte), plain 0xa3 .mov (.offsetAcc .full),
    plain 0xa4 .movs (.move .byte), plain 0xa5 .movs (.move .full),
    plain 0xa8 (.binary .test) (.accImm .byte .signedByte), plain 0xa9 (.binary .test) (.accImm .full .full),
    plain 0xaa .stos (.fill .byte), plain 0xab .stos (.fill .full)] ++
  registers 0xb0 0 .mov (.opRegImm .byte .signedByte) ++
  registers 0xb8 0 .mov (.opRegImm .full .full)

/-- The entries of the one-byte opcodes from `c0` on; a far return is a near one. -/
def highEntries : List Entry :=
  shiftGroup 0xc0 (.rmImm .byte .unsignedByte) ++
  shiftGroup 0xc1 (.rmImm .full .unsignedByte) ++
  [plain 0xc2 .ret (.imm .word), plain 0xc3 .ret .none,
    member 0xc6 (.rmImm .byte .signedByte) false 0 .mov, member 0xc7 (.rmImm .full .full) false 0 .mov,
    plain 0xc9 .leave .none, plain 0xca .ret (.imm .word), plain 0xcb .ret .none,
    plain 0xcc .int (.fixed 3), plain 0xcd .int (.imm .unsignedByte), plain 0xce .into .none] ++
  shiftGroup 0xd0 (.rmOne .byte) ++
  shiftGroup 0xd1 (.rmOne .full) ++
  shiftGroup 0xd2 (.rmCl .byte) ++
  shiftGroup 0xd3 (.rmCl .full) ++
  [plain 0xe3 .jecxz (.relative .signedByte), plain 0xe8 .call (.relative .full),
    plain 0xe9 .jump (.relative .full), plain 0xea .jump .farPointer, plain 0xeb .jump (.relative .signedByte)] ++
  unaryGroup 0xf6 .byte .signedByte ++
  unaryGroup 0xf7 .full .full ++
  [plain 0xfc .cld .none, plain 0xfd .std .none,
    member 0xfe (.rm .byte) false 0 (.unary .inc), member 0xfe (.rm .byte) false 1 (.unary .dec),
    member 0xff (.rm .full) false 0 (.unary .inc), member 0xff (.rm .full) false 1 (.unary .dec),
    member 0xff (.rm .dword) false 2 .call, member 0xff (.rm .dword) false 4 .jump,
    member 0xff (.rm .full) false 6 .push]

/-- The entries of the two-byte opcodes. -/
def escapedEntries : List Entry :=
  [member 0x0f01 (.exactModRM 0xd0) false 2 .xgetbv, plain 0x0f12 .movlpd .xmmRm, plain 0x0f13 .movlpd .rmXmm,
    plain 0x0f57 .xorps .xmmRm true] ++
  conditions 0x0f80 .jumpIf (.relative .full) ++
  conditions 0x0f90 .set (.rm .byte) ++
  [plain 0x0fa2 .cpuid .none, plain 0x0faf (.multiply true) (.regRm .full) true,
    plain 0x0fb0 .cmpxchg (.rmReg .byte), plain 0x0fb1 .cmpxchg (.rmReg .full),
    plain 0x0fb6 (.widen false) (.regRmWiden .byte), plain 0x0fb7 (.widen false) (.regRmWiden .word),
    plain 0x0fbe (.widen true) (.regRmWiden .byte), plain 0x0fbf (.widen true) (.regRmWiden .word)]

/-- Every entry, in ascending order. -/
def table : List Entry := lowEntries ++ middleEntries ++ highEntries ++ escapedEntries

/-- The opcode selects its operation through the register field of the ModRM byte. -/
def isGroup (opcode : UInt16) : Bool := table.any fun e => e.opcode == opcode && e.field.isSome

/-- The entry of an opcode and, for a group, of a register field. -/
def find? (opcode : UInt16) (field : Option UInt8) : Option Entry :=
  table.find? fun e => e.opcode == opcode && e.field == field

/-- The entries whose opcodes lie in an inclusive range. -/
def entriesIn (first last : UInt16) : List Entry := table.filter fun e => first ≤ e.opcode && e.opcode ≤ last

end Ia32Wasm.X86.Opcode
