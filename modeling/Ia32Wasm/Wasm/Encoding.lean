import Ia32Wasm.Wasm.Instr
import Ia32Wasm.Wasm.Leb128

/-!
# The binary form of instructions

Each instruction is an opcode and its immediates: indices as unsigned LEB128 numbers, constants as
signed ones.  Blocks have the empty type, and a memory access is naturally aligned at offset zero.
-/

namespace Ia32Wasm.Wasm

/-- The opcode of a numeric instruction. -/
def Numeric.opcode : Numeric → UInt8
  | .i32Eqz => 0x45
  | .i32Eq => 0x46
  | .i32Ne => 0x47
  | .i32LtU => 0x49
  | .i64Ne => 0x52
  | .i64LtU => 0x54
  | .i32Popcnt => 0x69
  | .i32Add => 0x6a
  | .i32Sub => 0x6b
  | .i32And => 0x71
  | .i32Or => 0x72
  | .i32Xor => 0x73
  | .i32Shl => 0x74
  | .i32ShrS => 0x75
  | .i32ShrU => 0x76
  | .i64Add => 0x7c
  | .i64Mul => 0x7e
  | .i64DivS => 0x7f
  | .i64DivU => 0x80
  | .i64RemS => 0x81
  | .i64RemU => 0x82
  | .i64Or => 0x84
  | .i64Shl => 0x86
  | .i64ShrU => 0x88
  | .i32WrapI64 => 0xa7
  | .i64ExtendI32S => 0xac
  | .i64ExtendI32U => 0xad
  | .i32Extend8S => 0xc0
  | .i32Extend16S => 0xc1

namespace Access

/-- The binary logarithm of the number of bytes. -/
def alignment : Access → UInt8
  | .byte => 0
  | .half => 1
  | .word => 2

/-- The opcode of a load, which extends with zeros. -/
def loadOpcode : Access → UInt8
  | .byte => 0x2d
  | .half => 0x2f
  | .word => 0x28

/-- The opcode of a store. -/
def storeOpcode : Access → UInt8
  | .byte => 0x3a
  | .half => 0x3b
  | .word => 0x36

end Access

/-- The type of a block that takes and leaves nothing. -/
def emptyBlockType : UInt8 := 0x40

/-- The bytes of an instruction whose callee is a function index. -/
def Instr.encode : Instr Nat → List UInt8
  | .unreachable => [0x00]
  | .block => [0x02, emptyBlockType]
  | .loop => [0x03, emptyBlockType]
  | .ifThen => [0x04, emptyBlockType]
  | .orElse => [0x05]
  | .close => [0x0b]
  | .br depth => 0x0c :: Leb128.unsigned depth
  | .brIf depth => 0x0d :: Leb128.unsigned depth
  | .ret => [0x0f]
  | .call index => 0x10 :: Leb128.unsigned index
  | .select => [0x1b]
  | .localGet i => 0x20 :: Leb128.unsigned i
  | .localSet i => 0x21 :: Leb128.unsigned i
  | .globalGet i => 0x23 :: Leb128.unsigned i
  | .globalSet i => 0x24 :: Leb128.unsigned i
  | .load a => [a.loadOpcode, a.alignment, 0x00]
  | .store a => [a.storeOpcode, a.alignment, 0x00]
  | .i32Const v => 0x41 :: Leb128.signed v.toInt32.toInt
  | .i64Const v => 0x42 :: Leb128.signed v.toInt64.toInt
  | .op o => [o.opcode]

/-- The bytes of a sequence of instructions. -/
def encodeCode (code : List (Instr Nat)) : List UInt8 := code.flatMap Instr.encode

end Ia32Wasm.Wasm
