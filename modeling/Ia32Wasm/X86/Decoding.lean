import Ia32Wasm.X86.Instruction
import Ia32Wasm.X86.Opcode.Table

/-!
# Decoding

One instruction is read from the front of a byte string: prefixes, an opcode of one or two bytes,
and the operands that the shape of the opcode asks for.  What is read depends on the bytes alone;
the address only names the instruction.  An instruction longer than fifteen bytes is refused, at once
when its prefixes alone are, and else when it is complete.
-/

namespace Ia32Wasm.X86

/-- Why bytes do not decode. -/
inductive DecodeFault where
  | unknownOpcode (opcode : UInt16)
  | truncated
  | tooLong
deriving DecidableEq, Repr

/-- A failure to decode the instruction at an address. -/
structure DecodeError where
  address : UInt32
  fault : DecodeFault
deriving DecidableEq, Repr

/-- The message of a failure. -/
def DecodeError.message (e : DecodeError) : String :=
  match e.fault with
  | .unknownOpcode opcode => "unknown opcode " ++ Hex.marked opcode.toNat ++ " at " ++ Hex.address e.address
  | .truncated => "instruction at " ++ Hex.address e.address ++ " runs past the end of the buffer"
  | .tooLong => "instruction at " ++ Hex.address e.address ++ " is longer than 15 bytes"

/-- The largest number of bytes in an instruction. -/
def maxLength : Nat := 15

/-- A reader of values from the front of a byte string. -/
abbrev Fetch := StateT (List UInt8) (Except DecodeFault)

namespace Fetch

/-- The next byte, left where it is. -/
def peek : Fetch UInt8
  | [] => .error .truncated
  | byte :: rest => .ok (byte, byte :: rest)

/-- The next byte. -/
def byte : Fetch UInt8
  | [] => .error .truncated
  | byte :: rest => .ok (byte, rest)

/-- A little-endian number of `n` bytes, at most four. -/
def number : Nat → Fetch UInt32
  | 0 => pure 0
  | n + 1 => do
    let low ← byte
    let high ← number n
    return low.toUInt32 ||| (high <<< 8)

/-- A sign-extended byte. -/
def signedByte : Fetch Int32 := do return (← byte).toInt8.toInt32

/-- A signed number of four bytes. -/
def signedWord : Fetch Int32 := do return (← number 4).toInt32

/-- Prefixes up to the first byte that is none, after `count` bytes that gave `seen`. -/
def prefixes (seen : Prefixes) (count : Nat) : Fetch Prefixes
  | [] => .error .truncated
  | byte :: rest =>
    match Prefixes.ofByte? byte with
    | none => .ok (seen, byte :: rest)
    | some p => if maxLength ≤ count + 1 then .error .tooLong else prefixes (seen.union p) (count + 1) rest

/-- An opcode of one byte, or of two when the first is `0f`. -/
def opcode : Fetch UInt16 := do
  let first ← byte
  if first = 0x0f then return 0x0f00 ||| (← byte).toUInt16 else return first.toUInt16

/-- The register field that selects the operation of a group opcode; it stays to be read again. -/
def groupField (opcode : UInt16) : Fetch (Option UInt8) := do
  if Opcode.isGroup opcode then return some (((← peek) >>> 3) &&& 7) else return none

end Fetch

/-! ### ModRM operands -/

/-- The fields of a ModRM byte. -/
structure ModRM where
  mode : UInt8
  reg : UInt8
  rm : UInt8
deriving DecidableEq, Repr

/-- The fields of a byte. -/
def ModRM.ofByte (byte : UInt8) : ModRM := ⟨byte >>> 6, (byte >>> 3) &&& 7, byte &&& 7⟩

namespace Fetch

open Opcode (Width Constant Shape)

/-- The ModRM byte. -/
def modRM : Fetch ModRM := do return ModRM.ofByte (← byte)

/-- The displacement that the mode asks for. -/
def displacement (mode : UInt8) : Fetch (Option Int32) := do
  if mode = 1 then return some (← signedByte)
  else if mode = 2 then return some (← signedWord)
  else return none

/-- Memory at an absolute address, which is relative to a segment under an `FS` or `GS` prefix. -/
def absolute (prefixes : Prefixes) (size : OperandSize) (plain : UInt32 → Operand) : Fetch Operand := do
  let value ← number 4
  match prefixes.baseSegment? with
  | some segment => return .segment segment size true (some value.toInt32)
  | none => return plain value

/-- Memory addressed by a SIB byte.  The base 5 without a displacement mode is a 32-bit displacement
instead. -/
def scaledIndex (mode : UInt8) (size : OperandSize) : Fetch Operand := do
  let sib ← byte
  let index := (sib >>> 3) &&& 7
  let base := sib &&& 7
  let scale := (1 : UInt8) <<< (sib >>> 6)
  let index := if index = 4 then none else some index
  if base = 5 ∧ mode = 0 then
    return .scaledIndex none index scale (some (← signedWord)) size true
  else
    return .scaledIndex (some base) index scale (← displacement mode) size true

/-- The register or memory of a ModRM byte. -/
def rm (prefixes : Prefixes) (m : ModRM) (size : OperandSize) : Fetch Operand := do
  if m.mode = 3 then return .reg m.rm size
  else if m.rm = 4 then scaledIndex m.mode size
  else if m.rm = 5 ∧ m.mode = 0 then
    absolute prefixes size fun value => .immediate (Int64.ofNat value.toNat) size true none
  else return .register m.rm size true (← displacement m.mode)

/-! ### Operands by shape -/

/-- The width of an operation under the given prefixes. -/
def width (prefixes : Prefixes) : Width → OperandSize
  | .byte => .bits8
  | .word => .bits16
  | .dword => .bits32
  | .full => if prefixes.contains .operandSize then .bits16 else .bits32
  | .xmm => .bits128

/-- A constant for an operation of the given size. -/
def constant (size : OperandSize) : Constant → Fetch Operand
  | .signedByte => do return .imm (← signedByte).toInt64 size
  | .unsignedByte => do return .imm (Int64.ofNat (← byte).toNat) size
  | .word => do return .imm (Int64.ofNat (← number 2).toNat) size
  | .full => do
    if size = .bits16 then return .imm (← number 2).toUInt16.toInt16.toInt64 size
    else return .imm (← signedWord).toInt64 size

/-- The size of a constant that is the only operand. -/
def constantSize (prefixes : Prefixes) : Constant → OperandSize
  | .unsignedByte => .bits8
  | .word => .bits16
  | .signedByte | .full => width prefixes .full

/-- The size of a relative branch target. -/
def relativeSize (prefixes : Prefixes) : Constant → OperandSize
  | .signedByte | .unsignedByte => .bits8
  | .word => .bits16
  | .full => width prefixes .full

/-- The accumulator. -/
def acc (size : OperandSize) : Operand := .reg 0 size

/-- A segment register. -/
def segmentRegister (index : UInt8) : Operand := .segment index .bits16 false none

/-- The memory at an absolute offset. -/
def memoryOffset (prefixes : Prefixes) (size : OperandSize) : Fetch Operand :=
  absolute prefixes size fun value => .offset value size

/-- The operands of an opcode. -/
def operands (prefixes : Prefixes) (opcode : UInt16) : Shape → Fetch (List Operand)
  | .none => return []
  | .rmReg w => do
    let m ← modRM
    let size := width prefixes w
    return [← rm prefixes m size, .reg m.reg size]
  | .regRm w => do
    let m ← modRM
    let size := width prefixes w
    return [.reg m.reg size, ← rm prefixes m size]
  | .regRmWiden w => do
    let m ← modRM
    return [.reg m.reg (width prefixes .full), ← rm prefixes m (width prefixes w)]
  | .rmSegment => do
    let m ← modRM
    return [← rm prefixes m (if m.mode = 3 then width prefixes .full else .bits16), segmentRegister m.reg]
  | .segmentRm => do
    let m ← modRM
    return [segmentRegister m.reg, ← rm prefixes m .bits16]
  | .accImm w c => do
    let size := width prefixes w
    return [acc size, ← constant size c]
  | .rmImm w c => do
    let m ← modRM
    let size := width prefixes w
    let target ← rm prefixes m size
    return [target, ← constant (if c = .unsignedByte then .bits8 else size) c]
  | .regRmImm w c => do
    let m ← modRM
    let size := width prefixes w
    let source ← rm prefixes m size
    return [.reg m.reg size, source, ← constant size c]
  | .opReg w => return [.reg (opcode &&& 7).toUInt8 (width prefixes w)]
  | .opRegImm w c => do
    let size := width prefixes w
    return [.reg (opcode &&& 7).toUInt8 size, ← constant size c]
  | .opRegAcc w =>
    let size := width prefixes w
    return [.reg (opcode &&& 7).toUInt8 size, acc size]
  | .imm c => do return [← constant (constantSize prefixes c) c]
  | .fixed value => return [.imm value .bits8]
  | .relative c => do return [← constant (relativeSize prefixes c) c]
  | .rm w => do
    let m ← modRM
    return [← rm prefixes m (width prefixes w)]
  | .rmOne w => do
    let m ← modRM
    return [← rm prefixes m (width prefixes w), .imm 1 .bits8]
  | .rmCl w => do
    let m ← modRM
    return [← rm prefixes m (width prefixes w), .reg 1 .bits8]
  | .accOffset w => do
    let size := width prefixes w
    return [acc size, ← memoryOffset prefixes size]
  | .offsetAcc w => do
    let size := width prefixes w
    return [← memoryOffset prefixes size, acc size]
  | .move w =>
    let size := width prefixes w
    return [.pointer 7 size, .pointer 6 size]
  | .fill w =>
    let size := width prefixes w
    return [.pointer 7 size, acc size]
  | .xmmRm => do
    let m ← modRM
    return [.reg m.reg .bits128, ← rm prefixes m .bits128]
  | .rmXmm => do
    let m ← modRM
    return [← rm prefixes m .bits128, .reg m.reg .bits128]
  | .farPointer => do
    let offset ← constant (width prefixes .full) .full
    let selector ← constant .bits16 .word
    return [selector, offset]
  | .exactModRM expected => do
    if (← byte) = expected then return [] else throw (.unknownOpcode opcode)

/-- The operands with the first one repeated, for an operation that also reads it. -/
def repeatFirst : List Operand → List Operand
  | [] => []
  | first :: rest => first :: first :: rest

/-- The parts of an instruction other than its addresses. -/
def instruction : Fetch (Prefixes × UInt16 × Mnemonic × List Operand) := do
  let prefixes ← prefixes {} 0
  let opcode ← opcode
  let field ← groupField opcode
  match Opcode.find? opcode field with
  | none => throw (.unknownOpcode opcode)
  | some entry =>
    let operands ← operands prefixes opcode entry.shape
    return (prefixes, opcode, entry.mnemonic, if entry.readsFirst then repeatFirst operands else operands)

end Fetch

/-- The instruction at the front of `bytes`, which lies at `address`, and its length. -/
def decode (bytes : List UInt8) (address : UInt32) : Except DecodeError (Instruction × Nat) :=
  match Fetch.instruction bytes with
  | .error fault => .error ⟨address, fault⟩
  | .ok ((prefixes, opcode, mnemonic, operands), rest) =>
    let length := bytes.length - rest.length
    if maxLength < length then .error ⟨address, .tooLong⟩
    else .ok (⟨prefixes, opcode, mnemonic, operands, address, address + UInt32.ofNat length⟩, length)

/-- The instructions that lie back to back in `bytes` from `address` on, with their lengths, and the
error that stopped the sweep before the end, if any. -/
def sweep (bytes : List UInt8) (address : UInt32) : List (Instruction × Nat) × Option DecodeError :=
  go bytes.length bytes address []
where
  go : Nat → List UInt8 → UInt32 → List (Instruction × Nat) → List (Instruction × Nat) × Option DecodeError
    | 0, _, _, read | _, [], _, read => (read.reverse, none)
    | fuel + 1, bytes, address, read =>
      match decode bytes address with
      | .error e => (read.reverse, some e)
      | .ok (i, length) => go fuel (bytes.drop length) i.nextAddress ((i, length) :: read)

end Ia32Wasm.X86
