import Ia32Wasm.X86.Condition

/-!
# Mnemonics

The operations of the supported instructions, and four that no byte encodes: a branch whose target
is an imported function or is known only at run time takes one of these when its target is resolved.
-/

namespace Ia32Wasm.X86

/-- An operation on two sources. -/
inductive BinaryOp where
  | add | or | adc | sbb | and | sub | xor | cmp | test
deriving DecidableEq, Repr

/-- An operation on one operand that is both source and destination. -/
inductive UnaryOp where
  | inc | dec | neg | not
deriving DecidableEq, Repr

/-- A shift. -/
inductive ShiftOp where
  | shl | shr | sar
deriving DecidableEq, Repr

/-- The operation of an instruction. -/
inductive Mnemonic where
  | binary (op : BinaryOp)
  | unary (op : UnaryOp)
  | shift (op : ShiftOp)
  | multiply (signed : Bool)
  | divide (signed : Bool)
  | mov
  | widen (signed : Bool)
  | lea
  | xchg
  | cmpxchg
  | push
  | pop
  | pushad
  | popad
  | pushfd
  | popfd
  | leave
  | cdq
  | nop
  | cld
  | std
  | movs
  | stos
  | set (condition : Condition)
  | jumpIf (condition : Condition)
  | jecxz
  | jump
  | call
  | ret
  | int
  | into
  | cpuid
  | xgetbv
  | movlpd
  | xorps
  | importCall
  | importJump
  | dynamicJump
  | dynamicCall
deriving DecidableEq, Repr

/-- The name of a binary operation. -/
def BinaryOp.name : BinaryOp → String
  | .add => "ADD"
  | .or => "OR"
  | .adc => "ADC"
  | .sbb => "SBB"
  | .and => "AND"
  | .sub => "SUB"
  | .xor => "XOR"
  | .cmp => "CMP"
  | .test => "TEST"

/-- The name of a unary operation. -/
def UnaryOp.name : UnaryOp → String
  | .inc => "INC"
  | .dec => "DEC"
  | .neg => "NEG"
  | .not => "NOT"

/-- The name of a shift. -/
def ShiftOp.name : ShiftOp → String
  | .shl => "SHL"
  | .shr => "SHR"
  | .sar => "SAR"

namespace Mnemonic

/-- The name of an operation in listings. -/
def name : Mnemonic → String
  | .binary op => op.name
  | .unary op => op.name
  | .shift op => op.name
  | .multiply false => "MUL"
  | .multiply true => "IMUL"
  | .divide false => "DIV"
  | .divide true => "IDIV"
  | .mov => "MOV"
  | .widen false => "MOVZX"
  | .widen true => "MOVSX"
  | .lea => "LEA"
  | .xchg => "XCHG"
  | .cmpxchg => "CMPXCHG"
  | .push => "PUSH"
  | .pop => "POP"
  | .pushad => "PUSHAD"
  | .popad => "POPAD"
  | .pushfd => "PUSHFD"
  | .popfd => "POPFD"
  | .leave => "LEAVE"
  | .cdq => "CDQ"
  | .nop => "NOP"
  | .cld => "CLD"
  | .std => "STD"
  | .movs => "MOVS"
  | .stos => "STOS"
  | .set c => "SET" ++ c.suffix
  | .jumpIf c => "J" ++ c.suffix
  | .jecxz => "JECXZ"
  | .jump => "JMP"
  | .call => "CALL"
  | .ret => "RET"
  | .int => "INT"
  | .into => "INTO"
  | .cpuid => "CPUID"
  | .xgetbv => "XGETBV"
  | .movlpd => "MOVLPD"
  | .xorps => "XORPS"
  | .importCall => "EXTERN"
  | .importJump => "EXTERN.JMP"
  | .dynamicJump => "IJMP"
  | .dynamicCall => "ICALL"

/-- The operation with its condition replaced, if it tests one. -/
def withCondition (c : Condition) : Mnemonic → Mnemonic
  | .set _ => .set c
  | .jumpIf _ => .jumpIf c
  | m => m

/-- The operation jumps or falls through to the next instruction. -/
def isConditionalJump : Mnemonic → Bool
  | .jumpIf _ | .jecxz => true
  | _ => false

/-- The operation has a target that still has to be resolved. -/
def isBranch : Mnemonic → Bool
  | .jump | .call | .jumpIf _ | .jecxz => true
  | _ => false

/-- Control never reaches the instruction after this one. -/
def endsRun : Mnemonic → Bool
  | .jump | .ret => true
  | _ => false

/-- The form of a branch whose target is known only at run time. -/
def dynamic? : Mnemonic → Option Mnemonic
  | .jump => some .dynamicJump
  | .call => some .dynamicCall
  | _ => none

end Mnemonic

end Ia32Wasm.X86
