/-!
# Operand shapes

How an opcode encodes its operands: which of them come from the ModRM byte, from the opcode itself,
from the bytes that follow or from nowhere, and how wide they are.
-/

namespace Ia32Wasm.X86.Opcode

/-- The width of an operation; a full width is 32 bits, or 16 under the operand-size prefix. -/
inductive Width where
  | byte
  | word
  | dword
  | full
  | xmm
deriving DecidableEq, Repr

/-- The encoding of a constant: a sign-extended byte, a zero-extended byte, a full-width constant or
16 bits. -/
inductive Constant where
  | signedByte
  | unsignedByte
  | full
  | word
deriving DecidableEq, Repr

/-- The operands of an opcode, in the order of the instruction.  Here `rm` is the register or memory
of the ModRM byte, `reg` its register, `acc` the accumulator and `opReg` the register in the low
three bits of the opcode. -/
inductive Shape where
  | none
  | rmReg (width : Width)
  | regRm (width : Width)
  | regRmWiden (width : Width)
  | rmSegment
  | segmentRm
  | accImm (width : Width) (constant : Constant)
  | rmImm (width : Width) (constant : Constant)
  | regRmImm (width : Width) (constant : Constant)
  | opReg (width : Width)
  | opRegImm (width : Width) (constant : Constant)
  | opRegAcc (width : Width)
  | imm (constant : Constant)
  | fixed (value : Int64)
  | relative (constant : Constant)
  | rm (width : Width)
  | rmOne (width : Width)
  | rmCl (width : Width)
  | accOffset (width : Width)
  | offsetAcc (width : Width)
  | move (width : Width)
  | fill (width : Width)
  | xmmRm
  | rmXmm
  | farPointer
  | exactModRM (byte : UInt8)
deriving DecidableEq, Repr

namespace Width

/-- The name of a width. -/
def text : Width → String
  | .byte => "Byte"
  | .word => "Word"
  | .dword => "Dword"
  | .full => "Vz"
  | .xmm => "Xmm"

end Width

namespace Constant

/-- The name of an encoding. -/
def text : Constant → String
  | .signedByte => "Ib"
  | .unsignedByte => "Ub"
  | .full => "Iz"
  | .word => "Iw"

end Constant

namespace Shape

/-- The encoding has a ModRM byte. -/
def hasModRM : Shape → Bool
  | .rmReg _ | .regRm _ | .regRmWiden _ | .rmSegment | .segmentRm | .rmImm _ _ | .regRmImm _ _ | .rm _ | .rmOne _
  | .rmCl _ | .xmmRm | .rmXmm | .exactModRM _ => true
  | _ => false

/-- The only ModRM byte that the encoding accepts. -/
def exactModRM? : Shape → Option UInt8
  | .exactModRM byte => some byte
  | _ => Option.none

/-- The text of a shape with its parameters. -/
def applied (name : String) (parameters : List String) : String :=
  name ++ "(" ++ ", ".intercalate parameters ++ ")"

/-- The name of a shape. -/
def text : Shape → String
  | .none => "None"
  | .rmReg w => applied "RmReg" [w.text]
  | .regRm w => applied "RegRm" [w.text]
  | .regRmWiden w => applied "RegRmWiden" [w.text]
  | .rmSegment => "RmSreg"
  | .segmentRm => "SregRm"
  | .accImm w c => applied "AccImm" [w.text, c.text]
  | .rmImm w c => applied "RmImm" [w.text, c.text]
  | .regRmImm w c => applied "RegRmImm" [w.text, c.text]
  | .opReg w => applied "OpReg" [w.text]
  | .opRegImm w c => applied "OpRegImm" [w.text, c.text]
  | .opRegAcc w => applied "OpRegAcc" [w.text]
  | .imm c => applied "Imm" [c.text]
  | .fixed value => applied "ImmConst" [toString value.toInt]
  | .relative c => applied "Rel" [c.text]
  | .rm w => applied "Rm" [w.text]
  | .rmOne w => applied "RmOne" [w.text]
  | .rmCl w => applied "RmCl" [w.text]
  | .accOffset w => applied "AccMoffs" [w.text]
  | .offsetAcc w => applied "MoffsAcc" [w.text]
  | .move w => applied "Movs" [w.text]
  | .fill w => applied "Stos" [w.text]
  | .xmmRm => "XmmRm"
  | .rmXmm => "RmXmm"
  | .farPointer => "FarPtr"
  | .exactModRM byte => applied "ModrmExact" [toString byte.toNat]

end Shape

end Ia32Wasm.X86.Opcode
