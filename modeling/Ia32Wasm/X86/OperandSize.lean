/-!
# Operand sizes

The widths an operand can have.  Scalar code computes with 8, 16 and 32 bits; the 128-bit width of
vector registers keeps the 32-bit mask and sign bit, which nothing computes with.
-/

namespace Ia32Wasm.X86

/-- The width of an operand. -/
inductive OperandSize where
  | bits8
  | bits16
  | bits32
  | bits128
deriving DecidableEq, Repr

namespace OperandSize

/-- The width in bits. -/
def bits : OperandSize → Nat
  | .bits8 => 8
  | .bits16 => 16
  | .bits32 => 32
  | .bits128 => 128

/-- The width in bytes. -/
def bytes (s : OperandSize) : Nat := s.bits / 8

/-- The word with one bit for each bit of a scalar of this width. -/
def mask : OperandSize → UInt32
  | .bits8 => 0xff
  | .bits16 => 0xffff
  | .bits32 | .bits128 => 0xffffffff

/-- The word with only the sign bit of a scalar of this width. -/
def signBit : OperandSize → UInt32
  | .bits8 => 0x80
  | .bits16 => 0x8000
  | .bits32 | .bits128 => 0x80000000

/-- The word in front of `ptr` in the text of a memory operand. -/
def keyword : OperandSize → String
  | .bits8 => "byte"
  | .bits16 => "word"
  | .bits32 => "dword"
  | .bits128 => "xmmword"

end OperandSize

end Ia32Wasm.X86
