/-!
# LEB128 numbers

The shortest little-endian encoding in groups of seven bits: every byte but the last has its high
bit set, and a signed number ends with a group whose highest bit is its sign.
-/

namespace Ia32Wasm.Leb128

/-- The encoding of a natural number. -/
def unsigned (n : Nat) : List UInt8 :=
  if n < 128 then [UInt8.ofNat n] else UInt8.ofNat (n % 128 + 128) :: unsigned (n / 128)
termination_by n

/-- The encoding of an integer. -/
def signed (n : Int) : List UInt8 :=
  if -64 ≤ n ∧ n < 64 then [UInt8.ofNat (n % 128).toNat]
  else UInt8.ofNat ((n % 128).toNat + 128) :: signed (n / 128)
termination_by n.natAbs

end Ia32Wasm.Leb128
