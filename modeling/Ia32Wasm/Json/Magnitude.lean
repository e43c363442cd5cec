import Ia32Wasm.Json.Basic

/-!
# The size of a number

A number is held as a double, which has 53 significant bits and lies below `2 ^ 1024`.  It is computed
in three roundings, so near that bound it is not always the double nearest to the text.

* The significand is made of the leading digits, as many as fit into 64 bits, and is rounded.
* The power of ten that goes with it is rounded, and there is none above `10 ^ 308`.
* Their product is rounded, and has to stay below the bound; a quotient always does.
-/

namespace Ia32Wasm.Json

/-- The number nearest to `n` among those with `bits` significant bits; of two that are equally near
it is the one with an even significand. -/
def roundTo (bits n : Nat) : Nat :=
  let unit := 1 <<< (n.log2 + 1 - bits)
  let below := n / unit
  let rest := n % unit
  if 2 * rest < unit ∨ (2 * rest = unit ∧ below % 2 = 0) then below * unit else (below + 1) * unit

/-- The double nearest to a natural number, without a bound on its size. -/
def nearestDouble (n : Nat) : Nat := roundTo 53 n

/-- The leading digits of `digits`, as many as fit into 64 bits, and the number of those left out. -/
def leadingDigits (digits : Nat) : Nat × Nat :=
  let dropped := (Nat.toDigits 10 digits).length - 20
  let leading := digits / Nat.pow 10 dropped
  if leading < UInt64.size then (leading, dropped) else (leading / 10, dropped + 1)

/-- The exponent of the largest power of ten that is a double. -/
def largestExponent : Int := 308

/-- The double computed for `digits · 10 ^ exponent` is finite. -/
def isFiniteDecimal (digits : Nat) (exponent : Int) : Bool :=
  let (significand, dropped) := leadingDigits digits
  let power := exponent + dropped
  significand = 0 || power < 0 ||
    (power ≤ largestExponent &&
      nearestDouble (nearestDouble significand * nearestDouble (Nat.pow 10 power.toNat)) < 1 <<< 1024)

/-- The double computed for a number is finite. -/
def Number.isFinite : Number → Bool
  | .int n => isFiniteDecimal n.natAbs 0
  | .decimal _ digits exponent => isFiniteDecimal digits exponent

end Ia32Wasm.Json
