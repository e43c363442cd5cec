/-!
# Hexadecimal numerals

Numerals of natural numbers in base sixteen, shortest or padded to a width, the reading of a numeral
back, and the text of a byte string as two digits per byte.
-/

namespace Ia32Wasm.Hex

/-! ### Writing -/

/-- The shortest lower-case digits of `n`; zero is a single `0`. -/
def digits (n : Nat) : List Char := Nat.toDigits 16 n

/-- The digits of `n` with zeros in front up to `width`. -/
def padded (width n : Nat) : List Char :=
  List.replicate (width - (digits n).length) '0' ++ digits n

/-- A marked numeral: `0x` and the shortest digits. -/
def marked (n : Nat) : String := "0x" ++ String.ofList (digits n)

/-- An address as `0x` and eight digits. -/
def address (a : UInt32) : String := "0x" ++ String.ofList (padded 8 a.toNat)

/-- An address as eight digits. -/
def column (a : UInt32) : String := String.ofList (padded 8 a.toNat)

/-- An address as eight upper-case digits. -/
def label (a : UInt32) : String := String.ofList ((padded 8 a.toNat).map Char.toUpper)

/-- Two digits per byte. -/
def ofBytes (bytes : List UInt8) : String := String.ofList (bytes.flatMap fun b => padded 2 b.toNat)

/-! ### Reading -/

/-- The value of a digit in either case. -/
def digit? (c : Char) : Option Nat :=
  if '0' ≤ c ∧ c ≤ '9' then some (c.toNat - '0'.toNat)
  else if 'a' ≤ c ∧ c ≤ 'f' then some (c.toNat - 'a'.toNat + 10)
  else if 'A' ≤ c ∧ c ≤ 'F' then some (c.toNat - 'A'.toNat + 10)
  else none

/-- The value of digits read after those of `n`. -/
def extend? (n : Nat) (cs : List Char) : Option Nat :=
  cs.foldlM (fun n c => (digit? c).map (16 * n + ·)) n

/-- The value of one or more digits. -/
def ofDigits? (cs : List Char) : Option Nat := if cs.isEmpty then none else extend? 0 cs

/-- The value of a numeral that may carry a plus sign. -/
def ofSigned? : List Char → Option Nat
  | '+' :: cs => ofDigits? cs
  | cs => ofDigits? cs

/-- The bytes of a text of digit pairs. -/
def toBytes? (text : String) : Option (List UInt8) := pairs [] text.toList
where
  pairs (read : List UInt8) : List Char → Option (List UInt8)
    | [] => some read.reverse
    | high :: low :: rest => do
      let h ← digit? high
      let l ← digit? low
      pairs (UInt8.ofNat (16 * h + l) :: read) rest
    | [_] => none

end Ia32Wasm.Hex
