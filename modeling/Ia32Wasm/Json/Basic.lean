/-!
# JSON values

The values of a JSON text.  Members keep their order and their repetitions, a number keeps whether
it was written as an integer, and a text that escapes an unpaired surrogate is a value that has no
string.
-/

namespace Ia32Wasm

/-- A number: an integer, or a decimal `± digits · 10 ^ exponent` written with a fraction, an
exponent or as `-0`. -/
inductive Json.Number where
  | int (value : Int)
  | decimal (negative : Bool) (digits : Nat) (exponent : Int)
deriving DecidableEq, Repr

/-- A JSON value.  A text or key is `none` when its escapes leave a surrogate unpaired. -/
inductive Json where
  | null
  | bool (value : Bool)
  | number (value : Json.Number)
  | text (string : Option String)
  | array (items : List Json)
  | object (members : List (Option String × Json))
deriving Inhabited

namespace Json

/-- The value of a string. -/
def str (s : String) : Json := .text (some s)

/-- The value of an integer. -/
def int (n : Int) : Json := .number (.int n)

/-- The value of a natural number. -/
def nat (n : Nat) : Json := .int n

/-- An object with the given members. -/
def record (members : List (String × Json)) : Json := .object (members.map fun (k, v) => (some k, v))

/-- A value, or `null` when there is none. -/
def opt {α : Type} (f : α → Json) : Option α → Json
  | some a => f a
  | none => .null

/-- An array of the values of a list. -/
def list {α : Type} (f : α → Json) (as : List α) : Json := .array (as.map f)

end Json

end Ia32Wasm
