import Ia32Wasm.Json.Basic
import Ia32Wasm.Text.Hex

/-!
# JSON texts

The compact text of a value: no blanks, members in order, and in a string only the quote, the
backslash and the control characters are escaped.
-/

namespace Ia32Wasm.Json

/-- The text of a character inside a string. -/
def escape (c : Char) : List Char :=
  if c = '\x22' then ['\x5c', '\x22']
  else if c = '\x5c' then ['\x5c', '\x5c']
  else if c = '\x08' then ['\x5c', 'b']
  else if c = '\x0c' then ['\x5c', 'f']
  else if c = '\n' then ['\x5c', 'n']
  else if c = '\r' then ['\x5c', 'r']
  else if c = '\t' then ['\x5c', 't']
  else if c.toNat < 0x20 then '\x5c' :: 'u' :: Hex.padded 4 c.toNat
  else [c]

/-- The text of a string; a surrogate stands for one that has none. -/
def quoted : Option String → List Char
  | some s => '\x22' :: s.toList.flatMap escape ++ ['\x22']
  | none => '\x22' :: '\x5c' :: 'u' :: Hex.padded 4 0xd800 ++ ['\x22']

/-- The digits of an integer, with a sign when it is negative. -/
def signed (n : Int) : List Char :=
  if n < 0 then '-' :: Nat.toDigits 10 n.natAbs else Nat.toDigits 10 n.natAbs

/-- The text of a number. -/
def Number.render : Number → List Char
  | .int n => signed n
  | .decimal negative digits exponent =>
    (if negative then ['-'] else []) ++ Nat.toDigits 10 digits ++ 'e' :: signed exponent

mutual

/-- The compact text of a value. -/
def render : Json → List Char
  | .null => ['n', 'u', 'l', 'l']
  | .bool true => ['t', 'r', 'u', 'e']
  | .bool false => ['f', 'a', 'l', 's', 'e']
  | .number n => n.render
  | .text s => quoted s
  | .array items => '[' :: renderItems items
  | .object members => '\x7b' :: renderMembers members

/-- The items of an array and its closing bracket. -/
def renderItems : List Json → List Char
  | [] => [']']
  | item :: rest => item.render ++ renderMoreItems rest

/-- The items of an array after the first. -/
def renderMoreItems : List Json → List Char
  | [] => [']']
  | item :: rest => ',' :: item.render ++ renderMoreItems rest

/-- The members of an object and its closing brace. -/
def renderMembers : List (Option String × Json) → List Char
  | [] => ['\x7d']
  | (key, value) :: rest => quoted key ++ ':' :: value.render ++ renderMoreMembers rest

/-- The members of an object after the first. -/
def renderMoreMembers : List (Option String × Json) → List Char
  | [] => ['\x7d']
  | (key, value) :: rest => ',' :: quoted key ++ ':' :: value.render ++ renderMoreMembers rest

end

/-- The compact text of a value as a string. -/
def toText (j : Json) : String := String.ofList j.render

end Ia32Wasm.Json
