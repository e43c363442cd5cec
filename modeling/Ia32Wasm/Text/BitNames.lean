import Ia32Wasm.Text.Blank
import Ia32Wasm.Text.Hex

/-!
# The text of a bit set

A set of bits some of which have names is written as the names of its members, in the order of the
table, and then its other bits as one marked numeral; the parts are joined by a bar.  Reading takes
the parts in any order and unites them, so the nameless bits survive a round trip.
-/

namespace Ia32Wasm

/-- The names of some bits, each with the number that has only that bit. -/
abbrev BitNames := List (String × Nat)

namespace BitNames

/-- The bits of `bits` that have a name. -/
def named (names : BitNames) : Nat := names.foldl (fun all entry => all ||| entry.2) 0

/-- The parts of the text: the names of the members, then the rest as a numeral. -/
def parts (names : BitNames) (bits : Nat) : List String :=
  let rest := bits &&& (bits ^^^ names.named)
  (names.filter fun entry => bits &&& entry.2 == entry.2).map Prod.fst ++
    (if rest = 0 then [] else [Hex.marked rest])

/-- The text of the set `bits`. -/
def render (names : BitNames) (bits : Nat) : String := " | ".intercalate (names.parts bits)

/-- The pieces between the bars, one more than there are bars. -/
def pieces : List Char → List (List Char)
  | [] => [[]]
  | c :: cs =>
    if c = '|' then [] :: pieces cs
    else match pieces cs with
      | [] => [[c]]
      | piece :: rest => (c :: piece) :: rest

/-- The bits of one part: a marked numeral below `2 ^ width`, or a name. -/
def part? (names : BitNames) (width : Nat) : List Char → Option Nat
  | '0' :: 'x' :: numeral => (Hex.ofSigned? numeral).filter (· < 1 <<< width)
  | name => names.lookup (String.ofList name)

/-- The set of bits below `2 ^ width` that a text names; a blank text names none. -/
def parse? (names : BitNames) (width : Nat) (text : String) : Option Nat :=
  if text.toList.all isBlank then some 0
  else (pieces text.toList).foldlM (fun bits piece => (names.part? width (trimBlank piece)).map (bits ||| ·)) 0

end BitNames

end Ia32Wasm
