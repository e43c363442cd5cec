import Ia32Wasm.Json.Basic
import Ia32Wasm.Text.Hex

/-!
# JSON tokens

A text is read from left to right, one character at a time, into the tokens of strict JSON: no
comments, no leading zeros, no unescaped control characters, and only the four blanks of the format
between tokens.  A string that leaves a surrogate unpaired is a token all the same, without a text.
-/

namespace Ia32Wasm.Json

/-- A lexical unit of a JSON text. -/
inductive Token where
  | beginArray
  | endArray
  | beginObject
  | endObject
  | comma
  | colon
  | null
  | bool (value : Bool)
  | number (value : Number)
  | text (string : Option String)
deriving DecidableEq, Repr

/-! ### Numbers -/

/-- The value of decimal digits. -/
def decimalValue (cs : List Char) : Nat := Nat.ofDigitChars 10 cs 0

/-- The exponent written after the mark `e` or `E`. -/
def exponent? : List Char → Option Int
  | [] => some 0
  | mark :: rest =>
    if mark = 'e' ∨ mark = 'E' then
      match rest with
      | '-' :: ds => if ds ≠ [] ∧ ds.all Char.isDigit then some (-decimalValue ds) else none
      | '+' :: ds => if ds ≠ [] ∧ ds.all Char.isDigit then some (decimalValue ds) else none
      | ds => if ds ≠ [] ∧ ds.all Char.isDigit then some (decimalValue ds) else none
    else none

/-- The number whose integer digits are `whole`, with the rest of its text. -/
def Number.ofParts? (negative : Bool) (whole : List Char) : List Char → Option Number
  | [] =>
    let n := decimalValue whole
    if negative ∧ n = 0 then some (.decimal true 0 0)
    else some (.int (if negative then -n else n))
  | '.' :: rest =>
    let fraction := rest.takeWhile Char.isDigit
    if fraction = [] then none
    else (exponent? (rest.dropWhile Char.isDigit)).map fun e =>
      .decimal negative (decimalValue (whole ++ fraction)) (e - fraction.length)
  | rest => (exponent? rest).map (.decimal negative (decimalValue whole))

/-- The number with integer digits at the front of a text: a single zero, or digits that do not
start with one. -/
def Number.ofUnsigned? (negative : Bool) (cs : List Char) : Option Number :=
  match cs.takeWhile Char.isDigit with
  | [] => none
  | '0' :: _ :: _ => none
  | whole => Number.ofParts? negative whole (cs.dropWhile Char.isDigit)

/-- The number that a text denotes. -/
def Number.ofChars? : List Char → Option Number
  | '-' :: cs => Number.ofUnsigned? true cs
  | cs => Number.ofUnsigned? false cs

/-! ### Strings -/

/-- A string part way through: its characters, last first, a high surrogate that waits for its other
half, and whether a surrogate has been left alone. -/
structure Quote where
  chars : List Char := []
  high : Option Nat := none
  broken : Bool := false
deriving DecidableEq, Repr

namespace Quote

/-- The string extended by a character. -/
def push (q : Quote) (c : Char) : Quote :=
  { chars := c :: q.chars, high := none, broken := q.broken || q.high.isSome }

/-- The string extended by an escaped UTF-16 code unit. -/
def pushUnit (q : Quote) (u : Nat) : Quote :=
  if 0xd800 ≤ u ∧ u < 0xdc00 then { q with high := some u, broken := q.broken || q.high.isSome }
  else if 0xdc00 ≤ u ∧ u < 0xe000 then
    match q.high with
    | some h =>
      { q with chars := Char.ofNat (0x10000 + (h - 0xd800) * 0x400 + (u - 0xdc00)) :: q.chars, high := none }
    | none => { q with broken := true }
  else q.push (Char.ofNat u)

/-- The string, unless a surrogate was left alone. -/
def finish (q : Quote) : Option String :=
  if q.broken || q.high.isSome then none else some (String.ofList q.chars.reverse)

end Quote

/-- The character that a single-letter escape stands for. -/
def unescape? (c : Char) : Option Char :=
  if c = '\x22' ∨ c = '\x5c' ∨ c = '/' then some c
  else if c = 'b' then some '\x08'
  else if c = 'f' then some '\x0c'
  else if c = 'n' then some '\n'
  else if c = 'r' then some '\r'
  else if c = 't' then some '\t'
  else none

/-! ### The scanner -/

/-- Where the scanner stands: between tokens, or inside one whose characters are held last first. -/
inductive Position where
  | between
  | word (letters : List Char)
  | number (chars : List Char)
  | string (quote : Quote)
  | escape (quote : Quote)
  | unit (quote : Quote) (digits : List Char)
deriving DecidableEq, Repr

/-- The scanner: its position and the finished tokens, last first. -/
structure Scanner where
  position : Position := .between
  tokens : List Token := []
deriving DecidableEq, Repr

/-- The four blanks of the format. -/
def isSpace (c : Char) : Bool := c = ' ' || c = '\t' || c = '\n' || c = '\r'

/-- The characters that numbers are made of. -/
def inNumber (c : Char) : Bool := c.isDigit || c = '-' || c = '+' || c = '.' || c = 'e' || c = 'E'

/-- The token of a bare word. -/
def word? (letters : List Char) : Option Token :=
  if letters = ['n', 'u', 'l', 'l'] then some .null
  else if letters = ['t', 'r', 'u', 'e'] then some (.bool true)
  else if letters = ['f', 'a', 'l', 's', 'e'] then some (.bool false)
  else none

/-- The token of a mark that stands alone. -/
def mark? (c : Char) : Option Token :=
  if c = '[' then some .beginArray
  else if c = ']' then some .endArray
  else if c = '\x7b' then some .beginObject
  else if c = '\x7d' then some .endObject
  else if c = ',' then some .comma
  else if c = ':' then some .colon
  else none

namespace Scanner

/-- The scanner between tokens, with one more token finished. -/
def emit (s : Scanner) (t : Token) : Scanner := { position := .between, tokens := t :: s.tokens }

/-- The scanner after the character `c` that stands between tokens. -/
def start (s : Scanner) (c : Char) : Option Scanner :=
  if isSpace c then some { s with position := .between }
  else match mark? c with
    | some t => some (s.emit t)
    | none =>
      if c = '\x22' then some { s with position := .string {} }
      else if c.isDigit ∨ c = '-' then some { s with position := .number [c] }
      else if c.isLower then some { s with position := .word [c] }
      else none

/-- The scanner after one more character. -/
def step (s : Scanner) (c : Char) : Option Scanner :=
  match s.position with
  | .between => s.start c
  | .word letters =>
    if c.isLower then some { s with position := .word (c :: letters) }
    else (word? letters.reverse).bind fun t => (s.emit t).start c
  | .number chars =>
    if inNumber c then some { s with position := .number (c :: chars) }
    else (Number.ofChars? chars.reverse).bind fun n => (s.emit (.number n)).start c
  | .string q =>
    if c = '\x22' then some (s.emit (.text q.finish))
    else if c = '\x5c' then some { s with position := .escape q }
    else if c.toNat < 0x20 then none
    else some { s with position := .string (q.push c) }
  | .escape q =>
    if c = 'u' then some { s with position := .unit q [] }
    else (unescape? c).map fun e => { s with position := .string (q.push e) }
  | .unit q digits =>
    (Hex.digit? c).bind fun _ =>
      if digits.length < 3 then some { s with position := .unit q (c :: digits) }
      else (Hex.ofDigits? (c :: digits).reverse).map fun u => { s with position := .string (q.pushUnit u) }

/-- The tokens read when the text ends. -/
def finish (s : Scanner) : Option (List Token) :=
  match s.position with
  | .between => some s.tokens.reverse
  | .word letters => (word? letters.reverse).map fun t => (t :: s.tokens).reverse
  | .number chars => (Number.ofChars? chars.reverse).map fun n => (.number n :: s.tokens).reverse
  | _ => none

end Scanner

/-- The tokens of a text. -/
def tokens? (cs : List Char) : Option (List Token) := (cs.foldlM Scanner.step {}).bind Scanner.finish

end Ia32Wasm.Json
