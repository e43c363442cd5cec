import Ia32Wasm.Json.Token

/-!
# Reading JSON

Tokens are read into a value from left to right.  The arrays and objects that are still open are
held in a list of frames, innermost first, so nesting has no bound and every token is one step.
-/

namespace Ia32Wasm.Json

/-- A container part way through: what it holds so far, last first, and for an object the key of the
next value. -/
inductive Frame where
  | array (items : List Json)
  | object (members : List (Option String × Json)) (key : Option String)

/-- What may come next: a value, a value or the end of an empty array, a key, a key or the end of an
empty object, the colon after a key, or what follows a finished value. -/
inductive Phase where
  | value
  | firstItem
  | key (members : List (Option String × Json))
  | firstKey
  | colon (members : List (Option String × Json)) (key : Option String)
  | after (value : Json)

/-- The reader: its phase and the open containers, innermost first. -/
structure Reader where
  phase : Phase := .value
  frames : List Frame := []

namespace Reader

/-- The reader after a token that starts a value. -/
def begin? (r : Reader) : Token → Option Reader
  | .null => some { r with phase := .after .null }
  | .bool b => some { r with phase := .after (.bool b) }
  | .number n => some { r with phase := .after (.number n) }
  | .text s => some { r with phase := .after (.text s) }
  | .beginArray => some { r with phase := .firstItem }
  | .beginObject => some { r with phase := .firstKey }
  | _ => none

/-- The reader after one more token. -/
def step (r : Reader) (t : Token) : Option Reader :=
  match r.phase with
  | .value => r.begin? t
  | .firstItem =>
    if t = .endArray then some { r with phase := .after (.array []) }
    else { r with frames := .array [] :: r.frames }.begin? t
  | .key members =>
    match t with
    | .text key => some { r with phase := .colon members key }
    | _ => none
  | .firstKey =>
    match t with
    | .text key => some { r with phase := .colon [] key }
    | .endObject => some { r with phase := .after (.object []) }
    | _ => none
  | .colon members key =>
    if t = .colon then some { phase := .value, frames := .object members key :: r.frames } else none
  | .after v =>
    match r.frames, t with
    | .array items :: frames, .comma => some { phase := .value, frames := .array (v :: items) :: frames }
    | .array items :: frames, .endArray => some { phase := .after (.array (v :: items).reverse), frames }
    | .object members key :: frames, .comma => some { phase := .key ((key, v) :: members), frames }
    | .object members key :: frames, .endObject =>
      some { phase := .after (.object ((key, v) :: members).reverse), frames }
    | _, _ => none

/-- The value read when the tokens end. -/
def finish (r : Reader) : Option Json :=
  match r.phase, r.frames with
  | .after v, [] => some v
  | _, _ => none

end Reader

/-- The value of a list of tokens. -/
def ofTokens? (ts : List Token) : Option Json := (ts.foldlM Reader.step {}).bind Reader.finish

/-- The value of a text. -/
def parse? (text : String) : Option Json := (tokens? text.toList).bind ofTokens?

end Ia32Wasm.Json
