import Ia32Wasm.Json.Magnitude

/-!
# Reading values out of JSON

Readers of the scalar kinds, of lists and of records.  A record is an object, whose unknown keys are
passed over and whose known keys come at most once, or an array of all its fields in order.  Nothing
is converted: a number is not a string, a string is not a Boolean, and an integer field takes no
fraction, no exponent and no value out of its range.
-/

namespace Ia32Wasm.Json

/-! ### Scalars and lists -/

/-- The string of a text. -/
def string? : Json → Option String
  | .text s => s
  | _ => none

/-- The value of a Boolean. -/
def bool? : Json → Option Bool
  | .bool b => some b
  | _ => none

/-- The value of an integer. -/
def int? : Json → Option Int
  | .number (.int n) => some n
  | _ => none

/-- The value of an integer from `0` to `2 ^ bits - 1`. -/
def unsigned? (bits : Nat) (j : Json) : Option Nat :=
  j.int?.bind fun n => if 0 ≤ n ∧ n.toNat < 1 <<< bits then some n.toNat else none

/-- The value of an integer from `-2 ^ (bits - 1)` to `2 ^ (bits - 1) - 1`. -/
def signed? (bits : Nat) (j : Json) : Option Int :=
  let bound := Int.ofNat (1 <<< (bits - 1))
  j.int?.filter fun n => -bound ≤ n ∧ n < bound

/-- The value of an 8-bit integer. -/
def uint8? (j : Json) : Option UInt8 := (j.unsigned? 8).map UInt8.ofNat

/-- The value of a 16-bit integer. -/
def uint16? (j : Json) : Option UInt16 := (j.unsigned? 16).map UInt16.ofNat

/-- The value of a 32-bit integer. -/
def uint32? (j : Json) : Option UInt32 := (j.unsigned? 32).map UInt32.ofNat

/-- The value of a 64-bit integer. -/
def uint64? (j : Json) : Option UInt64 := (j.unsigned? 64).map UInt64.ofNat

/-- The value of a signed 32-bit integer. -/
def int32? (j : Json) : Option Int32 := (j.signed? 32).map Int32.ofInt

/-- The value of a signed 64-bit integer. -/
def int64? (j : Json) : Option Int64 := (j.signed? 64).map Int64.ofInt

/-- The items of an array. -/
def list? {α : Type} (f : Json → Option α) : Json → Option (List α)
  | .array items => items.mapM f
  | _ => none

/-- A value, or nothing for `null`. -/
def nullable? {α : Type} (f : Json → Option α) : Json → Option (Option α)
  | .null => some none
  | j => (f j).map some

/-- The name of an alternative without contents, as a text or as the only key of an object that
holds `null`. -/
def variant? : Json → Option String
  | .text s => s
  | .object [(some name, .null)] => some name
  | _ => none

/-! ### Records -/

/-- The members of an object all of whose keys have a string. -/
def members? (members : List (Option String × Json)) : Option (List (String × Json)) :=
  members.mapM fun (key, value) => key.map (·, value)

/-- The value under a key that comes at most once. -/
def once? (members : List (String × Json)) (name : String) : Option (Option Json) :=
  match members.filter fun member => member.1 = name with
  | [] => some none
  | [(_, value)] => some (some value)
  | _ => none

/-- The fields of a record with the given names, each as its value if present. -/
def fields? (names : List String) : Json → Option (List (Option Json))
  | .object members => (members? members).bind fun ms => names.mapM (once? ms)
  | .array items => if items.length = names.length then some (items.map some) else none
  | _ => none

/-- The fields of a record all of whose fields have defaults, so that an array may be shorter. -/
def settings? (names : List String) : Json → Option (List (Option Json))
  | .array items =>
    if items.length ≤ names.length then
      some (items.map some ++ List.replicate (names.length - items.length) none)
    else none
  | j => j.fields? names

/-- A field that has to be present. -/
def required? {α : Type} (f : Json → Option α) (field : Option Json) : Option α := field.bind f

/-- A field that may be absent or `null`. -/
def optional? {α : Type} (f : Json → Option α) : Option Json → Option (Option α)
  | none => some none
  | some j => j.nullable? f

/-- A field that takes a default when it is absent. -/
def defaulted? {α : Type} (default : α) (f : Json → Option α) : Option Json → Option α
  | none => some default
  | some j => f j

/-! ### Values held whole -/

mutual

/-- The value can be held in memory: its texts and keys have strings, its numbers are finite, and
its containers nest at most `room` deep. -/
def isHoldable (room : Nat) : Json → Bool
  | .null | .bool _ => true
  | .number n => n.isFinite
  | .text s => s.isSome
  | .array items => 0 < room && areHoldable (room - 1) items
  | .object members => 0 < room && areMembersHoldable (room - 1) members

/-- Every item of a list can be held in memory. -/
def areHoldable (room : Nat) : List Json → Bool
  | [] => true
  | item :: rest => item.isHoldable room && areHoldable room rest

/-- Every member of an object can be held in memory. -/
def areMembersHoldable (room : Nat) : List (Option String × Json) → Bool
  | [] => true
  | (key, value) :: rest => key.isSome && value.isHoldable room && areMembersHoldable room rest

end

end Ia32Wasm.Json
