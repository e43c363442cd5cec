import Ia32Wasm.Json.Reading
import Ia32Wasm.Machine.State

/-!
# Machine states as JSON

The JSON form of a machine state.  The flags are a text, and the registers and segments are arrays
of exactly eight and six words.
-/

namespace Ia32Wasm.Machine

open Json (required?)

/-- The JSON form of a set of flags. -/
def Flags.toJson (f : Flags) : Json := .str f.text

/-- A set of flags from its JSON form. -/
def Flags.ofJson? (j : Json) : Option Flags :=
  (j.string?.bind (names.parse? 32)).map fun bits => ⟨UInt32.ofNat bits⟩

/-- A vector of words from an array of exactly as many. -/
def words? (n : Nat) (j : Json) : Option (Vector UInt32 n) :=
  (j.list? Json.uint32?).bind fun ws =>
    if h : ws.length = n then some ⟨ws.toArray, by simpa using h⟩ else none

/-- The JSON form of a vector of words. -/
def wordsJson {n : Nat} (ws : Vector UInt32 n) : Json := .list (fun w => .nat w.toNat) ws.toList

/-- The JSON form of a machine state. -/
def State.toJson (s : State) : Json :=
  .record [("gpr", wordsJson s.registers), ("flags", s.flags.toJson), ("segments", wordsJson s.segments),
    ("link", .nat s.link.toNat), ("t1", .nat s.t1.toNat), ("t2", .nat s.t2.toNat)]

/-- A machine state from its JSON form. -/
def State.ofJson? (j : Json) : Option State := do
  let [registers, flags, segments, link, t1, t2] ←
    j.fields? ["gpr", "flags", "segments", "link", "t1", "t2"] | none
  return {
    registers := ← required? (words? 8) registers
    flags := ← required? Flags.ofJson? flags
    segments := ← required? (words? 6) segments
    link := ← required? Json.uint32? link
    t1 := ← required? Json.uint32? t1
    t2 := ← required? Json.uint32? t2 }

end Ia32Wasm.Machine
