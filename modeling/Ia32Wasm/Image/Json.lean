import Ia32Wasm.Image.Basic
import Ia32Wasm.Json.Reading

/-!
# Images as JSON

The JSON form of an image and of its parts.  The buffer is an array of byte numbers.
-/

namespace Ia32Wasm

open Json (required? optional?)

/-- The JSON form of a section. -/
def Section.toJson (s : Section) : Json :=
  .record [("addr_start", .nat s.start.toNat), ("addr_end", .nat s.stop.toNat),
    ("file_offset", .nat s.offset.toNat)]

/-- A section from its JSON form. -/
def Section.ofJson? (j : Json) : Option Section := do
  let [start, stop, offset] ← j.fields? ["addr_start", "addr_end", "file_offset"] | none
  return ⟨← required? Json.uint32? start, ← required? Json.uint32? stop, ← required? Json.uint32? offset⟩

/-- The JSON form of an imported function. -/
def ImportEntry.toJson (e : ImportEntry) : Json :=
  .record [("hint_or_ordinal", .nat e.ordinal.toNat), ("name", .opt Json.str e.name),
    ("thunk_address", .nat e.thunk.toNat)]

/-- An imported function from its JSON form. -/
def ImportEntry.ofJson? (j : Json) : Option ImportEntry := do
  let [ordinal, name, thunk] ← j.fields? ["hint_or_ordinal", "name", "thunk_address"] | none
  return ⟨← required? Json.uint16? ordinal, ← optional? Json.string? name, ← required? Json.uint32? thunk⟩

/-- The JSON form of the functions of a library. -/
def ImportLibrary.toJson (l : ImportLibrary) : Json :=
  .record [("dll_name", .str l.name), ("entries", .list ImportEntry.toJson l.entries)]

/-- The functions of a library from their JSON form. -/
def ImportLibrary.ofJson? (j : Json) : Option ImportLibrary := do
  let [name, entries] ← j.fields? ["dll_name", "entries"] | none
  return ⟨← required? Json.string? name, ← required? (Json.list? ImportEntry.ofJson?) entries⟩

/-- The JSON form of the imported functions. -/
def ImportTable.toJson (t : ImportTable) : Json :=
  .record [("modules", .list ImportLibrary.toJson t.libraries)]

/-- The imported functions from their JSON form. -/
def ImportTable.ofJson? (j : Json) : Option ImportTable := do
  let [libraries] ← j.fields? ["modules"] | none
  return ⟨← required? (Json.list? ImportLibrary.ofJson?) libraries⟩

/-- The JSON form of an image. -/
def Image.toJson (i : Image) : Json :=
  .record [("buffer", .list (fun b => .nat b.toNat) i.buffer), ("sections", .list Section.toJson i.sections),
    ("entry", .nat i.entry.toNat), ("imports", i.imports.toJson)]

/-- An image from its JSON form. -/
def Image.ofJson? (j : Json) : Option Image := do
  let [buffer, sections, entry, imports] ← j.fields? ["buffer", "sections", "entry", "imports"] | none
  return {
    buffer := ← required? (Json.list? Json.uint8?) buffer
    sections := ← required? (Json.list? Section.ofJson?) sections
    entry := ← required? Json.uint32? entry
    imports := ← required? ImportTable.ofJson? imports }

end Ia32Wasm
