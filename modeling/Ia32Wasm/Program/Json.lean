import Ia32Wasm.Program.Basic
import Ia32Wasm.X86.Json

/-!
# Programs as JSON

The JSON form of a program and of its parts.  A set of targets is an array, which is written in
ascending order and read in any.
-/

namespace Ia32Wasm

open Json (required?)
open X86 (Instruction)

/-- The JSON form of a range. -/
def AddressRange.toJson (r : AddressRange) : Json :=
  .record [("start", .nat r.start.toNat), ("end", .nat r.stop.toNat)]

/-- A range from its JSON form. -/
def AddressRange.ofJson? (j : Json) : Option AddressRange := do
  let [start, stop] ← j.fields? ["start", "end"] | none
  return ⟨← required? Json.uint32? start, ← required? Json.uint32? stop⟩

/-- The JSON form of a set of indices. -/
def IndexSet.toJson (s : IndexSet) : Json := .list (fun x => .nat x.toNat) s.toList

/-- A set of indices from its JSON form. -/
def IndexSet.ofJson? (j : Json) : Option IndexSet := (j.list? Json.uint32?).map ofList

/-- The JSON form of a chunk. -/
def Chunk.toJson (c : Chunk) : Json :=
  .record [("id", .nat c.id.toNat), ("name", .str c.name), ("entry", .nat c.entry.toNat),
    ("instructions", .list Instruction.toJson c.instructions),
    ("covered_ranges", .list AddressRange.toJson c.ranges), ("branch_targets", c.targets.toJson)]

/-- A chunk from its JSON form, which stands inside `outer` containers. -/
def Chunk.ofJson? (outer : Nat) (j : Json) : Option Chunk := do
  let [id, name, entry, instructions, ranges, targets] ←
    j.fields? ["id", "name", "entry", "instructions", "covered_ranges", "branch_targets"] | none
  return {
    id := ← required? Json.uint32? id
    name := ← required? Json.string? name
    entry := ← required? Json.uint32? entry
    instructions := ← required? (Json.list? (Instruction.ofJson? (outer + 2))) instructions
    ranges := ← required? (Json.list? AddressRange.ofJson?) ranges
    targets := ← required? IndexSet.ofJson? targets }

/-- The JSON form of a program. -/
def Program.toJson (p : Program) : Json :=
  .record [("chunks", .list Chunk.toJson p.chunks), ("pending", .list (fun a => .nat a.toNat) p.pending),
    ("covered", .list AddressRange.toJson p.covered), ("resolved", .bool p.resolved)]

/-- A program from its JSON form. -/
def Program.ofJson? (j : Json) : Option Program := do
  let [chunks, pending, covered, resolved] ← j.fields? ["chunks", "pending", "covered", "resolved"] | none
  return {
    chunks := ← required? (Json.list? (Chunk.ofJson? 2)) chunks
    pending := ← required? (Json.list? Json.uint32?) pending
    covered := ← required? (Json.list? AddressRange.ofJson?) covered
    resolved := ← required? Json.bool? resolved }

end Ia32Wasm
