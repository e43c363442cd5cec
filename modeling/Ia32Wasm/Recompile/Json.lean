import Ia32Wasm.Json.Parser
import Ia32Wasm.Json.Reading
import Ia32Wasm.Recompile

/-!
# Options as JSON

The JSON form of the options and of function imports.  Every option has a default, so that a text
may give only some of them; a function import gives both of its names.
-/

namespace Ia32Wasm

open Json (required? defaulted?)

/-- The JSON form of a function import. -/
def FunctionImport.toJson (f : FunctionImport) : Json :=
  .record [("module", .str f.library), ("name", .str f.name)]

/-- A function import from its JSON form. -/
def FunctionImport.ofJson? (j : Json) : Option FunctionImport := do
  let [library, name] ← j.fields? ["module", "name"] | none
  return ⟨← required? Json.string? library, ← required? Json.string? name⟩

/-- The JSON form of the limits. -/
def Limits.toJson (l : Limits) : Json :=
  .record [("max_chunks", .nat l.maxChunks.toNat), ("max_chunk_instructions", .nat l.maxChunkInstructions.toNat)]

/-- The limits from their JSON form. -/
def Limits.ofJson? (j : Json) : Option Limits := do
  let [chunks, instructions] ← j.settings? ["max_chunks", "max_chunk_instructions"] | none
  let default : Limits := {}
  return {
    maxChunks := ← defaulted? default.maxChunks Json.uint64? chunks
    maxChunkInstructions := ← defaulted? default.maxChunkInstructions Json.uint64? instructions }

/-- The JSON form of the assembly options. -/
def AssemblyOptions.toJson (o : AssemblyOptions) : Json :=
  .record [("debug_hooks", .bool o.debugHooks), ("memory_min_pages", .nat o.minPages.toNat),
    ("memory_max_pages", .opt (fun n => .nat n.toNat) o.maxPages)]

/-- The assembly options from their JSON form. -/
def AssemblyOptions.ofJson? (j : Json) : Option AssemblyOptions := do
  let [hooks, minPages, maxPages] ← j.settings? ["debug_hooks", "memory_min_pages", "memory_max_pages"] | none
  let default : AssemblyOptions := {}
  return {
    debugHooks := ← defaulted? default.debugHooks Json.bool? hooks
    minPages := ← defaulted? default.minPages Json.uint32? minPages
    maxPages := ← defaulted? default.maxPages (Json.nullable? Json.uint32?) maxPages }

/-- The JSON form of the options. -/
def Options.toJson (o : Options) : Json :=
  .record [("limits", o.limits.toJson), ("assemble", o.assembly.toJson),
    ("extra_entries", .list (fun a => .nat a.toNat) o.extraEntries)]

/-- The options from their JSON form. -/
def Options.ofJson? (j : Json) : Option Options := do
  let [limits, assembly, entries] ← j.settings? ["limits", "assemble", "extra_entries"] | none
  return {
    limits := ← defaulted? {} Limits.ofJson? limits
    assembly := ← defaulted? {} AssemblyOptions.ofJson? assembly
    extraEntries := ← defaulted? [] (Json.list? Json.uint32?) entries }

/-- The options that a JSON text gives. -/
def Options.parse? (text : String) : Option Options := (Json.parse? text).bind ofJson?

end Ia32Wasm
