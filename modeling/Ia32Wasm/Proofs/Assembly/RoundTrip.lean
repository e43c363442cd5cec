import Ia32Wasm.Proofs.Assembly.Validity
import Ia32Wasm.Proofs.Wasm.Reading
import Ia32Wasm.Recompile

/-!
# Assembled modules read back

The bytes of an assembled chunk are the binary form of a module with the expected type, imports, export and function,
and the code of the function is the code of the chunk (`Chunk.read?_of_assemble`).  That holds whatever registers the
operands name: with a global for each register number the code is valid, and valid code is readable.
-/

namespace Ia32Wasm

open Lowering (Named context)
open Wasm (validate)
open Wasm.Binary (Contents Imported)

/-- With as many globals as there are register numbers, every register has one. -/
private theorem Lowering.named_of_wide (op : X86.Operand) : Named 232 op := by
  cases op with
  | register index _ _ _ => exact index.toNat_lt
  | _ => trivial

variable {o : AssemblyOptions} {code : Code}

private theorem readable_assembleCode {more : Nat} (hmore : (context more).globals ≤ 2 ^ 32)
    (hcode : validate (context more) code [.opened .function] = some [.opened .function])
    (hfits : (assembleCode o code).wasm.Fits) : Wasm.Readable (assembleCode o code).wasm.body := by
  have hindex := Wasm.Module.functionIndex_lt hfits
  rw [functionIndex_assembleCode] at hindex
  refine Wasm.readable_of_validate ?_ ?_ (fun index hcallable => ?_) (Wasm.Module.length_body_lt hfits)
    (validate_link hcode)
  · exact (by decide : 5 ≤ 2 ^ 32)
  · exact hmore
  · exact Nat.lt_of_le_of_lt (of_decide_eq_true hcallable) hindex

/-- What a module with the given code is read as. -/
private theorem ofModule_assembleCode (o : AssemblyOptions) (code : Code) :
    Contents.ofModule (assembleCode o code).wasm = {
      types := [⟨[], []⟩]
      imports :=
        ⟨"env", "memory", .memory o.minPages.toNat (o.maxPages.map (·.toNat))⟩ ::
        ["eax", "ecx", "edx", "ebx", "esp", "ebp", "esi", "edi", "cf", "pf", "af", "zf", "sf", "df", "of", "link",
          "t1", "t2"].map (⟨"registers", ·, .global .i32 true⟩) ++
        ["es", "cs", "ss", "ds", "fs", "gs"].map (⟨"segments", ·, .global .i32 true⟩) ++
        ["debugger", "indirectDispatch", "interrupt"].map (⟨"system", ·, .function 0⟩) ++
        (assembleCode o code).imports.map fun f => ⟨f.library, f.name, .function 0⟩
      functions := [0]
      exports := [⟨"entry", .functions, 3 + (assembleCode o code).imports.length⟩]
      bodies := [⟨[(4, .i32), (1, .i64)], (assembleCode o code).wasm.body⟩] } := by
  have hindex : (assembleCode o code).wasm.functionIndex = 3 + (assembleCode o code).imports.length :=
    functionIndex_assembleCode o code
  have hslots : slotImports.map Imported.ofImport =
      ["eax", "ecx", "edx", "ebx", "esp", "ebp", "esi", "edi", "cf", "pf", "af", "zf", "sf", "df", "of", "link",
        "t1", "t2"].map (⟨"registers", ·, .global .i32 true⟩) ++
      ["es", "cs", "ss", "ds", "fs", "gs"].map (⟨"segments", ·, .global .i32 true⟩) := rfl
  have hhooks : hookImports.map Imported.ofImport =
      ["debugger", "indirectDispatch", "interrupt"].map (⟨"system", ·, .function 0⟩) := rfl
  have himports : ((assembleCode o code).imports.map FunctionImport.toImport).map Imported.ofImport =
      (assembleCode o code).imports.map fun f => ⟨f.library, f.name, .function 0⟩ := List.map_map
  have hall : (assembleCode o code).wasm.imports.map Imported.ofImport =
      .ofImport (memoryImport o) :: (slotImports.map Imported.ofImport ++ hookImports.map Imported.ofImport ++
        ((assembleCode o code).imports.map FunctionImport.toImport).map Imported.ofImport) := by
    rw [← List.map_append, ← List.map_append]
    rfl
  rw [Contents.ofModule, hindex, hall, hslots, hhooks, himports]
  rfl

namespace Chunk

/-- In every edition that has the instructions of its code, an assembled chunk reads as its module. -/
private theorem read?_eq_ofModule {c : Chunk} {a : Assembled} (h : c.assemble o = .ok a) (e : Wasm.Binary.Edition) :
    Wasm.Binary.read? e a.bytes =
      if a.wasm.Fits ∧ a.wasm.body.all e.knows then some (.ofModule a.wasm) else none := by
  obtain ⟨-, hlowered, rfl⟩ := of_assemble h
  have hvalid : validate (context 232) (c.body o) [.opened .function] = some [.opened .function] :=
    validate_body_of_named hlowered fun _ _ op _ => Lowering.named_of_wide op
  exact Wasm.Binary.read?_encode e (readable_assembleCode (by decide) hvalid)

/-- The bytes of an assembled chunk are the binary form of a module with the type from nothing to nothing, the imports
of memory with the bounds that were asked for, of the slots, of the hooks and of the functions that the code calls,
one function whose code is that of the chunk, and its export.  They are so in WebAssembly 1.0 with the sign
extensions, and in WebAssembly 1.0 alone exactly if the code does not extend by the sign.  If a section is so large
that its size has more than 32 bits, the bytes are no module; that takes four gibibytes at least. -/
theorem read?_of_assemble {c : Chunk} {a : Assembled} (h : c.assemble o = .ok a) :
    (a.bytes.length < 2 ^ 32 → a.wasm.Fits) ∧ a.wasm.body = link a.imports (c.body o) ∧
      a.wasm.body.all Wasm.Binary.Edition.signExtending.knows = true ∧
      ∀ e, Wasm.Binary.read? e a.bytes = if a.wasm.Fits ∧ a.wasm.body.all e.knows then some {
        types := [⟨[], []⟩]
        imports :=
          ⟨"env", "memory", .memory o.minPages.toNat (o.maxPages.map (·.toNat))⟩ ::
          ["eax", "ecx", "edx", "ebx", "esp", "ebp", "esi", "edi", "cf", "pf", "af", "zf", "sf", "df", "of", "link",
            "t1", "t2"].map (⟨"registers", ·, .global .i32 true⟩) ++
          ["es", "cs", "ss", "ds", "fs", "gs"].map (⟨"segments", ·, .global .i32 true⟩) ++
          ["debugger", "indirectDispatch", "interrupt"].map (⟨"system", ·, .function 0⟩) ++
          a.imports.map fun f => ⟨f.library, f.name, .function 0⟩
        functions := [0]
        exports := [⟨"entry", .functions, 3 + a.imports.length⟩]
        bodies := [⟨[(4, .i32), (1, .i64)], a.wasm.body⟩] } else none := by
  refine ⟨Wasm.Module.fits_of_length, body_of_assemble h, by simp, fun e => ?_⟩
  rw [read?_eq_ofModule h e]
  obtain ⟨-, -, rfl⟩ := of_assemble h
  rw [ofModule_assembleCode]

/-- A chunk that calls a function whose names are not ASCII, exchanges in memory, moves the least constant to a
register that there is not, and has a target beyond its last instruction. -/
def polyglot : Chunk where
  id := 0
  name := nameOf 0x1000
  entry := 0x1000
  instructions := [
    ⟨{}, 0xff, .importCall, [.symbol "größe::π"], 0x1000, 0x1006⟩,
    ⟨{}, 0x0fb0, .cmpxchg, [.scaledIndex (some 0) (some 3) 4 (some 8) .bits8 true, .reg 5 .bits8], 0x1006, 0x100b⟩,
    ⟨{}, 0xb8, .mov, [.reg 200 .bits32, .imm (-0x80000000) .bits32], 0x100b, 0x1010⟩,
    ⟨{}, 0x75, .jumpIf .ne, X86.Instruction.destinationOperands (.inside 1), 0x1010, 0x1012⟩]
  ranges := [⟨0x1000, 0x1012⟩]
  targets := .ofList [1, 9]

/-- In both editions names that are not ASCII are read back, and the export is behind three hooks and one import. -/
theorem read?_polyglot : ∃ a, polyglot.assemble ⟨true, 1, some 2⟩ = .ok a ∧ a.wasm.Fits ∧ ∀ e,
    (Wasm.Binary.read? e a.bytes).map (fun m => (m.imports.getLast?, m.exports)) =
      some (some ⟨"größe", "π", .function 0⟩, [⟨"entry", .functions, 4⟩]) := by
  have hassemble : polyglot.assemble ⟨true, 1, some 2⟩ =
      .ok (assembleCode ⟨true, 1, some 2⟩ (polyglot.body ⟨true, 1, some 2⟩)) :=
    assemble_of_isOk (by decide +kernel)
  have hfits : (assembleCode ⟨true, 1, some 2⟩ (polyglot.body ⟨true, 1, some 2⟩)).wasm.Fits := by decide +kernel
  have hknown : ∀ e : Wasm.Binary.Edition,
      (assembleCode ⟨true, 1, some 2⟩ (polyglot.body ⟨true, 1, some 2⟩)).wasm.body.all e.knows = true := by
    intro e
    cases e <;> decide +kernel
  obtain ⟨-, -, -, hread⟩ := read?_of_assemble hassemble
  refine ⟨_, hassemble, hfits, fun e => ?_⟩
  rw [hread e, if_pos ⟨hfits, hknown e⟩]
  rfl

/-- The chunk of a function that extends a byte to a word by its sign and returns. -/
def widening : Chunk where
  id := 0
  name := nameOf 0x1000
  entry := 0x1000
  instructions := [
    ⟨{}, 0x0fbe, .widen true, [.reg 0 .bits32, .reg 1 .bits8], 0x1000, 0x1003⟩,
    ⟨{}, 0xc3, .ret, [], 0x1003, 0x1004⟩]
  ranges := [⟨0x1000, 0x1004⟩]
  targets := .ofList []

/-- The module of that function is none of WebAssembly 1.0, whose opcodes end before those of the sign extensions. -/
theorem read?_widening : ∃ a, widening.assemble {} = .ok a ∧
    ((Options.recompile {} (.flat 0x1000 [0x0f, 0xbe, 0xc1, 0xc3])).toOption.map Recompiled.modules) = some [a] ∧
    a.bytes.length = 528 ∧ Wasm.Binary.read? .core a.bytes = none ∧
    Wasm.Binary.read? .signExtending a.bytes = some (.ofModule a.wasm) := by
  have hassemble : widening.assemble {} = .ok (assembleCode {} (widening.body {})) :=
    assemble_of_isOk (by decide +kernel)
  have hfits : (assembleCode {} (widening.body {})).wasm.Fits := by decide +kernel
  have hcore : ¬ (assembleCode {} (widening.body {})).wasm.body.all Wasm.Binary.Edition.core.knows := by
    decide +kernel
  have hknown : (assembleCode {} (widening.body {})).wasm.body.all Wasm.Binary.Edition.signExtending.knows := by
    decide +kernel
  refine ⟨_, hassemble, by decide +kernel, by decide +kernel, ?_, ?_⟩
  · rw [read?_eq_ofModule hassemble, if_neg fun h => hcore h.2]
  · rw [read?_eq_ofModule hassemble, if_pos ⟨hfits, hknown⟩]

end Chunk

end Ia32Wasm
