import Ia32Wasm.Lowering.Instruction
import Ia32Wasm.Wasm.Module

/-!
# Assembled modules

The options and the errors of assembly, and what it results in.  A module imports memory, the slots
of the machine, the hooks and the functions that its code calls, and exports one function.
-/

namespace Ia32Wasm

open Machine (Slot)
open X86 (Mnemonic)

/-- How chunks are assembled: whether every instruction is reported to the debugger, and the bounds
on the number of memory pages. -/
structure AssemblyOptions where
  debugHooks : Bool := false
  minPages : UInt32 := 1
  maxPages : Option UInt32 := none
deriving DecidableEq, Repr

/-- Why a chunk could not be assembled. -/
inductive AssemblyError where
  | unsupportedInstruction (mnemonic : Mnemonic) (address : UInt32)
  | unresolvedProgram
  | invalidMemoryLimits (minPages : UInt32) (maxPages : Option UInt32)
deriving DecidableEq, Repr

/-- The message of an error. -/
def AssemblyError.message : AssemblyError → String
  | .unsupportedInstruction mnemonic address =>
    "cannot assemble " ++ mnemonic.name ++ " at " ++ Hex.address address
  | .unresolvedProgram => "program has not been through reference fixup"
  | .invalidMemoryLimits minPages maxPages =>
    let bound := match maxPages with
      | none => "None"
      | some n => "Some(" ++ toString n.toNat ++ ")"
    "invalid env.memory limits: min " ++ toString minPages.toNat ++ " pages, max " ++ bound ++ " pages"

/-- The largest number of memory pages. -/
def pageLimit : UInt32 := 65536

/-- The bounds on memory are in order. -/
def AssemblyOptions.validMemory (o : AssemblyOptions) : Bool :=
  let bound := o.maxPages.getD pageLimit
  o.minPages ≤ bound && bound ≤ pageLimit

/-- An assembled chunk: its module and the functions that the module imports besides the hooks. -/
structure Assembled where
  imports : List FunctionImport
  wasm : Wasm.Module
deriving DecidableEq, Repr

/-- The binary form of an assembled chunk. -/
def Assembled.bytes (a : Assembled) : List UInt8 := a.wasm.encode

/-! ### Modules -/

/-- The import of memory. -/
def memoryImport (o : AssemblyOptions) : Wasm.Import := ⟨"env", "memory", .memory o.minPages o.maxPages⟩

/-- The imports of the slots. -/
def slotImports : List Wasm.Import := Slot.all.map fun slot => ⟨slot.library, slot.name, .global⟩

/-- The imports of the hooks. -/
def hookImports : List Wasm.Import := Hook.all.map fun hook => ⟨"system", hook.name, .function⟩

/-- The import of a function. -/
def FunctionImport.toImport (f : FunctionImport) : Wasm.Import := ⟨f.library, f.name, .function⟩

/-- The module whose code calls the hooks and the given functions by their indices. -/
def Assembled.ofBody (o : AssemblyOptions) (imports : List FunctionImport) (body : List (Wasm.Instr Nat)) :
    Assembled where
  imports
  wasm := {
    imports := memoryImport o :: slotImports ++ hookImports ++ imports.map FunctionImport.toImport
    exportName := Lowering.entryName
    body }

end Ia32Wasm
