import Ia32Wasm.Assembly.Chunk
import Ia32Wasm.Program.Discovery
import Ia32Wasm.Program.Listing
import Ia32Wasm.Program.Resolution

/-!
# Recompilation

An image is recompiled in three stages: its code is discovered, its branches are resolved, and each
chunk is assembled into a module.
-/

namespace Ia32Wasm

/-- The options of a recompilation; the extra entries are visited after the entry point of the image. -/
structure Options where
  limits : Limits := {}
  assembly : AssemblyOptions := {}
  extraEntries : List UInt32 := []
deriving DecidableEq, Repr

/-- Why an image could not be recompiled. -/
inductive RecompileError where
  | discovery (error : DiscoveryError)
  | resolution (error : ResolutionError)
  | program (error : AssemblyError)
  | assembly (chunk : String) (error : AssemblyError)
deriving DecidableEq, Repr

/-- The message of an error. -/
def RecompileError.message : RecompileError → String
  | .discovery error => "chunk discovery failed: " ++ error.message
  | .resolution error => "reference fixup failed: " ++ error.message
  | .program error => error.message
  | .assembly chunk error => "assembling " ++ chunk ++ " failed: " ++ error.message

/-- A resolved program and the module of each of its chunks. -/
structure Recompiled where
  program : Program
  modules : List Assembled
deriving DecidableEq

namespace Options

/-- The program reachable from the entry point of an image and from the extra entries. -/
def discover (o : Options) (image : Image) : Except RecompileError Program :=
  (Program.discover image (image.entry :: o.extraEntries) o.limits).mapError .discovery

/-- The discovered program of an image with every branch resolved. -/
def resolve (o : Options) (image : Image) : Except RecompileError Program := do
  let program ← o.discover image
  match program.resolve image with
  | (program, none) => return program
  | (_, some error) => throw (.resolution error)

/-- The modules of a resolved program. -/
def assemble (o : Options) (program : Program) : Except RecompileError (List Assembled) :=
  if program.resolved then
    program.chunks.mapM fun chunk => (chunk.assemble o.assembly).mapError (.assembly chunk.name)
  else .error (.program .unresolvedProgram)

/-- The recompiled image. -/
def recompile (o : Options) (image : Image) : Except RecompileError Recompiled := do
  let program ← o.resolve image
  return { program, modules := ← o.assemble program }

end Options

end Ia32Wasm
