import Ia32Wasm.Image.Basic
import Ia32Wasm.Program.Basic

/-!
# Resolution

Every branch of a discovered program gets a target of a kind that code can be made for: an imported
function, an instruction of its own chunk, an instruction of another chunk, or whatever address is
found at run time.  The branches are taken in order, each in the program as the ones before it have
left it, and when one cannot be resolved the program stays as it is by then.
-/

namespace Ia32Wasm

open X86 (Instruction Mnemonic Operand Destination)

/-- Why the branch at an address could not be resolved. -/
inductive ResolutionError where
  | unresolvedImport (address : UInt32)
  | unresolvedBranch (address target : UInt32)
  | misalignedBranch (address target : UInt32)
  | pointerIntoChunk (address target : UInt32)
deriving DecidableEq, Repr

/-- The message of an error. -/
def ResolutionError.message : ResolutionError → String
  | .unresolvedImport address =>
    "branch at " ++ Hex.address address ++ " reads a pointer that matches no import thunk"
  | .unresolvedBranch address target =>
    "branch at " ++ Hex.address address ++ " targets " ++ Hex.address target ++
      ", which no chunk covers"
  | .misalignedBranch address target =>
    "branch at " ++ Hex.address address ++ " targets " ++ Hex.address target ++
      ", which is not an instruction boundary"
  | .pointerIntoChunk address target =>
    "branch at " ++ Hex.address address ++ " reads a code pointer " ++ Hex.address target ++ " from memory"

/-- What becomes of a branch. -/
inductive Resolution where
  | imported (symbol : String)
  | direct (destination : Destination)
  | dynamic (mnemonic : Mnemonic)
deriving DecidableEq, Repr

namespace Program

/-- The resolution of a branch through the pointer at a constant address: it has to be the slot of
an import. -/
def resolvePointer (p : Program) (image : Image) (i : Instruction) (pointer : UInt32) :
    Except ResolutionError Resolution :=
  match image.word? pointer with
  | none => .error (.unresolvedImport i.address)
  | some value =>
    match image.imports.symbol? value with
    | some symbol => .ok (.imported symbol)
    | none =>
      if (p.chunkCovering? value).isSome then .error (.pointerIntoChunk i.address value)
      else .error (.unresolvedImport i.address)

/-- The resolution of a branch to an address: an instruction of its own chunk if there is one, and
else of the first chunk that covers the address. -/
def resolveTarget (p : Program) (chunk : Chunk) (i : Instruction) (target : UInt32) :
    Except ResolutionError Resolution :=
  match chunk.indexOf? target with
  | some index => .ok (.direct (.inside index))
  | none =>
    match p.chunkCovering? target with
    | none => .error (.unresolvedBranch i.address target)
    | some owner =>
      match owner.indexOf? target with
      | none => .error (.misalignedBranch i.address target)
      | some index => .ok (.direct (.across owner.id index))

/-- The resolution of an instruction of `chunk`, if it is a branch that needs one. -/
def resolution? (p : Program) (image : Image) (chunk : Chunk) (i : Instruction) :
    Except ResolutionError (Option Resolution) :=
  if i.mnemonic.isBranch then
    match i.operands.head?.bind Operand.pointer? with
    | some pointer => (p.resolvePointer image i pointer).map some
    | none =>
      match i.relativeTarget? with
      | some target => (p.resolveTarget chunk i target).map some
      | none => .ok (i.mnemonic.dynamic?.map .dynamic)
  else .ok none

end Program

/-- A branch with its resolution. -/
def Resolution.applyTo (r : Resolution) (i : Instruction) : Instruction :=
  match r with
  | .imported symbol =>
    { i with
      mnemonic := if i.mnemonic = .jump then .importJump else .importCall
      operands := [.symbol symbol] }
  | .direct destination => i.withDestination destination
  | .dynamic mnemonic =>
    match i.farTarget? with
    | some offset => { i with mnemonic, operands := [Instruction.indexOperand offset] }
    | none => { i with mnemonic }

/-- The chunk with one more target. -/
def Chunk.addTarget (c : Chunk) (index : UInt32) : Chunk := { c with targets := c.targets.insert index }

namespace Program

/-- The program with one chunk changed. -/
def modifyChunk (p : Program) (position : Nat) (f : Chunk → Chunk) : Program :=
  { p with chunks := p.chunks.modify position f }

/-- The program with one instruction of one chunk changed. -/
def modifyInstruction (p : Program) (position index : Nat) (f : Instruction → Instruction) : Program :=
  p.modifyChunk position fun c => { c with instructions := c.instructions.modify index f }

/-- The program with the target of a resolution recorded in the chunk that it is in. -/
def recordTarget (p : Program) (position : Nat) : Resolution → Program
  | .direct (.inside index) => p.modifyChunk position fun c => c.addTarget index
  | .direct (.across chunk index) => p.modifyChunk chunk.toNat fun c => c.addTarget index
  | _ => p

/-- The program with the instruction `index` of the chunk at `position` resolved. -/
def apply (p : Program) (position index : Nat) (r : Resolution) : Program :=
  (p.modifyInstruction position index r.applyTo).recordTarget position r

/-- The position of every instruction: that of its chunk and its own. -/
def sites (p : Program) : List (Nat × Nat) :=
  (p.chunks.mapIdx fun position c => (List.range c.instructions.length).map (position, ·)).flatten

/-- The instructions at some sites resolved in turn, up to the first that fails. -/
def resolveSites (image : Image) : List (Nat × Nat) → Program → Program × Option ResolutionError
  | [], p => (p, none)
  | (position, index) :: rest, p =>
    match p.chunks[position]? with
    | none => resolveSites image rest p
    | some chunk =>
      match chunk.instructions[index]? with
      | none => resolveSites image rest p
      | some i =>
        match p.resolution? image chunk i with
        | .error e => (p, some e)
        | .ok none => resolveSites image rest p
        | .ok (some r) => resolveSites image rest (p.apply position index r)

/-- The program with every branch resolved, or as far as that went and the error.  A resolved
program stays as it is. -/
def resolve (p : Program) (image : Image) : Program × Option ResolutionError :=
  if p.resolved then (p, none)
  else match resolveSites image p.sites p with
    | (p, none) => ({ p with resolved := true }, none)
    | (p, some e) => (p, some e)

end Program

end Ia32Wasm
