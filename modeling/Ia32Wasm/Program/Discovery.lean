import Ia32Wasm.Image.Basic
import Ia32Wasm.Program.Basic
import Ia32Wasm.X86.Decoding

/-!
# Discovery

The code reachable from some entry points, divided into chunks.

* Entry points are visited first in, first out, and one that is already covered is passed over.
* A chunk begins with the run at its entry; the targets of its conditional jumps begin its further
  runs, in the order in which they were met, unless some chunk covers them by then.
* A run ends after a jump or a return, or with a jump of no bytes where it reaches code that its
  chunk already holds.
* The targets of calls and of jumps become entry points.  A call through a pointer into a section
  becomes a direct call.

Every run begins at an address that nothing covered before and covers at least that one, so there
are at most as many runs as addresses, and a run has at most as many instructions as there are
addresses from its start on.
-/

namespace Ia32Wasm

open X86 (Instruction DecodeError Operand decode)

/-- The bounds within which discovery works. -/
structure Limits where
  maxChunks : UInt64 := 65536
  maxChunkInstructions : UInt64 := 65536
deriving DecidableEq, Repr

/-- One of the bounds. -/
inductive Limit where
  | chunks
  | chunkInstructions
deriving DecidableEq, Repr

/-- The name of a bound. -/
def Limit.name : Limit → String
  | .chunks => "max_chunks"
  | .chunkInstructions => "max_chunk_instructions"

/-- Why discovery stopped. -/
inductive DiscoveryError where
  | decode (error : DecodeError)
  | unmapped (address : UInt32)
  | limitExceeded (limit : Limit) (address : UInt32)
deriving DecidableEq, Repr

/-- The message of an error. -/
def DiscoveryError.message : DiscoveryError → String
  | .decode error => error.message
  | .unmapped address => "address " ++ Hex.address address ++ " is not mapped by any section"
  | .limitExceeded limit address => "discovery hit the " ++ limit.name ++ " limit at " ++ Hex.address address

/-- The number of addresses. -/
def addressCount : Nat := UInt32.size

/-- The queue `pending` with an entry point that is neither covered nor waiting. -/
def enqueue (covered : List AddressRange) (pending : List UInt32) (address : UInt32) : List UInt32 :=
  if isIn address covered || pending.contains address then pending else pending ++ [address]

/-- The target of a call through a pointer to code: the word at a constant address, if it lies in a
section and is not the thunk of an import. -/
def codePointer? (image : Image) (i : Instruction) : Option UInt32 := do
  let pointer ← i.operands.head?.bind Operand.pointer?
  let value ← image.word? pointer
  if image.imports.isThunk value || (image.section? value).isNone then none else some value

/-! ### Runs -/

/-- A run part way through: where it began, the address it has reached, its instructions and the
targets of its conditional jumps, both last first, how many instructions its chunk holds by now, and
the waiting entry points. -/
structure Run where
  start : UInt32
  cursor : UInt32
  read : List Instruction
  targets : List UInt32
  held : Nat
  pending : List UInt32
deriving DecidableEq, Repr

/-- The state of a run after a step: it goes on, or it is complete and its last jump went to `jump`. -/
inductive Progress where
  | more (run : Run)
  | done (run : Run) (jump : Option UInt32)
deriving DecidableEq, Repr

namespace Run

/-- The run at `start` before its first instruction. -/
def new (program : Program) (chunk : Chunk) (start : UInt32) : Run where
  start
  cursor := start
  read := []
  targets := []
  held := chunk.instructions.length
  pending := program.pending

/-- The run with one more instruction, which leads to the next. -/
def push (r : Run) (i : Instruction) : Run :=
  { r with cursor := i.nextAddress, read := i :: r.read, held := r.held + 1 }

/-- The run with one more conditional target, unless it is covered. -/
def addTarget (r : Run) (covered : List AddressRange) (target : UInt32) : Run :=
  if isIn target covered then r else { r with targets := target :: r.targets }

/-- The run after a call: its target waits as an entry point, and a call through a pointer to code
is direct. -/
def pushCall (r : Run) (image : Image) (covered : List AddressRange) (i : Instruction) : Run :=
  match i.relativeTarget? with
  | some target => { r with pending := enqueue covered r.pending target }.push i
  | none =>
    match codePointer? image i with
    | some target =>
      let displacement := (target - i.nextAddress).toInt32.toInt64
      { r with pending := enqueue covered r.pending target }.push
        { i with operands := [.imm displacement .bits32] }
    | none => r.push i

/-- The run after the decoded instruction `i`. -/
def visit (r : Run) (image : Image) (covered : List AddressRange) (i : Instruction) : Progress :=
  match i.mnemonic with
  | .jump => .done (r.push i) i.relativeTarget?
  | .ret => .done (r.push i) none
  | .call => .more (r.pushCall image covered i)
  | .jumpIf _ | .jecxz =>
    match i.relativeTarget? with
    | some target => .more ((r.addTarget covered target).push i)
    | none => .more (r.push i)
  | _ => .more (r.push i)

/-- One step of a run of `chunk`. -/
def step (image : Image) (limits : Limits) (program : Program) (chunk : Chunk) (r : Run) :
    Except DiscoveryError Progress :=
  if r.cursor ≠ r.start ∧ chunk.covers r.cursor then .ok (.done (r.push (.fallThrough r.cursor)) none)
  else if limits.maxChunkInstructions.toNat ≤ r.held then .error (.limitExceeded .chunkInstructions r.cursor)
  else match image.bytesAt? r.cursor with
    | none => .error (.unmapped r.cursor)
    | some bytes =>
      match decode bytes r.cursor with
      | .error e => .error (.decode e)
      | .ok (i, _) => .ok (r.visit image program.covered i)

/-- A run to its end, in at most `room` steps; past the last address nothing is mapped. -/
def finish (image : Image) (limits : Limits) (program : Program) (chunk : Chunk) :
    Nat → Run → Except DiscoveryError (Run × Option UInt32)
  | 0, r => .error (.unmapped r.cursor)
  | room + 1, r =>
    match r.step image limits program chunk with
    | .error e => .error e
    | .ok (.done r jump) => .ok (r, jump)
    | .ok (.more r) => finish image limits program chunk room r

/-- The addresses of a run. -/
def range (r : Run) : AddressRange := ⟨r.start, r.cursor⟩

end Run

/-! ### Chunks -/

namespace Chunk

/-- The chunk with one more run. -/
def addRun (c : Chunk) (r : Run) : Chunk :=
  { c with instructions := c.instructions ++ r.read.reverse, ranges := c.ranges ++ [r.range] }

end Chunk

namespace Program

/-- The program with one more run, whose last jump went to `jump`. -/
def addRun (p : Program) (r : Run) (jump : Option UInt32) : Program :=
  let covered := p.covered ++ [r.range]
  { p with covered, pending := jump.elim r.pending (enqueue covered r.pending) }

/-- The chunk with a run at each of the queued addresses that is not covered when its turn comes, at
most `budget` runs, and the program with these runs. -/
def addRuns (image : Image) (limits : Limits) :
    Nat → List UInt32 → Program → Chunk → Except DiscoveryError (Program × Chunk)
  | 0, _, p, c => .ok (p, c)
  | budget + 1, queue, p, c =>
    match queue.dropWhile p.isCovered with
    | [] => .ok (p, c)
    | start :: rest =>
      match (Run.new p c start).finish image limits p c (addressCount - start.toNat) with
      | .error e => .error e
      | .ok (r, jump) => addRuns image limits budget (rest ++ r.targets.reverse) (p.addRun r jump) (c.addRun r)

/-- The program with a chunk for each waiting entry point that is not covered when its turn comes,
at most `budget`. -/
def addChunks (image : Image) (limits : Limits) : Nat → Program → Except DiscoveryError Program
  | 0, p => .ok p
  | budget + 1, p =>
    match p.pending.dropWhile p.isCovered with
    | [] => .ok { p with pending := [] }
    | entry :: rest =>
      if limits.maxChunks.toNat ≤ p.chunks.length then .error (.limitExceeded .chunks entry)
      else
        let chunk := Chunk.new (UInt32.ofNat p.chunks.length) entry
        match addRuns image limits addressCount [entry] { p with pending := rest } chunk with
        | .error e => .error e
        | .ok (p, chunk) => addChunks image limits budget { p with chunks := p.chunks ++ [chunk] }

/-- The program reachable from some entry points. -/
def discover (image : Image) (entries : List UInt32) (limits : Limits) : Except DiscoveryError Program :=
  addChunks image limits addressCount { pending := entries.foldl (enqueue []) [] }

end Program

end Ia32Wasm
