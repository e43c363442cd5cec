import Ia32Wasm.Program.IndexSet
import Ia32Wasm.X86.Instruction

/-!
# Programs

The code recovered from an image, divided into chunks.  A chunk is made of linear runs of
instructions and becomes one module; its ranges are the addresses that its runs cover, and its
targets are the instructions that resolved branches go to.
-/

namespace Ia32Wasm

open X86 (Instruction)

/-- The half-open range of addresses from `start` to `stop`. -/
structure AddressRange where
  start : UInt32
  stop : UInt32
deriving DecidableEq, Repr

/-- The address lies in the range. -/
def AddressRange.contains (r : AddressRange) (address : UInt32) : Bool :=
  r.start ≤ address && address < r.stop

/-- The address lies in one of the ranges. -/
def isIn (address : UInt32) (ranges : List AddressRange) : Bool := ranges.any fun r => r.contains address

/-- A unit of code with one entry, found from an entry point or from a call or jump to it. -/
structure Chunk where
  id : UInt32
  name : String
  entry : UInt32
  instructions : List Instruction
  ranges : List AddressRange
  targets : IndexSet
deriving DecidableEq

namespace Chunk

/-- The name of the chunk with the given entry. -/
def nameOf (entry : UInt32) : String := "FUN_" ++ Hex.label entry

/-- A chunk without instructions. -/
def new (id entry : UInt32) : Chunk := ⟨id, nameOf entry, entry, [], [], .empty⟩

/-- The address lies in a run of the chunk. -/
def covers (c : Chunk) (address : UInt32) : Bool := isIn address c.ranges

/-- The index of the first instruction at an address; a jump of no bytes is passed over. -/
def indexOf? (c : Chunk) (address : UInt32) : Option UInt32 :=
  (c.instructions.findIdx? fun i => i.address == address && !i.isFallThrough).map UInt32.ofNat

end Chunk

/-- The chunks of an image, the entry points still to be visited, the ranges of all chunks in the
order of their discovery, and whether every branch has been resolved. -/
structure Program where
  chunks : List Chunk := []
  pending : List UInt32 := []
  covered : List AddressRange := []
  resolved : Bool := false
deriving DecidableEq

namespace Program

/-- The address lies in a run of some chunk. -/
def isCovered (p : Program) (address : UInt32) : Bool := isIn address p.covered

/-- The first chunk that covers an address. -/
def chunkCovering? (p : Program) (address : UInt32) : Option Chunk := p.chunks.find? fun c => c.covers address

/-- The first chunk with the given entry. -/
def chunkAt? (p : Program) (entry : UInt32) : Option Chunk := p.chunks.find? fun c => c.entry == entry

end Program

end Ia32Wasm
