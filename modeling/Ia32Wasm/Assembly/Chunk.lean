import Ia32Wasm.Assembly.DispatchLoop
import Ia32Wasm.Program.Basic

/-!
# Assembly

A resolved chunk becomes a module.  Its function is written in one pass over the instructions: the
dispatch loop is opened, each instruction is lowered behind the end of its block, and the loop is
closed.
-/

namespace Ia32Wasm

open X86 (Instruction)

/-- The report of an instruction to the debugger. -/
def debugHook (index : Nat) : Code := [.i32Const (UInt32.ofNat index), setSlot .t2, callHook .debugger]

/-- The body in front of the code of an instruction: the block of a target is closed, and the
instruction is reported. -/
def Body.openInstruction (b : Body) (o : AssemblyOptions) (i : Instruction) (index : Nat) : Body :=
  let b := (b.landDispatch (UInt32.ofNat index)).beginInstruction i.mnemonic i.address
  if o.debugHooks then b.append (debugHook index) else b

namespace Chunk

/-- The body with the instruction of the given index behind it. -/
def writeInstruction (c : Chunk) (o : AssemblyOptions) (b : Body) (i : Instruction) (index : Nat) :
    Except AssemblyError Body :=
  let b := b.openInstruction o i index
  match b.lower (Lowering.instruction c.id b.toLoop i) with
  | (b, .ok ()) => .ok b
  | (_, .error e) => .error e

/-- The body with some instructions, each with its index, behind it. -/
def write (c : Chunk) (o : AssemblyOptions) (b : Body) (instructions : List (Instruction × Nat)) :
    Except AssemblyError Body :=
  instructions.foldlM (fun b (i, index) => c.writeInstruction o b i index) b

/-- The module of a chunk. -/
def assemble (c : Chunk) (o : AssemblyOptions) : Except AssemblyError Assembled :=
  if o.validMemory then do
    let b ← c.write o (Body.openDispatch {} c.targets) c.instructions.zipIdx
    let b := b.closeDispatch
    return .ofBody o b.imports b.code
  else .error (.invalidMemoryLimits o.minPages o.maxPages)

end Chunk

end Ia32Wasm
