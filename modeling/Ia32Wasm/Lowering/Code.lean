import Ia32Wasm.Machine.Slot
import Ia32Wasm.Wasm.Instr
import Ia32Wasm.X86.OperandSize

/-!
# Code

Code calls functions by what they are: a hook of the run-time system, or an imported function by its
name.  Functions get their indices when the code is emitted: the hooks have the first ones, and an
imported function gets the next one when it is called for the first time.
-/

namespace Ia32Wasm

open Machine (Slot)
open X86 (OperandSize)

/-- A service of the run-time system: report an instruction to the debugger, go to the code at the
address in `t1`, or raise the interrupt whose number is in `t1`. -/
inductive Hook where
  | debugger
  | indirectDispatch
  | interrupt
deriving DecidableEq, Repr

namespace Hook

/-- The hooks in the order of their indices. -/
def all : List Hook := [.debugger, .indirectDispatch, .interrupt]

/-- The function index of a hook. -/
def index : Hook → Nat
  | .debugger => 0
  | .indirectDispatch => 1
  | .interrupt => 2

/-- The name of a hook. -/
def name : Hook → String
  | .debugger => "debugger"
  | .indirectDispatch => "indirectDispatch"
  | .interrupt => "interrupt"

end Hook

/-- An imported function other than a hook. -/
structure FunctionImport where
  library : String
  name : String
deriving DecidableEq, Repr

/-- What a call goes to. -/
inductive Callee where
  | hook (hook : Hook)
  | imported (function : FunctionImport)
deriving DecidableEq, Repr

/-- A sequence of instructions that call functions by what they are. -/
abbrev Code := List (Wasm.Instr Callee)

/-! ### Function indices -/

/-- The imported functions behind an instruction: one that is called for the first time comes behind
the others. -/
def addImport (known : List FunctionImport) : Wasm.Instr Callee → List FunctionImport
  | .call (.imported f) => if known.contains f then known else known ++ [f]
  | _ => known

/-- The function index of a callee among some imported functions. -/
def Callee.index (imports : List FunctionImport) : Callee → Nat
  | .hook h => h.index
  | .imported f => Hook.all.length + imports.idxOf f

/-- A sequence with function indices for callees, and the imported functions behind it.  Each call
gets its index at once, from the functions that have been imported up to it. -/
def indexCalls (known : List FunctionImport) : Code → List (Wasm.Instr Nat) × List FunctionImport
  | [] => ([], known)
  | instr :: rest =>
    let known := addImport known instr
    let (indexed, imports) := indexCalls known rest
    (instr.mapCallee (Callee.index known) :: indexed, imports)

/-! ### Locals -/

namespace Local

/-- The first source of the current instruction. -/
def lhs : Nat := 0

/-- The second source of the current instruction. -/
def rhs : Nat := 1

/-- The value that a store writes. -/
def value : Nat := 2

/-- The step of a string instruction, or a value on its way to the stack. -/
def tmp : Nat := 3

/-- A 64-bit product or dividend. -/
def wide : Nat := 4

end Local

/-! ### Fragments -/

/-- The contents of a slot. -/
def getSlot (slot : Slot) : Wasm.Instr Callee := .globalGet slot.index

/-- A value into a slot. -/
def setSlot (slot : Slot) : Wasm.Instr Callee := .globalSet slot.index

/-- A call of a hook. -/
def callHook (hook : Hook) : Wasm.Instr Callee := .call (.hook hook)

/-- A call of an imported function. -/
def callImport (library name : String) : Wasm.Instr Callee := .call (.imported ⟨library, name⟩)

/-- A value cut to a width; a 32-bit value stays as it is. -/
def maskTo (size : OperandSize) : Code :=
  if size.mask = 0xffffffff then [] else [.i32Const size.mask, .op .i32And]

/-- A value of some width extended to 32 bits by its sign. -/
def signExtend : OperandSize → Code
  | .bits8 => [.op .i32Extend8S]
  | .bits16 => [.op .i32Extend16S]
  | .bits32 | .bits128 => []

/-- A constant added to a global. -/
def addToGlobal (index : Nat) (delta : UInt32) : Code :=
  [.globalGet index, .i32Const delta, .op .i32Add, .globalSet index]

/-- The memory access for operands of a width; there is none for vectors. -/
def access? : OperandSize → Option Wasm.Access
  | .bits8 => some .byte
  | .bits16 => some .half
  | .bits32 => some .word
  | .bits128 => none

end Ia32Wasm
