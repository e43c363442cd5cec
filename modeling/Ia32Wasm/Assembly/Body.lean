import Ia32Wasm.Assembly.Basic

/-!
# Function bodies

A function body that is written step by step.  It keeps track of how many constructs are open, so
that a branch can name a construct by the level at which it was opened, of the imported functions in
the order of first use, and of the instruction that is being lowered, which errors name.  What has
been written is not changed any more: the index in a call is that of its callee among the functions
imported so far.
-/

namespace Ia32Wasm

open X86 (Mnemonic)

/-- An open dispatch loop: the level of the loop and the targets whose blocks are open, in ascending order. -/
structure OpenDispatch where
  level : Nat
  pending : List UInt32
deriving DecidableEq, Repr

/-- A function body part way through. -/
structure Body where
  code : List (Wasm.Instr Nat) := []
  imports : List FunctionImport := []
  depth : Nat := 0
  mnemonic : Mnemonic := .nop
  address : UInt32 := 0
  dispatch : Option OpenDispatch := none
deriving DecidableEq, Repr

namespace Body

/-- The body with more code at its end. -/
def append (b : Body) (code : Code) : Body :=
  let (indexed, imports) := indexCalls b.imports code
  { b with
    code := b.code ++ indexed
    imports
    depth := code.foldl Wasm.Instr.depthAfter b.depth }

/-- The body in front of the lowering of an instruction. -/
def beginInstruction (b : Body) (mnemonic : Mnemonic) (address : UInt32) : Body :=
  { b with mnemonic, address }

/-- The error that an obstacle is for the current instruction. -/
def error (b : Body) : Obstacle → AssemblyError
  | .unsupported => .unsupportedInstruction b.mnemonic b.address
  | .unresolved => .unresolvedProgram

/-- The body with the code of a lowering, and its outcome. -/
def lower {α : Type} (b : Body) (lowering : Lowering α) : Body × Except AssemblyError α :=
  (b.append lowering.code, lowering.outcome.mapError b.error)

/-- The number by which a branch names the construct opened at a level. -/
def branchDepth (b : Body) (level : Nat) : Nat := b.depth - 1 - level

/-- The bytes of the code after the first `start` instructions. -/
def bytesFrom (b : Body) (start : Nat) : List UInt8 := Wasm.encodeCode (b.code.drop start)

/-- The bytes of the finished body with its locals. -/
def bytes (b : Body) : List UInt8 := Wasm.bodyBytes b.code

end Body

end Ia32Wasm
