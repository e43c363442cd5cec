/-!
# WebAssembly instructions

The instructions that code is made of, as the flat sequence of the binary format: a block, a loop or
a conditional is opened by one instruction and closed by another.  The callee of a call is a
parameter, so that code can name the functions that it calls before they have indices.
-/

namespace Ia32Wasm.Wasm

/-- An instruction that takes its operands from the stack and leaves one result. -/
inductive Numeric where
  | i32Eqz
  | i32Eq
  | i32Ne
  | i32LtU
  | i64Ne
  | i64LtU
  | i32Popcnt
  | i32Add
  | i32Sub
  | i32And
  | i32Or
  | i32Xor
  | i32Shl
  | i32ShrS
  | i32ShrU
  | i64Add
  | i64Mul
  | i64DivS
  | i64DivU
  | i64RemS
  | i64RemU
  | i64Or
  | i64Shl
  | i64ShrU
  | i32WrapI64
  | i64ExtendI32S
  | i64ExtendI32U
  | i32Extend8S
  | i32Extend16S
deriving DecidableEq, Repr

/-- The number of bytes that a load or store moves. -/
inductive Access where
  | byte
  | half
  | word
deriving DecidableEq, Repr

/-- An instruction.  `block`, `loop` and `ifThen` open a construct, `orElse` begins the second part
of a conditional and `close` closes the innermost construct; a branch counts the open constructs
from the innermost outwards. -/
inductive Instr (κ : Type) where
  | unreachable
  | block
  | loop
  | ifThen
  | orElse
  | close
  | br (depth : Nat)
  | brIf (depth : Nat)
  | ret
  | call (callee : κ)
  | select
  | localGet (index : Nat)
  | localSet (index : Nat)
  | globalGet (index : Nat)
  | globalSet (index : Nat)
  | load (access : Access)
  | store (access : Access)
  | i32Const (value : UInt32)
  | i64Const (value : UInt64)
  | op (op : Numeric)
deriving DecidableEq, Repr

namespace Instr

variable {κ κ' : Type}

/-- The instruction with its callee replaced. -/
def mapCallee (f : κ → κ') : Instr κ → Instr κ'
  | .unreachable => .unreachable
  | .block => .block
  | .loop => .loop
  | .ifThen => .ifThen
  | .orElse => .orElse
  | .close => .close
  | .br depth => .br depth
  | .brIf depth => .brIf depth
  | .ret => .ret
  | .call callee => .call (f callee)
  | .select => .select
  | .localGet i => .localGet i
  | .localSet i => .localSet i
  | .globalGet i => .globalGet i
  | .globalSet i => .globalSet i
  | .load a => .load a
  | .store a => .store a
  | .i32Const v => .i32Const v
  | .i64Const v => .i64Const v
  | .op o => .op o

/-- The number of open constructs after an instruction, when there were `depth` before it. -/
def depthAfter (depth : Nat) : Instr κ → Nat
  | .block | .loop | .ifThen => depth + 1
  | .close => depth - 1
  | _ => depth

end Instr

end Ia32Wasm.Wasm
