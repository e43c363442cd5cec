import Ia32Wasm.Wasm.Instr
import Mathlib.Logic.Relation

/-!
# Execution of code

A machine executes a function body instruction by instruction.  Its configuration holds the code that is left, the
labels of the constructs that are open, innermost first, and the state that instructions change.  A label holds the
code at which a branch to it goes on: after its end for a block or a conditional, and at its beginning for a loop.  A
branch also drops the operands that were pushed since its construct was opened.

Imported functions are a parameter.  A call of one changes the store in any way, traps, or never comes back; the store
has a part for whatever they keep to themselves, so what a call does can depend on all that happened before it.
-/

namespace Ia32Wasm.Wasm

variable {κ κ' ω : Type}

/-! ### Values and memory -/

/-- An operand or the contents of a local. -/
inductive Value where
  | i32 (word : UInt32)
  | i64 (word : UInt64)
deriving DecidableEq, Repr

/-- The truth value of a test. -/
def Value.ofBool (b : Bool) : Value := .i32 (if b then 1 else 0)

/-- The memory: a number of bytes and their contents. -/
structure Memory where
  size : Nat
  byte : Nat → UInt8

/-- The number of bytes that an access moves. -/
def Access.bytes : Access → Nat
  | .byte => 1
  | .half => 2
  | .word => 4

namespace Memory

/-- The little-endian number in the first `count` bytes from an address on. -/
def read (m : Memory) (address : Nat) : Nat → Nat
  | 0 => 0
  | count + 1 => (m.byte address).toNat + 256 * m.read (address + 1) count

/-- The memory with the low `count` bytes of a number at an address. -/
def write (m : Memory) (address count number : Nat) : Memory :=
  { m with
    byte := fun a =>
      if address ≤ a ∧ a < address + count then UInt8.ofNat (number >>> (8 * (a - address))) else m.byte a }

end Memory

/-- What outlives a call: the globals, the memory and the part that only imported functions see. -/
structure Store (ω : Type) where
  globals : Nat → UInt32
  memory : Memory
  world : ω

/-- Why execution does not go on: a trap, a call that never comes back, or code that is not valid. -/
inductive Fault where
  | trap
  | endless
  | invalid
deriving DecidableEq, Repr

/-- What the imported functions do. -/
abbrev Host (κ ω : Type) := κ → Store ω → Except Fault (Store ω)

/-! ### Numeric instructions -/

/-- The stack after an operation on its 32-bit top. -/
def unary32 (f : UInt32 → Value) : List Value → Except Fault (List Value)
  | .i32 a :: stack => .ok (f a :: stack)
  | _ => .error .invalid

/-- The stack after an operation on its 64-bit top. -/
def unary64 (f : UInt64 → Value) : List Value → Except Fault (List Value)
  | .i64 a :: stack => .ok (f a :: stack)
  | _ => .error .invalid

/-- The stack after an operation on its two topmost 32-bit values. -/
def binary32 (f : UInt32 → UInt32 → Value) : List Value → Except Fault (List Value)
  | .i32 b :: .i32 a :: stack => .ok (f a b :: stack)
  | _ => .error .invalid

/-- The stack after an operation on its two topmost 64-bit values. -/
def binary64 (f : UInt64 → UInt64 → Value) : List Value → Except Fault (List Value)
  | .i64 b :: .i64 a :: stack => .ok (f a b :: stack)
  | _ => .error .invalid

/-- The stack after an operation on its two topmost 64-bit values that traps where it has no result. -/
def partial64 (f : UInt64 → UInt64 → Option UInt64) : List Value → Except Fault (List Value)
  | .i64 b :: .i64 a :: stack =>
    match f a b with
    | some v => .ok (.i64 v :: stack)
    | none => .error .trap
  | _ => .error .invalid

/-- The number of bits that are set. -/
def bitCount (a : UInt32) : UInt32 := UInt32.ofNat ((List.range 32).countP a.toNat.testBit)

/-- The signed quotient, rounded towards zero; none when it is not a 64-bit number. -/
def signedQuotient (a b : UInt64) : Option UInt64 :=
  if b = 0 ∨ a.toInt64 = Int64.minValue ∧ b.toInt64 = -1 then none else some (a.toInt64 / b.toInt64).toUInt64

/-- The signed remainder, with the sign of the dividend. -/
def signedRemainder (a b : UInt64) : Option UInt64 :=
  if b = 0 then none else some (a.toInt64 % b.toInt64).toUInt64

/-- The stack after a numeric instruction. -/
def Numeric.apply : Numeric → List Value → Except Fault (List Value)
  | .i32Eqz => unary32 fun a => .ofBool (a == 0)
  | .i32Eq => binary32 fun a b => .ofBool (a == b)
  | .i32Ne => binary32 fun a b => .ofBool (a != b)
  | .i32LtU => binary32 fun a b => .ofBool (a < b)
  | .i64Ne => binary64 fun a b => .ofBool (a != b)
  | .i64LtU => binary64 fun a b => .ofBool (a < b)
  | .i32Popcnt => unary32 fun a => .i32 (bitCount a)
  | .i32Add => binary32 fun a b => .i32 (a + b)
  | .i32Sub => binary32 fun a b => .i32 (a - b)
  | .i32And => binary32 fun a b => .i32 (a &&& b)
  | .i32Or => binary32 fun a b => .i32 (a ||| b)
  | .i32Xor => binary32 fun a b => .i32 (a ^^^ b)
  | .i32Shl => binary32 fun a b => .i32 (a <<< b)
  | .i32ShrS => binary32 fun a b => .i32 (a.toInt32 >>> b.toInt32).toUInt32
  | .i32ShrU => binary32 fun a b => .i32 (a >>> b)
  | .i64Add => binary64 fun a b => .i64 (a + b)
  | .i64Mul => binary64 fun a b => .i64 (a * b)
  | .i64DivS => partial64 signedQuotient
  | .i64DivU => partial64 fun a b => if b = 0 then none else some (a / b)
  | .i64RemS => partial64 signedRemainder
  | .i64RemU => partial64 fun a b => if b = 0 then none else some (a % b)
  | .i64Or => binary64 fun a b => .i64 (a ||| b)
  | .i64Shl => binary64 fun a b => .i64 (a <<< b)
  | .i64ShrU => binary64 fun a b => .i64 (a >>> b)
  | .i32WrapI64 => unary64 fun a => .i32 a.toUInt32
  | .i64ExtendI32S => unary32 fun a => .i64 a.toInt32.toInt64.toUInt64
  | .i64ExtendI32U => unary32 fun a => .i64 a.toUInt64
  | .i32Extend8S => unary32 fun a => .i32 a.toUInt8.toInt8.toInt32.toUInt32
  | .i32Extend16S => unary32 fun a => .i32 a.toUInt16.toInt16.toInt32.toUInt32

/-! ### Plain instructions -/

/-- What instructions change: the operands, top first, the locals and the store. -/
structure Machine (ω : Type) where
  stack : List Value
  locals : Nat → Value
  store : Store ω

namespace Store

/-- The store with a global changed. -/
def setGlobal (s : Store ω) (index : Nat) (word : UInt32) : Store ω :=
  { s with globals := fun i => if i = index then word else s.globals i }

end Store

namespace Machine

/-- The machine at the beginning of a function, where every local is zero. -/
def start (store : Store ω) : Machine ω where
  stack := []
  locals := fun index => if index = 4 then .i64 0 else .i32 0
  store

/-- The machine with one more operand. -/
def push (m : Machine ω) (v : Value) : Machine ω := { m with stack := v :: m.stack }

@[simp] theorem store_push (m : Machine ω) (v : Value) : (m.push v).store = m.store := rfl

@[simp] theorem locals_push (m : Machine ω) (v : Value) : (m.push v).locals = m.locals := rfl

@[simp] theorem stack_push (m : Machine ω) (v : Value) : (m.push v).stack = v :: m.stack := rfl

/-- The machine with a local changed. -/
def setLocal (m : Machine ω) (index : Nat) (v : Value) : Machine ω :=
  { m with locals := fun i => if i = index then v else m.locals i }

/-- The machine with a global changed. -/
def setGlobal (m : Machine ω) (index : Nat) (word : UInt32) : Machine ω :=
  { m with store := m.store.setGlobal index word }

/-- The value in memory at the address on the stack. -/
def load (m : Machine ω) (a : Access) : Except Fault (Machine ω) :=
  match m.stack with
  | .i32 address :: stack =>
    if address.toNat + a.bytes ≤ m.store.memory.size then
      .ok { m with stack := .i32 (UInt32.ofNat (m.store.memory.read address.toNat a.bytes)) :: stack }
    else .error .trap
  | _ => .error .invalid

/-- The value on the stack into memory at the address below it. -/
def storeTop (m : Machine ω) (a : Access) : Except Fault (Machine ω) :=
  match m.stack with
  | .i32 word :: .i32 address :: stack =>
    if address.toNat + a.bytes ≤ m.store.memory.size then
      .ok { m with
        stack
        store := { m.store with memory := m.store.memory.write address.toNat a.bytes word.toNat } }
    else .error .trap
  | _ => .error .invalid

end Machine

/-- The machine after an instruction that neither branches nor calls. -/
def Instr.apply (m : Machine ω) : Instr κ → Except Fault (Machine ω)
  | .unreachable => .error .trap
  | .select =>
    match m.stack with
    | .i32 test :: second :: first :: stack => .ok { m with stack := (if test = 0 then second else first) :: stack }
    | _ => .error .invalid
  | .localGet index => .ok (m.push (m.locals index))
  | .localSet index =>
    match m.stack with
    | v :: stack => .ok ({ m with stack }.setLocal index v)
    | [] => .error .invalid
  | .globalGet index => .ok (m.push (.i32 (m.store.globals index)))
  | .globalSet index =>
    match m.stack with
    | .i32 word :: stack => .ok ({ m with stack }.setGlobal index word)
    | _ => .error .invalid
  | .load a => m.load a
  | .store a => m.storeTop a
  | .i32Const v => .ok (m.push (.i32 v))
  | .i64Const v => .ok (m.push (.i64 v))
  | .op o => (o.apply m.stack).map fun stack => { m with stack }
  | _ => .error .invalid

/-- The instruction neither branches, nor calls, nor opens or closes a construct. -/
@[simp] def Instr.isData : Instr κ → Bool
  | .block | .loop | .ifThen | .orElse | .close | .br _ | .brIf _ | .ret | .call _ => false
  | _ => true

/-! ### Control -/

/-- The code after the end of the construct inside which `depth` constructs are open. -/
def afterClose : Nat → List (Instr κ) → List (Instr κ)
  | _, [] => []
  | depth, .block :: rest | depth, .loop :: rest | depth, .ifThen :: rest => afterClose (depth + 1) rest
  | 0, .close :: rest => rest
  | depth + 1, .close :: rest => afterClose depth rest
  | depth, _ :: rest => afterClose depth rest

/-- The second part of the conditional inside whose first part `depth` constructs are open; its end when it has no
second part. -/
def afterThen : Nat → List (Instr κ) → List (Instr κ)
  | _, [] => []
  | depth, .block :: rest | depth, .loop :: rest | depth, .ifThen :: rest => afterThen (depth + 1) rest
  | 0, .close :: rest => .close :: rest
  | depth + 1, .close :: rest => afterThen depth rest
  | 0, .orElse :: rest => rest
  | depth, _ :: rest => afterThen depth rest

/-- An open construct: the code at which a branch to it goes on, and the number of operands when it was opened. -/
structure Label (κ : Type) where
  continuation : List (Instr κ)
  height : Nat

/-- A function part way through. -/
structure Config (κ ω : Type) where
  code : List (Instr κ)
  labels : List (Label κ)
  machine : Machine ω

/-- A function after a step: it goes on, it has returned, or it will do neither. -/
inductive Status (κ ω : Type) where
  | running (config : Config κ ω)
  | returned (store : Store ω)
  | stopped (fault : Fault)

namespace Config

/-- A function body with nothing executed. -/
def start (body : List (Instr κ)) (store : Store ω) : Config κ ω := ⟨body, [], .start store⟩

/-- A construct opened with `stack` as operands: `code` comes next, and a branch to it goes to `continuation`. -/
def enter (c : Config κ ω) (stack : List Value) (code continuation : List (Instr κ)) : Config κ ω :=
  ⟨code, ⟨continuation, stack.length⟩ :: c.labels, { c.machine with stack }⟩

/-- The innermost construct left for the code after it. -/
def leave (c : Config κ ω) (code : List (Instr κ)) : Status κ ω :=
  match c.labels with
  | _ :: labels => .running ⟨code, labels, c.machine⟩
  | [] => .stopped .invalid

/-- A branch to the construct at a depth, with `stack` as operands.  Past the outermost construct it is a return. -/
def branch (c : Config κ ω) (stack : List Value) (depth : Nat) : Status κ ω :=
  match c.labels[depth]? with
  | some label =>
    .running ⟨label.continuation, c.labels.drop (depth + 1),
      { c.machine with stack := stack.drop (stack.length - label.height) }⟩
  | none => if depth = c.labels.length then .returned c.machine.store else .stopped .invalid

/-- One step. -/
def step (host : Host κ ω) (c : Config κ ω) : Status κ ω :=
  match c.code with
  | [] => if c.labels.isEmpty then .returned c.machine.store else .stopped .invalid
  | .block :: rest => .running (c.enter c.machine.stack rest (afterClose 0 rest))
  | .loop :: rest => .running (c.enter c.machine.stack rest (.loop :: rest))
  | .ifThen :: rest =>
    match c.machine.stack with
    | .i32 test :: stack =>
      .running (c.enter stack (if test = 0 then afterThen 0 rest else rest) (afterClose 0 rest))
    | _ => .stopped .invalid
  | .orElse :: rest => c.leave (afterClose 0 rest)
  | .close :: rest => c.leave rest
  | .br depth :: _ => c.branch c.machine.stack depth
  | .brIf depth :: rest =>
    match c.machine.stack with
    | .i32 test :: stack =>
      if test = 0 then .running { c with code := rest, machine := { c.machine with stack } }
      else c.branch stack depth
    | _ => .stopped .invalid
  | .ret :: _ => .returned c.machine.store
  | .call callee :: rest =>
    match host callee c.machine.store with
    | .ok store => .running { c with code := rest, machine := { c.machine with store } }
    | .error fault => .stopped fault
  | instr :: rest =>
    match instr.apply c.machine with
    | .ok machine => .running { c with code := rest, machine }
    | .error fault => .stopped fault

section Steps

variable (host : Host κ ω) (rest : List (Instr κ)) (labels : List (Label κ)) (m : Machine ω)

theorem step_block : step host ⟨.block :: rest, labels, m⟩ =
    .running ⟨rest, ⟨afterClose 0 rest, m.stack.length⟩ :: labels, m⟩ := rfl

theorem step_loop : step host ⟨.loop :: rest, labels, m⟩ =
    .running ⟨rest, ⟨.loop :: rest, m.stack.length⟩ :: labels, m⟩ := rfl

theorem step_close (l : Label κ) : step host ⟨.close :: rest, l :: labels, m⟩ = .running ⟨rest, labels, m⟩ := rfl

end Steps

/-- The next configuration. -/
def Steps (host : Host κ ω) (c d : Config κ ω) : Prop := c.step host = .running d

/-- A configuration that comes later, or the same one. -/
def Reaches (host : Host κ ω) : Config κ ω → Config κ ω → Prop := Relation.ReflTransGen (Steps host)

end Config

end Ia32Wasm.Wasm
