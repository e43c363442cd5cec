import Ia32Wasm.Lowering.Code
import Ia32Wasm.X86.Operand

/-!
# Lowerings

A lowering emits code and has an outcome.  One that meets an obstacle keeps the code that it had
emitted by then, and what would follow is left out.
-/

namespace Ia32Wasm

open X86 (Operand OperandSize)

/-- Why an instruction cannot be lowered: its operands or its operation have no lowering, or its
branch target has not been resolved. -/
inductive Obstacle where
  | unsupported
  | unresolved
deriving DecidableEq, Repr

/-- Emitted code and an outcome. -/
structure Lowering (α : Type) where
  code : Code
  outcome : Except Obstacle α

namespace Lowering

/-- The lowering that emits nothing. -/
protected def pure {α : Type} (a : α) : Lowering α := ⟨[], .ok a⟩

/-- One lowering and then another that depends on its outcome. -/
protected def bind {α β : Type} (x : Lowering α) (f : α → Lowering β) : Lowering β :=
  match x.outcome with
  | .ok a => ⟨x.code ++ (f a).code, (f a).outcome⟩
  | .error e => ⟨x.code, .error e⟩

instance : Monad Lowering where
  pure := Lowering.pure
  bind := Lowering.bind

private theorem id_map {α : Type} (x : Lowering α) : id <$> x = x := by
  rcases x with ⟨code, _ | a⟩ <;> simp [Functor.map, Lowering.bind, Lowering.pure]

private theorem pure_bind {α β : Type} (a : α) (f : α → Lowering β) : pure a >>= f = f a := by
  simp [pure, bind, Lowering.pure, Lowering.bind]

private theorem bind_assoc {α β γ : Type} (x : Lowering α) (f : α → Lowering β) (g : β → Lowering γ) :
    x >>= f >>= g = x >>= fun a => f a >>= g := by
  rcases x with ⟨code, _ | a⟩
  · simp [bind, Lowering.bind]
  · simp only [bind, Lowering.bind]
    split <;> simp_all

instance : LawfulMonad Lowering := LawfulMonad.mk' Lowering id_map pure_bind bind_assoc

/-- Code without an obstacle. -/
def emit (code : Code) : Lowering Unit := ⟨code, .ok ()⟩

/-- The obstacle of an operand or operation without a lowering. -/
def unsupported {α : Type} : Lowering α := ⟨[], .error .unsupported⟩

/-- The value of an option; without one there is no lowering. -/
def require {α : Type} : Option α → Lowering α
  | some a => pure a
  | none => unsupported

/-- The value at the address on the stack, extended with zeros. -/
def load (size : OperandSize) : Lowering Unit := do emit [.load (← require (access? size))]

/-- The value on the stack into memory at the address below it. -/
def store (size : OperandSize) : Lowering Unit := do emit [.store (← require (access? size))]

/-- The size of an operand that is a scalar. -/
def scalarSize (op : Operand) : Lowering OperandSize :=
  match op.size? with
  | some .bits128 | none => unsupported
  | some size => pure size

end Lowering

end Ia32Wasm
