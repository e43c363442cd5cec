import Mathlib.Algebra.Group.Nat.Defs
import Ia32Wasm.Proofs.Wasm.Trace

/-!
# Straight code

Code that neither branches nor calls is a function of the machine.  `exec` runs it, one piece after the other
(`exec_append`), instruction by instruction (`exec_localGet`, `exec_op` and their like), and what it computes is
where the code completes (`completes_of_exec`).  A number that was written to memory is read back
(`Memory.read_write`).
-/

namespace Ia32Wasm.Wasm

variable {κ ω : Type}

/-! ### Memory -/

namespace Memory

/-- Bytes that a write covers hold the part of the number that belongs there. -/
private theorem read_write_part (m : Memory) {address count number : Nat} (offset length : Nat)
    (h : offset + length ≤ count) :
    (m.write address count number).read (address + offset) length = number >>> (8 * offset) % 256 ^ length := by
  induction length generalizing offset with
  | zero => rw [read, Nat.pow_zero, Nat.mod_one]
  | succ length ih =>
    have hbyte : (m.write address count number).byte (address + offset) = UInt8.ofNat (number >>> (8 * offset)) := by
      have hcovered : address ≤ address + offset ∧ address + offset < address + count := by omega
      simp only [write, if_pos hcovered, Nat.add_sub_cancel_left]
    have hnext : number >>> (8 * (offset + 1)) = number >>> (8 * offset) / 256 := by
      rw [Nat.mul_add, Nat.shiftRight_add, Nat.shiftRight_eq_div_pow (number >>> (8 * offset))]
    rw [read, hbyte, Nat.add_assoc, ih (offset + 1) (by omega), hnext, Nat.pow_succ', Nat.mod_mul]
    rfl

/-- What was written is read back, cut to the bytes that were written. -/
theorem read_write (m : Memory) (address count number : Nat) :
    (m.write address count number).read address count = number % 256 ^ count :=
  m.read_write_part 0 count (by omega)

end Memory

/-! ### Execution -/

variable {code first second : List (Instr κ)} {m m' : Machine ω}

/-- The machine after some straight code. -/
def exec (code : List (Instr κ)) (m : Machine ω) : Except Fault (Machine ω) :=
  code.foldlM (fun m instr => instr.apply m) m

/-- Straight code is executed part by part. -/
theorem exec_append (h : exec first m = .ok m') : exec (first ++ second) m = exec second m' := by
  rw [exec, List.foldlM_append, ← exec, h]
  rfl

theorem exec_cons {instr : Instr κ} (h : instr.apply m = .ok m') : exec (instr :: code) m = exec code m' := by
  rw [exec, List.foldlM_cons, h]
  rfl

section Instructions

variable (m : Machine ω) (code : List (Instr κ))

@[simp] theorem exec_nil : exec ([] : List (Instr κ)) m = .ok m := rfl

@[simp] theorem exec_localGet (index : Nat) :
    exec (.localGet index :: code) m = exec code (m.push (m.locals index)) :=
  exec_cons rfl

@[simp] private theorem exec_i32Const (v : UInt32) : exec (.i32Const v :: code) m = exec code (m.push (.i32 v)) :=
  exec_cons rfl

@[simp] private theorem exec_i64Const (v : UInt64) : exec (.i64Const v :: code) m = exec code (m.push (.i64 v)) :=
  exec_cons rfl

@[simp] theorem exec_op (o : Numeric) :
    exec (.op o :: code) m = (o.apply m.stack).bind fun stack => exec code { m with stack } := by
  rw [exec, List.foldlM_cons]
  show ((o.apply m.stack).map _).bind _ = _
  cases o.apply m.stack <;> rfl

end Instructions

/-- Straight code that executes completes. -/
theorem completes_of_exec {host : Host κ ω} (hdata : ∀ instr ∈ code, instr.isData = true)
    (h : exec code m = .ok m') : Completes host code m m' :=
  completes_of_foldlM hdata h

end Ia32Wasm.Wasm
