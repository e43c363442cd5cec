import Ia32Wasm.Proofs.Lowering.StatusFlags

/-!
# From sources to results

What all arithmetic instructions have in common.  Their sources are put into the locals (`executes_stage`), the
result is cut to the width of the operation and goes through `t1` into a destination (`executes_finishResult`), and
then the flags are set (`executes_updateFlags`).

`Performs` says that the code of an instruction has an effect.  Of everything else it changes at most the scratch slot
`t1`, so whatever the effect does not name is left as it is.
-/

namespace Ia32Wasm

open Machine (Flag Slot)
open Wasm (Completes Host)
open X86 (Instruction Operand OperandSize)

namespace X86.Operand

variable {ω : Type}

/-- A register that there is can be written. -/
theorem writable_reg {index : UInt8} {size : OperandSize} (hindex : index.toNat < 8) (hsize : size ≠ .bits128) :
    (Operand.reg index size).Writable size :=
  ⟨⟨.inl hsize, hindex, trivial, rfl⟩, hsize⟩

/-- A register is never out of the bounds of memory. -/
theorem inBounds_reg (s : Wasm.Store ω) (index : UInt8) (size : OperandSize) :
    (Operand.reg index size).InBounds s := nofun

end X86.Operand

namespace Lowering

variable {ω : Type} {host : Host Callee ω} {m m₁ m₂ m' : Wasm.Machine ω} {i : Instruction} {lhs rhs : Operand}
  {size size' : OperandSize} {x y r : UInt32}

/-! ### Sources -/

/-- The machine with two words in the locals for sources. -/
def staging (m : Wasm.Machine ω) (x y : UInt32) : Wasm.Machine ω :=
  (m.setLocal Local.lhs (.i32 x)).setLocal Local.rhs (.i32 y)

/-- Both sources are loaded before anything is stored. -/
theorem executes_stage (hlhs : lhs.Readable size) (hrhs : rhs.Readable size') (hlhsBounds : lhs.InBounds m.store)
    (hrhsBounds : rhs.InBounds m.store) :
    Executes host (stage lhs rhs) () m
      (staging m (UInt32.ofNat (lhs.value m.store)) (UInt32.ofNat (rhs.value m.store))) := by
  refine executes_bind (executes_loadOperand hlhs hlhsBounds) (executes_bind (executes_emit rfl) ?_)
  exact executes_bind (executes_loadOperand hrhs hrhsBounds) (executes_emit rfl)

/-- A source taken as a signed number. -/
theorem exec_signExtend (hsize : size ≠ .bits128) (m : Wasm.Machine ω) (word : UInt32) :
    Wasm.exec (signExtend size : Code) (m.push (.i32 word)) = .ok (m.push (.i32 (signedWord size word))) := by
  cases size with
  | bits8 | bits16 => rfl
  | bits32 =>
    rw [signedWord, OperandSize.bits, BitVec.setWidth_eq, BitVec.signExtend_eq]
    rfl
  | bits128 => exact absurd rfl hsize

/-! ### Results -/

/-- The machine `m₂` after a result: it is in `t1` and in the destination, and the sources are still in the locals. -/
structure Finished (m m₂ : Wasm.Machine ω) (destination : Option Operand) (x y r : UInt32) : Prop where
  stack : m₂.stack = m.stack
  staged : Staged m₂ x y r
  wide : m₂.locals Local.wide = m.locals Local.wide
  store : m₂.store = (destination.elim m.store fun op => op.assign m.store r.toNat).set .t1 r

/-- The result is stored before the flags are computed, and leaves them. -/
theorem Finished.get_flag {destination : Option Operand} (h : Finished m m₂ destination x y r) (f : Flag) :
    m₂.store.get (.flag f) = m.store.get (.flag f) := by
  rw [h.store, Wasm.Store.get_set_of_ne _ _ (fun h' => Slot.noConfusion h')]
  cases destination with
  | none => rfl
  | some op => exact Operand.get_assign m.store op _ fun _ => Slot.noConfusion

/-- A result is cut to its size, kept in `t1` and stored to its destination, if it has one. -/
theorem executes_finishResult (host : Host Callee ω) (size : OperandSize) (destination : Option Operand)
    (hdestination : ∀ op, destination = some op → op.Writable size ∧ op.InBounds m.store)
    (hlhs : m.locals Local.lhs = .i32 x) (hrhs : m.locals Local.rhs = .i32 y) (v : UInt32) :
    ∃ m₂, Executes host (finishResult destination size) () (m.push (.i32 v)) m₂ ∧
      Finished m m₂ destination x y (v &&& size.mask) := by
  have hresult : Executes host (emit (maskTo size ++ [setSlot .t1])) () (m.push (.i32 v))
      { m with store := m.store.set .t1 (v &&& size.mask) } :=
    executes_emit ((Wasm.exec_append (exec_maskTo size m v)).trans rfl)
  cases destination with
  | none =>
    refine ⟨_, executes_bind hresult (executes_pure () _), rfl, ⟨hlhs, hrhs, ?_⟩, rfl, rfl⟩
    exact Wasm.Store.get_set_self _ _ _
  | some op =>
    obtain ⟨hwritable, hbounds⟩ := hdestination op rfl
    obtain ⟨w, hstore⟩ := executes_storeOperand host (m := { m with store := m.store.set .t1 (v &&& size.mask) })
      hwritable (Operand.inBounds_set_t1 _ hbounds) (v &&& size.mask)
    have hload : Executes host (emit [getSlot .t1]) () { m with store := m.store.set .t1 (v &&& size.mask) }
        (Wasm.Machine.push { m with store := m.store.set .t1 (v &&& size.mask) } (.i32 (v &&& size.mask))) := by
      refine executes_emit ((exec_getSlot .t1 _).trans ?_)
      rw [Wasm.Store.get_set_self]
    refine ⟨_, executes_bind hresult (executes_bind hload hstore), rfl, ⟨hlhs, hrhs, ?_⟩, rfl, ?_⟩
    · exact (Operand.get_assign _ op _ fun _ => Slot.noConfusion).trans (Wasm.Store.get_set_self _ _ _)
    · exact Operand.assign_set_t1 _ _ op _

/-- An assignment leaves the sources and the result where they are. -/
theorem Staged.assigned (h : Staged m x y r) (op : Operand) (number : Nat) (w : Wasm.Value) :
    Staged (assigned m op number w) x y r :=
  ⟨h.lhs, h.rhs, (Operand.get_assign m.store op number fun _ => Slot.noConfusion).trans h.result⟩

/-! ### Instructions -/

/-- The flags of an operation are computed for the size of its first operand. -/
theorem executes_updateFlags {flags : OperandSize → Code} {first : Operand}
    (hflags : flagsOf? i.mnemonic = some flags)
    (hfirst : i.operands.head? = some first) (hsize : first.Readable size) (h : Wasm.Runs host (flags size) m m') :
    Executes host (updateFlags i) () m m' := by
  unfold updateFlags
  rw [hflags, hfirst]
  exact executes_bind (executes_pure first m) (executes_bind (executes_scalarSize hsize m) ⟨rfl, h⟩)

/-- The code of the instruction has an effect; besides, it may change the scratch slot `t1`. -/
def Performs (host : Host Callee ω) (chunk : UInt32) (toLoop : Nat) (i : Instruction) (m : Wasm.Machine ω)
    (e : Effect) : Prop :=
  (instruction chunk toLoop i).outcome = .ok () ∧
    ∃ m' scratch, Completes host (instruction chunk toLoop i).code m m' ∧ m'.stack = m.stack ∧
      m'.store = (e.apply m.store).set .t1 scratch

/-- The effects that the same code has agree outside the scratch slot. -/
theorem Performs.get_unique {host : Host Callee ω} {chunk : UInt32} {toLoop : Nat} {i : Instruction}
    {m : Wasm.Machine ω}
    {e e' : Effect} (h : Performs host chunk toLoop i m e) (h' : Performs host chunk toLoop i m e') {x : Slot}
    (hx : x ≠ .t1) : (e.apply m.store).get x = (e'.apply m.store).get x := by
  obtain ⟨-, m₁, v, hcompletes, -, hstore⟩ := h
  obtain ⟨-, m₂, w, hcompletes', -, hstore'⟩ := h'
  obtain rfl := Wasm.completes_unique hcompletes hcompletes'
  have hget := congrArg (fun s => Wasm.Store.get s x) (hstore.symm.trans hstore')
  rwa [Wasm.Store.get_set_of_ne _ _ hx, Wasm.Store.get_set_of_ne _ _ hx] at hget

theorem prologue_of_computation {code : Lowering Unit} (h : computation? i = some code) : prologue i = pure () := by
  unfold computation? at h
  unfold prologue
  cases hm : i.mnemonic <;> rw [hm] at h <;> first | rfl | cases h

/-- A computation is the whole body of its instruction. -/
theorem body_of_computation {code : Lowering Unit} (h : computation? i = some code) (chunk : UInt32) (toLoop : Nat) :
    body chunk toLoop i = code := by
  have hbody : body chunk toLoop i = (computation? i).getD unsupported := by
    unfold computation? at h
    unfold body
    cases hm : i.mnemonic <;> rw [hm] at h <;> first | rfl | cases h
  rw [hbody, h, Option.getD_some]

/-- What the body of a computation comes to, the instruction comes to. -/
theorem attains_instruction {chunk : UInt32} {toLoop : Nat} {code : Lowering Unit} {P : Wasm.Config Callee ω → Prop}
    (hcode : computation? i = some code) (h : Wasm.Attains host code.code m P) :
    Wasm.Attains host (instruction chunk toLoop i).code m P := by
  unfold instruction
  rw [prologue_of_computation hcode, body_of_computation hcode]
  exact attains_bind (executes_pure () m) (attains_bind_left h _)

/-- A computation has an effect when its code does the assignments and then the flags are changed. -/
theorem performs_of_executes {chunk : UInt32} {toLoop : Nat} {e : Effect} {code : Lowering Unit}
    (hcode : computation? i = some code) (hbody : Executes host code () m m₂)
    (hflags : Executes host (updateFlags i) () m₂ (m₂.setFlags e.flags)) (hstack : m₂.stack = m.stack)
    (hstore : m₂.store = (e.assigned.foldl (fun s x => x.1.assign s x.2) m.store).set .t1 r) :
    Performs host chunk toLoop i m e := by
  have hall : Executes host (instruction chunk toLoop i) () m (m₂.setFlags e.flags) := by
    unfold instruction
    rw [prologue_of_computation hcode, body_of_computation hcode]
    exact executes_bind (executes_pure () m) (executes_bind hbody hflags)
  refine ⟨hall.outcome, _, r, Wasm.completes_of_runs hall.runs, hstack, ?_⟩
  show m₂.store.setFlags e.flags = _
  rw [hstore, Wasm.Store.setFlags_set _ _ _ fun _ => Slot.noConfusion]
  rfl

/-- A computation has an effect when its result goes into the destination of the effect, if there is one. -/
theorem performs_of_finished {chunk : UInt32} {toLoop : Nat} {e : Effect} {code : Lowering Unit}
    {destination : Option Operand} (hcode : computation? i = some code) (hbody : Executes host code () m m₂)
    (hflags : Executes host (updateFlags i) () m₂ (m₂.setFlags e.flags)) (h : Finished m₁ m₂ destination x y r)
    (hstack : m₁.stack = m.stack) (hstore : m₁.store = m.store)
    (hassigned : e.assigned = (destination.map fun op => (op, r.toNat)).toList) :
    Performs host chunk toLoop i m e := by
  refine performs_of_executes (r := r) hcode hbody hflags (h.stack.trans hstack) ?_
  rw [h.store, hstore, hassigned]
  cases destination <;> rfl

end Lowering

end Ia32Wasm
