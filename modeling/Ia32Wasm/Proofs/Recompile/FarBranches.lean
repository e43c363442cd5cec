import Ia32Wasm.Proofs.Lowering.Stack
import Ia32Wasm.Proofs.Program.Search
import Ia32Wasm.Proofs.Recompile.Agreement
import Ia32Wasm.Proofs.X86.WellFormed

/-!
# Far branches

A far call or jump holds a selector and an offset.  The selector is not used.  Discovery does not follow the offset;
it is what the dispatcher gets when the branch runs.

* `Encoding.farOffset` is the offset in the bytes of a far branch, and `Encoding.dispatchTarget` is what becomes of
  it.  An offset of 16 bits is taken as a number with a sign, so the two differ for half of these
  (`dispatchTarget_eq_iff`).
* `DispatchesOn` says what each stage does with a far branch, from discovery to the code that runs.
* `IsFar` is what the stages see of a far branch, and there is one lemma for each of them.
-/

namespace Ia32Wasm

open Machine (Slot)
open Wasm (Attains Config Host)
open X86 (Instruction Mnemonic Operand OperandSize)

/-! ### Offsets in bytes -/

namespace X86.Encoding

/-- The offset of a far pointer, which comes first behind the opcode. -/
def offsetField (bytes : List UInt8) : List UInt8 := (tail bytes).take (if 0x66 ∈ prefixes bytes then 2 else 4)

/-- The offset of a far pointer, extended by zeros. -/
def farOffset (bytes : List UInt8) : UInt32 := UInt32.ofNat (littleEndian (offsetField bytes))

/-- The offset of a far pointer, extended by its sign. -/
def dispatchTarget (bytes : List UInt8) : UInt32 := UInt32.ofNat (wrap 32 (signedNumber (offsetField bytes)))

end X86.Encoding

/-! ### Stages -/

/-- The instruction with its target found at run time. -/
def X86.Instruction.dispatched (i : Instruction) (target : UInt32) : Instruction :=
  { i with
    mnemonic := if i.mnemonic = .jump then .dynamicJump else .dynamicCall
    operands := [.imm (Int64.ofNat target.toNat) .bits32] }

/-- Wherever the code stands, it comes to a call of the dispatcher with the store `s`, and `after` is what is left of
it behind the call. -/
def Lowering.Dispatches {ω : Type} (host : Host Callee ω) (code after : Code) (m : Wasm.Machine ω)
    (s : Wasm.Store ω) :
    Prop :=
  ∀ rest labels, ∃ m', Config.Reaches host ⟨code ++ rest, labels, m⟩
    ⟨callHook .indirectDispatch :: after ++ rest, labels, m'⟩ ∧ m'.store = s ∧ m'.stack = m.stack

/-- The branch `i` at the front of `bytes` is dispatched on `target`.

* Discovery adds it to the run as it is, and no more addresses wait to be visited than before.
* In a discovered program it stands at its address.
* Resolution makes it a branch of the same kind with the target as its only operand, and cannot fail for it.
* The code of a jump calls the dispatcher with the target in `t1` and returns; that of a call has pushed the address
  of the next instruction as well, and goes on.  It traps if the stack is not in memory. -/
structure DispatchesOn (bytes : List UInt8) (i : Instruction) (target : UInt32) : Prop where
  reads : i.farTarget? = some target
  visited : ∀ (image : Image) (limits : Limits) (p : Program) (c : Chunk) (r : Run) (queue : List UInt32),
    r.cursor = i.address → image.bytesAt? i.address = some bytes → (r.cursor ≠ r.start → c.covers r.cursor = false) →
    r.held < limits.maxChunkInstructions.toNat →
    Search.step image limits (.running r queue p c) =
        (if i.mnemonic = .jump then
          .starts (queue ++ r.targets.reverse) (p.addRun (r.push i) none) (c.addRun (r.push i))
        else .running (r.push i) queue p c) ∧
      (Search.step image limits (.running r queue p c)).waiting = (Search.running r queue p c).waiting
  kept : ∀ (image : Image) (entries : List UInt32) (limits : Limits) (p : Program),
    Program.discover image entries limits = .ok p → image.bytesAt? i.address = some bytes →
    ∀ c ∈ p.chunks, ∀ j ∈ c.instructions, j.address = i.address → j.isFallThrough = false → j = i
  resolves : ∀ (p : Program) (image : Image) (c : Chunk),
    ∃ r, p.resolution? image c i = .ok (some r) ∧ r.applyTo i = i.dispatched target
  resolved : ∀ (image : Image) (entries : List UInt32) (limits : Limits) (p q : Program),
    Program.discover image entries limits = .ok p → p.resolve image = (q, none) →
    ∀ (position index : Nat) (c : Chunk), p.chunks[position]? = some c → c.instructions[index]? = some i →
      ∃ c', q.chunks[position]? = some c' ∧ c'.instructions[index]? = some (i.dispatched target)
  lowered : ∀ chunk toLoop, (Lowering.instruction chunk toLoop (i.dispatched target)).outcome = .ok ()
  jumps : i.mnemonic = .jump → ∀ {ω : Type} (host : Host Callee ω) chunk toLoop (m : Wasm.Machine ω),
    Lowering.Dispatches host (Lowering.instruction chunk toLoop (i.dispatched target)).code [.ret] m
      (m.store.set .t1 target)
  calls : i.mnemonic = .call → ∀ {ω : Type} (host : Host Callee ω) chunk toLoop (m : Wasm.Machine ω),
    if (m.store.get .esp - 4).toNat + 4 ≤ m.store.memory.size then
      Lowering.Dispatches host (Lowering.instruction chunk toLoop (i.dispatched target)).code [] m
        (Lowering.pushed { m with store := m.store.set .t1 target } 4 i.nextAddress).store
    else
      Attains host (Lowering.instruction chunk toLoop (i.dispatched target)).code m fun c =>
        c.machine.store.get .t1 = target ∧ c.step host = .stopped .trap

/-- The instruction is a call or a jump with two constants, of which the second one stands for `target`. -/
structure X86.Instruction.IsFar (i : Instruction) (target : UInt32) : Prop where
  mnemonic : i.mnemonic = .call ∨ i.mnemonic = .jump
  operands : ∃ selector offset size size', i.operands = [.imm selector size, .imm offset size'] ∧
    offset.toUInt64.toUInt32 = target

namespace X86.Instruction.IsFar

variable {i : Instruction} {target : UInt32}

private theorem farTarget?_eq (h : i.IsFar target) : i.farTarget? = some target := by
  obtain ⟨selector, offset, size, size', hoperands, htarget⟩ := h.operands
  rw [farTarget?, if_pos h.mnemonic, hoperands, ← htarget]
  rfl

private theorem relativeTarget?_eq (h : i.IsFar target) : i.relativeTarget? = none := by
  obtain ⟨selector, offset, size, size', hoperands, -⟩ := h.operands
  rw [relativeTarget?, hoperands]
  exact ite_self none

private theorem pointer?_eq (h : i.IsFar target) : i.operands.head?.bind Operand.pointer? = none := by
  obtain ⟨selector, offset, size, size', hoperands, -⟩ := h.operands
  rw [hoperands]
  rfl

private theorem not_pointsToCode (h : i.IsFar target) (image : Image) (value : UInt32) :
    ¬ PointsToCode image i value := by
  rintro ⟨op, pointer, hop, hpointer, -⟩
  have hnone := h.pointer?_eq
  rw [hop, Option.bind_some, hpointer] at hnone
  cases hnone

private theorem dynamic?_eq (h : i.IsFar target) : i.mnemonic.dynamic? = some (i.dispatched target).mnemonic := by
  rcases h.mnemonic with hm | hm <;> simp [dispatched, hm, Mnemonic.dynamic?]

private theorem visit_eq (h : i.IsFar target) (r : Run) (image : Image) (covered : List AddressRange) :
    r.visit image covered i = if i.mnemonic = .jump then .done (r.push i) none else .more (r.push i) := by
  have hpointer : codePointer? image i = none := by
    cases hcode : codePointer? image i with
    | none => rfl
    | some value => exact absurd (codePointer?_eq_some_iff.1 hcode) (h.not_pointsToCode image value)
  rcases h.mnemonic with hm | hm
  · simp [Run.visit, hm, Run.pushCall, h.relativeTarget?_eq, hpointer]
  · simp [Run.visit, hm, h.relativeTarget?_eq]

end X86.Instruction.IsFar

variable {bytes : List UInt8} {address target : UInt32} {i : Instruction} {n : Nat}

/-! ### Discovery -/

private theorem Search.step_of_isFar {image : Image} {limits : Limits} {p : Program} {c : Chunk} {r : Run}
    (queue : List UInt32)
    (hi : i.IsFar target) (h : X86.decode bytes i.address = .ok (i, n)) (hcursor : r.cursor = i.address)
    (hbytes : image.bytesAt? i.address = some bytes) (hfresh : r.cursor ≠ r.start → c.covers r.cursor = false)
    (hroom : r.held < limits.maxChunkInstructions.toNat) :
    Search.step image limits (.running r queue p c) =
      if i.mnemonic = .jump then
        .starts (queue ++ r.targets.reverse) (p.addRun (r.push i) none) (c.addRun (r.push i))
      else .running (r.push i) queue p c := by
  have hstep : r.step image limits p c = .ok (r.visit image p.covered i) := by
    have hmet : ¬ (r.cursor ≠ r.start ∧ c.covers r.cursor = true) := by
      rintro ⟨hne, hcovers⟩
      rw [hfresh hne] at hcovers
      cases hcovers
    rw [Run.step, if_neg hmet, if_neg (Nat.not_le.2 hroom), hcursor, hbytes]
    dsimp only
    rw [h]
  rw [Search.step, hstep, hi.visit_eq]
  by_cases hm : i.mnemonic = .jump
  · rw [if_pos hm, if_pos hm]
    rfl
  · rw [if_neg hm, if_neg hm]

/-- A far branch stands in a discovered program as it was decoded. -/
private theorem X86.Instruction.IsFar.eq_of_discover {image : Image} {entries : List UInt32} {limits : Limits}
    {p : Program}
    {c : Chunk} {j : Instruction} (hi : i.IsFar target) (h : X86.decode bytes i.address = .ok (i, n))
    (hbytes : image.bytesAt? i.address = some bytes) (hp : Program.discover image entries limits = .ok p)
    (hc : c ∈ p.chunks) (hj : j ∈ c.instructions) (haddress : j.address = i.address)
    (hreal : j.isFallThrough = false) : j = i := by
  have heq : ∀ d, Decoded image d → d.address = i.address → d = i := by
    rintro d ⟨bytes', length, hbytes', hd, -, -⟩ hsame
    rw [hsame, hbytes, Option.some.injEq] at hbytes'
    subst hbytes'
    rw [hsame, h] at hd
    cases hd
    rfl
  obtain ⟨position, hposition⟩ := List.getElem?_of_mem hc
  obtain ⟨-, -, hspliced⟩ := (Program.wellBuilt_of_discover hp).chunks position c hposition
  rcases hspliced.discovered_or_fallThrough hj with hdiscovered | ⟨other, rfl⟩
  · cases hdiscovered with
    | same hd _ => exact heq j hd haddress
    | @direct d value _ hd _ hpoints hj' _ =>
      -- Only a call whose first operand is a pointer becomes direct, and a selector is none.
      have hdi : d = i := heq d hd (by rw [← haddress, hj'])
      rw [hdi] at hpoints
      exact absurd hpoints (hi.not_pointsToCode image value)
  · rw [Instruction.isFallThrough_fallThrough] at hreal
    cases hreal

/-! ### Resolution -/

private theorem exists_resolution_of_isFar (hi : i.IsFar target) (p : Program) (image : Image) (c : Chunk) :
    ∃ r, p.resolution? image c i = .ok (some r) ∧ r.applyTo i = i.dispatched target := by
  have hbranch : i.mnemonic.isBranch = true := by rcases hi.mnemonic with hm | hm <;> rw [hm] <;> rfl
  refine ⟨.dynamic (i.dispatched target).mnemonic, ?_, ?_⟩
  · rw [Program.resolution?, if_pos hbranch, hi.pointer?_eq, hi.relativeTarget?_eq, hi.dynamic?_eq]
    rfl
  · rw [Resolution.applyTo, hi.farTarget?_eq]
    rfl

private theorem ResolvedTo.eq_dispatched {image : Image} {p : Program} {c : Chunk} {i' : Instruction}
    (hi : i.IsFar target)
    (h : ResolvedTo p image c i i') : i' = i.dispatched target := by
  obtain ⟨hmnemonic, hoperands⟩ := h.dynamic _ hi.dynamic?_eq hi.pointer?_eq hi.relativeTarget?_eq
  rw [hi.farTarget?_eq] at hoperands
  rw [h.placed, hmnemonic, hoperands]
  rfl

/-! ### Execution -/

namespace Lowering

variable {ω : Type} {host : Host Callee ω} {m m₁ : Wasm.Machine ω} {chunk : UInt32} {toLoop : Nat} {after : Code}

/-- A constant of 32 bits is loaded as it is. -/
private theorem executes_loadConstant (host : Host Callee ω) (target : UInt32) (m : Wasm.Machine ω) :
    Executes host (loadOperand (.imm (Int64.ofNat target.toNat) .bits32)) () m (m.push (.i32 target)) := by
  have hlt := target.toNat_lt
  have hword : (Int64.ofNat target.toNat).toUInt64.toUInt32 &&& OperandSize.bits32.mask = target := by
    have hwrap : wrap 32 target.toNat = target.toNat := by rw [wrap_natCast, Nat.mod_eq_of_lt hlt]
    rw [and_mask_eq_wrap _ (by decide), Int64.toInt_ofNat_of_lt (by omega)]
    exact (congrArg UInt32.ofNat hwrap).trans UInt32.ofNat_toNat
  rw [Operand.imm, loadOperand, hword]
  exact executes_emit rfl

private theorem executes_setTarget (host : Host Callee ω) (target : UInt32) (m : Wasm.Machine ω) :
    Executes host (emit [setSlot .t1]) () (m.push (.i32 target)) { m with store := m.store.set .t1 target } :=
  executes_emit rfl

/-- What the body calls is called with the store that the prologue leaves. -/
private theorem dispatches_of_executes (hprologue : Executes host (prologue i) () m m₁) (hstack : m₁.stack = m.stack)
    (hbody : body chunk toLoop i = emit (callHook .indirectDispatch :: after)) (hflags : updateFlags i = pure ()) :
    Dispatches host (instruction chunk toLoop i).code after m m₁.store := by
  have hcode : (instruction chunk toLoop i).code = (prologue i).code ++ (callHook .indirectDispatch :: after) := by
    rw [instruction, bind_code_of_ok hprologue.outcome, hbody, hflags]
    exact congrArg (_ ++ ·) (List.append_nil _)
  intro rest labels
  rw [hcode, List.append_assoc]
  exact ⟨m₁, hprologue.runs _ labels, rfl, hstack⟩

private theorem dispatches_jump (host : Host Callee ω) (chunk : UInt32) (toLoop : Nat) (m : Wasm.Machine ω)
    (hm : i.mnemonic = .jump) :
    Dispatches host (instruction chunk toLoop (i.dispatched target)).code [.ret] m (m.store.set .t1 target) := by
  have hmnemonic : (i.dispatched target).mnemonic = .dynamicJump := if_pos hm
  have hprologue : Executes host (prologue (i.dispatched target)) () m
    { m with store := m.store.set .t1 target } := by
    rw [prologue, hmnemonic]
    exact executes_bind (executes_loadConstant host target m) (executes_setTarget host target m)
  refine dispatches_of_executes hprologue rfl ?_ ?_
  · rw [body, hmnemonic]
  · rw [updateFlags, hmnemonic]
    rfl

private theorem dispatches_call (host : Host Callee ω) (chunk : UInt32) (toLoop : Nat) (m : Wasm.Machine ω)
    (hm : i.mnemonic = .call) (hroom : (m.store.get .esp - 4).toNat + 4 ≤ m.store.memory.size) :
    Dispatches host (instruction chunk toLoop (i.dispatched target)).code [] m
      (pushed { m with store := m.store.set .t1 target } 4 i.nextAddress).store := by
  have hmnemonic : (i.dispatched target).mnemonic = .dynamicCall := if_neg (by rw [hm]; decide)
  have hpush : Executes host (pushConstant i.nextAddress) () { m with store := m.store.set .t1 target }
      (pushed { m with store := m.store.set .t1 target } 4 i.nextAddress) :=
    executes_bind (executes_emit rfl) (executes_pushValue host (by decide) i.nextAddress hroom)
  have hprologue : Executes host (prologue (i.dispatched target)) () m
      (pushed { m with store := m.store.set .t1 target } 4 i.nextAddress) := by
    rw [prologue, hmnemonic]
    exact executes_bind (executes_loadConstant host target m) (executes_bind (executes_setTarget host target m) hpush)
  refine dispatches_of_executes hprologue rfl ?_ ?_
  · rw [body, hmnemonic]
  · rw [updateFlags, hmnemonic]
    rfl

private theorem step_store_trap (host : Host Callee ω) (m : Wasm.Machine ω) {top : UInt32} (word : UInt32)
    (h : ¬ top.toNat + 4 ≤ m.store.memory.size) (rest : Code) (labels : List (Wasm.Label Callee)) :
    Config.step host ⟨.store .word :: rest, labels, (m.push (.i32 top)).push (.i32 word)⟩ = .stopped .trap := by
  have hstore : (Wasm.Instr.store .word : Wasm.Instr Callee).apply ((m.push (.i32 top)).push (.i32 word)) =
      .error .trap := if_neg h
  simp only [Config.step, hstore]

/-- A push traps if the stack is not in memory. -/
private theorem attains_pushValue_trap (host : Host Callee ω) (word : UInt32)
    (h : ¬ (m.store.get .esp - 4).toNat + 4 ≤ m.store.memory.size) :
    Attains host (pushValue .bits32).code (m.push (.i32 word)) fun c =>
      c.machine.store.get .t1 = m.store.get .t1 ∧ c.step host = .stopped .trap := by
  have htop : m.store.get .esp + (0 - 4) = m.store.get .esp - 4 := by
    rw [UInt32.sub_eq_add_neg 0, UInt32.zero_add, ← UInt32.sub_eq_add_neg]
  rw [← htop] at h
  have hlowered : Executes host
      (emit (.localSet Local.tmp :: moveStackPointer (0 - 4) ++ [getSlot .esp, .localGet Local.tmp])) ()
      (m.push (.i32 word))
      ((((m.setLocal Local.tmp (.i32 word)).setGlobal Slot.esp.index (m.store.get .esp + (0 - 4))).push
        (.i32 (m.store.get .esp + (0 - 4)))).push (.i32 word)) := executes_emit rfl
  have hstop := step_store_trap host
    ((m.setLocal Local.tmp (.i32 word)).setGlobal Slot.esp.index (m.store.get .esp + (0 - 4))) word h
  exact attains_bind hlowered fun rest labels => ⟨_, Relation.ReflTransGen.refl, rfl, hstop rest labels⟩

private theorem attains_call_trap (host : Host Callee ω) (chunk : UInt32) (toLoop : Nat) (m : Wasm.Machine ω)
    (hm : i.mnemonic = .call) (hroom : ¬ (m.store.get .esp - 4).toNat + 4 ≤ m.store.memory.size) :
    Attains host (instruction chunk toLoop (i.dispatched target)).code m fun c =>
      c.machine.store.get .t1 = target ∧ c.step host = .stopped .trap := by
  have hmnemonic : (i.dispatched target).mnemonic = .dynamicCall := if_neg (by rw [hm]; decide)
  refine attains_bind_left ?_ _
  rw [prologue, hmnemonic]
  refine attains_bind (executes_loadConstant host target m) (attains_bind (executes_setTarget host target m) ?_)
  refine attains_bind (executes_emit rfl) ?_
  exact attains_pushValue_trap host i.nextAddress hroom

end Lowering

/-! ### Decoded far branches -/

namespace X86

private theorem toUInt32_eq_wrap (value : Int64) : value.toUInt64.toUInt32 = UInt32.ofNat (wrap 32 value.toInt) := by
  have hmask : value.toUInt64.toUInt32 &&& OperandSize.bits32.mask = value.toUInt64.toUInt32 := by
    apply UInt32.toNat_inj.1
    rw [OperandSize.toNat_and_mask _ (by decide)]
    exact Nat.mod_eq_of_lt (UInt32.toNat_lt _)
  rw [← hmask]
  exact Lowering.and_mask_eq_wrap value (by decide)

/-- The two opcodes with far pointers. -/
private theorem Opcode.farPointer_of_mem_table {e : Opcode.Entry} (h : e ∈ Opcode.table)
    (hfar : e.opcode = 0x9a ∨ e.opcode = 0xea) :
    e.shape = .farPointer ∧ e.readsFirst = false ∧ e.mnemonic = if e.opcode = 0x9a then .call else .jump := by
  have hall : Opcode.table.all (fun e => !(e.opcode = 0x9a ∨ e.opcode = 0xea) ||
      e.shape = .farPointer && !e.readsFirst && e.mnemonic = if e.opcode = 0x9a then .call else .jump) = true := by
    decide +kernel
  have hentry := List.all_eq_true.1 hall e h
  simp only [hfar, decide_true, Bool.not_true, Bool.false_or, Bool.and_eq_true, decide_eq_true_eq,
    Bool.not_eq_true'] at hentry
  exact ⟨hentry.1.1, hentry.1.2, hentry.2⟩

private theorem isFar_of_decode (h : decode bytes address = .ok (i, n)) (hfar : i.opcode = 0x9a ∨ i.opcode = 0xea) :
    i.IsFar (Encoding.dispatchTarget bytes) ∧ (i.mnemonic = if i.opcode = 0x9a then .call else .jump) ∧
      (Encoding.offsetField bytes).length = if 0x66 ∈ Encoding.prefixes bytes then 2 else 4 := by
  obtain ⟨-, e, read, hnames, -, -, -, hi⟩ := exists_names_of_decode h
  obtain ⟨hmnemonic, -, ops, rest, hops, hoperands⟩ := operands_of_decode h hnames
  have hopcode : i.opcode = e.opcode := by rw [hi]
  rw [hopcode] at hfar
  obtain ⟨hshape, hfirst, hentry⟩ := Opcode.farPointer_of_mem_table hnames.1.1 hfar
  rw [hshape] at hops
  obtain ⟨selector, offset, field, rfl, hfield, hlength, hoffset⟩ := Fetch.eq_of_farPointer hops
  have hshort : (Encoding.prefixSet bytes).contains .operandSize = true ↔ 0x66 ∈ Encoding.prefixes bytes := by
    rw [Encoding.contains_prefixSet Prefixes.single_operandSize]
    exact List.contains_iff_mem
  simp only [hshort] at hfield hlength
  obtain rfl : field = Encoding.offsetField bytes := hfield
  have hbranch : i.mnemonic = if i.opcode = 0x9a then .call else .jump := by rw [hmnemonic, hopcode, hentry]
  have hword : offset.toUInt64.toUInt32 = Encoding.dispatchTarget bytes := by
    rw [Encoding.dispatchTarget, ← hoffset, toUInt32_eq_wrap]
  rw [hfirst] at hoperands
  refine ⟨⟨?_, selector, offset, _, _, hoperands, hword⟩, hbranch, hlength⟩
  rw [hbranch]
  split
  · exact .inl rfl
  · exact .inr rfl

/-- An offset is dispatched on as it is unless it is short and has its highest bit set. -/
theorem Encoding.dispatchTarget_eq_iff
    (h : (offsetField bytes).length = if 0x66 ∈ prefixes bytes then 2 else 4) :
    dispatchTarget bytes = farOffset bytes ↔ (0x66 ∈ prefixes bytes → (farOffset bytes).toNat < 2 ^ 15) := by
  have hlt := littleEndian_lt (offsetField bytes)
  rw [dispatchTarget, signedNumber, farOffset]
  by_cases hshort : 0x66 ∈ prefixes bytes
  · rw [if_pos hshort] at h
    rw [h] at hlt ⊢
    generalize littleEndian (offsetField bytes) = x at hlt ⊢
    have hx : (UInt32.ofNat x).toNat = x := UInt32.toNat_ofNat_of_lt' (by rw [UInt32.size]; omega)
    have hsigned : toSigned (8 * 2) x = if 2 ^ 15 ≤ x then (x : Int) - 2 * (2 ^ 15 : Nat) else x :=
      toSigned_eq (by omega) (by omega)
    rw [hx, hsigned]
    by_cases hsign : 2 ^ 15 ≤ x
    · -- The sign fills the upper half of the word with ones.
      have hwrap := wrap_of_near 32 (x := (x : Int) - 2 * (2 ^ 15 : Nat)) (by omega) (by omega)
      rw [if_pos (by omega)] at hwrap
      rw [if_pos hsign]
      refine iff_of_false (fun heq => ?_) (fun hlow => absurd (hlow hshort) (by omega))
      have hnat := congrArg UInt32.toNat heq
      rw [hx, UInt32.toNat_ofNat_of_lt' (by rw [UInt32.size]; omega)] at hnat
      omega
    · rw [if_neg hsign, wrap_natCast, Nat.mod_eq_of_lt (by omega)]
      exact iff_of_true rfl fun _ => by omega
  · rw [if_neg hshort] at h
    rw [h] at hlt ⊢
    have hwrap : wrap 32 (toSigned 32 (littleEndian (offsetField bytes))) = littleEndian (offsetField bytes) := by
      rw [toSigned, wrap_bmod, wrap_natCast, Nat.mod_eq_of_lt (by omega)]
    exact iff_of_true (congrArg UInt32.ofNat hwrap) fun hmem => absurd hmem hshort

end X86

private theorem dispatchesOn_of_isFar (hi : i.IsFar target) (h : X86.decode bytes i.address = .ok (i, n)) :
    DispatchesOn bytes i target where
  reads := hi.farTarget?_eq
  visited := by
    intro image limits p c r queue hcursor hbytes hfresh hroom
    have hstep := Search.step_of_isFar (p := p) queue hi h hcursor hbytes hfresh hroom
    refine ⟨hstep, ?_⟩
    rw [hstep]
    split <;> rfl
  kept := by
    intro image entries limits p hp hbytes c hc j hj haddress hreal
    exact hi.eq_of_discover h hbytes hp hc hj haddress hreal
  resolves := exists_resolution_of_isFar hi
  resolved := by
    intro image entries limits p q hp hq position index c hc hindex
    obtain ⟨-, -, -, hresolved⟩ := Program.resolvedTo_of_resolve (Program.wellBuilt_of_discover hp) hq
    obtain ⟨c', hc', hchunk⟩ := getElem?_of_forall₂ hresolved.flip hc
    obtain ⟨i', hi', hinstruction⟩ := getElem?_of_forall₂ hchunk.instructions.flip hindex
    exact ⟨c', hc', by rw [hi', hinstruction.eq_dispatched hi]⟩
  lowered := by
    intro chunk toLoop
    refine Lowering.outcome_of_dynamic chunk toLoop ?_ rfl (.inr ⟨_, .bits32, rfl, by decide⟩)
    rcases hi.mnemonic with hm | hm <;> simp [Instruction.dispatched, hm]
  jumps hm _ host chunk toLoop m := Lowering.dispatches_jump host chunk toLoop m hm
  calls hm _ host chunk toLoop m := by
    split
    · exact Lowering.dispatches_call host chunk toLoop m hm ‹_›
    · exact Lowering.attains_call_trap host chunk toLoop m hm ‹_›

/-- A far call or jump is dispatched on the offset in its bytes, extended by its sign.  This is the offset extended by
zeros, unless an operand-size prefix makes the offset short and its highest bit is set. -/
theorem dispatchesOn_of_decode (h : X86.decode bytes address = .ok (i, n)) (hfar : i.opcode = 0x9a ∨
    i.opcode = 0xea) :
    (i.mnemonic = if i.opcode = 0x9a then .call else .jump) ∧
    DispatchesOn bytes i (X86.Encoding.dispatchTarget bytes) ∧
      (DispatchesOn bytes i (X86.Encoding.farOffset bytes) ↔
        (0x66 ∈ X86.Encoding.prefixes bytes → (X86.Encoding.farOffset bytes).toNat < 2 ^ 15)) := by
  obtain ⟨hi, hmnemonic, hlength⟩ := X86.isFar_of_decode h hfar
  obtain ⟨haddress, -⟩ := X86.decode_eq_ok h
  subst haddress
  have hdispatches := dispatchesOn_of_isFar hi h
  refine ⟨hmnemonic, hdispatches, ?_⟩
  rw [← X86.Encoding.dispatchTarget_eq_iff hlength]
  constructor
  · intro hoffset
    exact Option.some.inj (hdispatches.reads.symm.trans hoffset.reads)
  · intro heq
    exact heq ▸ hdispatches

/-- The bytes of a far call and a return. -/
def farCall : List UInt8 := [0x9a, 0x78, 0x56, 0x34, 0x12, 0x08, 0x00, 0xc3]

/-- The target of a far call is no entry of the program, and the call is resolved to be dispatched on it. -/
theorem dispatchesOn_farCall :
    ∃ i p q c, X86.decode farCall 0x1000 = .ok (i, 7) ∧ i.mnemonic = .call ∧ DispatchesOn farCall i 0x12345678 ∧
      Program.discover (.flat 0x1000 farCall) [0x1000] {} = .ok p ∧ p.chunks.map Chunk.entry = [0x1000] ∧
      p.resolve (.flat 0x1000 farCall) = (q, none) ∧ q.chunks[0]? = some c ∧
      c.instructions[0]? = some (i.dispatched 0x12345678) := by
  have hdecode : X86.decode farCall 0x1000 =
      .ok (⟨{}, 0x9a, .call, [.imm 8 .bits16, .imm 0x12345678 .bits32], 0x1000, 0x1007⟩, 7) := by
    decide +kernel
  have htarget : X86.Encoding.dispatchTarget farCall = 0x12345678 := by decide +kernel
  obtain ⟨-, hdispatches, -⟩ := dispatchesOn_of_decode hdecode (.inl rfl)
  rw [htarget] at hdispatches
  obtain ⟨p, hp, hentries, herror, c, hc, hfirst⟩ : ∃ p, Program.discover (.flat 0x1000 farCall) [0x1000] {} = .ok p ∧
      p.chunks.map Chunk.entry = [0x1000] ∧ (p.resolve (.flat 0x1000 farCall)).2 = none ∧
      ∃ c ∈ p.chunks[0]?, c.instructions[0]? =
        some ⟨{}, 0x9a, .call, [.imm 8 .bits16, .imm 0x12345678 .bits32], 0x1000, 0x1007⟩ :=
    exists_of_any_toOption (by decide +kernel)
  have hq : p.resolve (.flat 0x1000 farCall) = ((p.resolve (.flat 0x1000 farCall)).1, none) := Prod.ext rfl herror
  obtain ⟨c', hc', hresolved⟩ := hdispatches.resolved _ _ _ p _ hp hq 0 0 c hc hfirst
  exact ⟨_, p, _, c', hdecode, rfl, hdispatches, hp, hentries, hq, hc', hresolved⟩

/-- A far jump with the short offset `8000` is dispatched on another address. -/
theorem not_dispatchesOn_farOffset :
    ∃ i, X86.decode [0x66, 0xea, 0x00, 0x80, 0x08, 0x00] 0x1000 = .ok (i, 6) ∧ i.opcode = 0xea ∧
      X86.Encoding.farOffset [0x66, 0xea, 0x00, 0x80, 0x08, 0x00] = 0x8000 ∧ i.farTarget? = some 0xffff8000 ∧
      ¬ DispatchesOn [0x66, 0xea, 0x00, 0x80, 0x08, 0x00] i 0x8000 := by
  have hdecode : X86.decode [0x66, 0xea, 0x00, 0x80, 0x08, 0x00] 0x1000 =
      .ok (⟨.operandSize, 0xea, .jump, [.imm 8 .bits16, .imm (-0x8000) .bits16], 0x1000, 0x1006⟩, 6) := by
    decide +kernel
  refine ⟨_, hdecode, rfl, by decide +kernel, by decide +kernel, fun hdispatches => ?_⟩
  exact absurd hdispatches.reads (by decide +kernel)

end Ia32Wasm
