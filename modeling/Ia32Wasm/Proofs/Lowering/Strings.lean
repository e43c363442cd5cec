import Ia32Wasm.Proofs.Lowering.Moves
import Mathlib.Logic.Function.Iterate

/-!
# String instructions

A string instruction works on one element at a time: it writes the element at the destination index and then moves on
to the next, up or down.  Under a repeat prefix it does so as often as the count register says.  The elements are
taken one after another, so that what an element writes is there for those that read it later.

* `moveElement` and `fillElement` are the store after one element.
* The code of an element takes this step (`executes_moveElement`, `executes_fillElement`).
* The loop around it takes the step as often as the count register says and leaves zero there (`runs_counted`).
-/

namespace Ia32Wasm

open Machine (Slot)
open Wasm (Completes Host)
open X86 (Instruction Operand OperandSize)

variable {ω : Type}

/-! ### Elements -/

namespace Wasm.Store

/-- How far it is to the next element: down when the direction flag is set. -/
def elementStep (s : Store ω) (size : OperandSize) : UInt32 :=
  if s.get (.flag .df) = 0 then UInt32.ofNat size.bytes else 0 - UInt32.ofNat size.bytes

/-- The store with an index moved on to the next element. -/
def advanced (s : Store ω) (size : OperandSize) (slot : Slot) : Store ω :=
  s.set slot (s.get slot + s.elementStep size)

/-- The store with a number as the element at the destination index. -/
def putElement (s : Store ω) (size : OperandSize) (number : Nat) : Store ω :=
  { s with memory := s.memory.write (s.get .edi).toNat size.bytes number }

/-- The store after the element at the source index has been copied to the destination index, and both have moved
on. -/
def moveElement (size : OperandSize) (s : Store ω) : Store ω :=
  ((s.putElement size (s.memory.read (s.get .esi).toNat size.bytes)).advanced size .esi).advanced size .edi

/-- The store after the accumulator has been stored at the destination index, which has moved on. -/
def fillElement (size : OperandSize) (s : Store ω) : Store ω :=
  (s.putElement size ((Operand.reg 0 size).value s)).advanced size .edi

/-- The element at an index lies in the memory that there is. -/
def ElementFits (s : Store ω) (size : OperandSize) (slot : Slot) : Prop :=
  (s.get slot).toNat + size.bytes ≤ s.memory.size

instance (s : Store ω) (size : OperandSize) (slot : Slot) : Decidable (s.ElementFits size slot) :=
  inferInstanceAs (Decidable (_ ≤ _))

variable (s : Store ω) (size : OperandSize)

private theorem elementStep_set {slot : Slot} (word : UInt32) (h : slot ≠ .flag .df) :
    (s.set slot word).elementStep size = s.elementStep size := by
  rw [elementStep, elementStep, s.get_set_of_ne word h.symm]

private theorem elementStep_advanced {slot : Slot} (h : slot ≠ .flag .df) :
    (s.advanced size slot).elementStep size = s.elementStep size :=
  s.elementStep_set size _ h

private theorem get_advanced {slot slot' : Slot} (h : slot ≠ slot') : (s.advanced size slot').get slot = s.get slot :=
  s.get_set_of_ne _ h

/-- Moving an index on has nothing to do with other slots but the direction. -/
private theorem advanced_set {slot slot' : Slot} (word : UInt32) (h : slot ≠ slot') (hdirection : slot' ≠ .flag .df) :
    (s.set slot' word).advanced size slot = (s.advanced size slot).set slot' word := by
  rw [advanced, s.elementStep_set size word hdirection, s.get_set_of_ne word h, s.set_comm _ _ h.symm]
  rfl

private theorem putElement_set {slot : Slot} (number : Nat) (word : UInt32) (h : slot ≠ .edi) :
    (s.set slot word).putElement size number = (s.putElement size number).set slot word := by
  rw [putElement, s.get_set_of_ne word h.symm]
  rfl

private theorem moveElement_set_ecx (word : UInt32) :
    (s.set .ecx word).moveElement size = (s.moveElement size).set .ecx word := by
  have hesi : (s.set .ecx word).get .esi = s.get .esi := s.get_set_of_ne word (by decide)
  rw [moveElement, hesi, memory_set, s.putElement_set size _ word (by decide),
    advanced_set _ _ _ (by decide) (by decide), advanced_set _ _ _ (by decide) (by decide), moveElement]

private theorem fillElement_set_ecx (word : UInt32) :
    (s.set .ecx word).fillElement size = (s.fillElement size).set .ecx word := by
  have hvalue : (Operand.reg 0 size).value (s.set .ecx word) = (Operand.reg 0 size).value s := by
    have hslot : X86.registerSlot 0 size ≠ .ecx := by cases size <;> decide
    show wordPart ((s.set .ecx word).get _) _ _ = wordPart (s.get _) _ _
    rw [s.get_set_of_ne word hslot]
  rw [fillElement, hvalue, s.putElement_set size _ word (by decide), advanced_set _ _ _ (by decide) (by decide),
    fillElement]

private theorem set_set (slot : Slot) (word word' : UInt32) :
    (s.set slot word).set slot word' = s.set slot word' := by
  simp only [set, setGlobal, mk.injEq, and_true]
  funext index
  split <;> rfl

private theorem get_moveElement {slot : Slot} (hesi : slot ≠ .esi) (hedi : slot ≠ .edi) :
    (s.moveElement size).get slot = s.get slot :=
  (get_advanced _ _ hedi).trans (get_advanced _ _ hesi)

private theorem get_fillElement {slot : Slot} (hedi : slot ≠ .edi) : (s.fillElement size).get slot = s.get slot :=
  get_advanced _ _ hedi

end Wasm.Store

/-- What a step leaves as it is, a number of steps leave as it is. -/
private theorem Wasm.Store.get_iterate {next : Wasm.Store ω → Wasm.Store ω} {slot : Slot}
    (h : ∀ s, (next s).get slot = s.get slot) (count : Nat) (s : Wasm.Store ω) :
    (next^[count] s).get slot = s.get slot := by
  induction count with
  | zero => rfl
  | succ count ih => rw [Function.iterate_succ_apply', h, ih]

namespace Lowering

variable {host : Host Callee ω} {m : Wasm.Machine ω} {size : OperandSize} {i : Instruction}

/-- The local for the step holds how far it is to the next element. -/
def Stepping (m : Wasm.Machine ω) (size : OperandSize) : Prop := m.locals Local.tmp = .i32 (m.store.elementStep size)

private theorem exec_stringStep (size : OperandSize) (m : Wasm.Machine ω) :
    Wasm.exec (stringStep (UInt32.ofNat size.bytes)) m =
      .ok (m.setLocal Local.tmp (.i32 (m.store.elementStep size))) := by
  have hselect : Wasm.exec (stringStep (UInt32.ofNat size.bytes)) m =
      .ok (m.setLocal Local.tmp (if m.store.get (.flag .df) = 0 then .i32 (UInt32.ofNat size.bytes)
        else .i32 (0 - UInt32.ofNat size.bytes))) := rfl
  rw [hselect, Wasm.Store.elementStep, apply_ite Wasm.Value.i32]

private theorem exec_advance (h : Stepping m size) (slot : Slot) :
    Wasm.exec (advance slot) m = .ok { m with store := m.store.advanced size slot } := by
  have htmp : m.locals Local.tmp = .i32 (m.store.elementStep size) := h
  unfold advance
  rw [Wasm.exec_cons rfl, Wasm.exec_localGet]
  show Wasm.exec _ ((m.push _).push (m.locals Local.tmp)) = _
  rw [htmp]
  rfl

/-- The code of one element: it is written at the destination index, and the indices move on. -/
def elementCode (element : OperandSize → Lowering Unit) (moved : Code) (size : OperandSize) : Lowering Unit := do
  emit [getSlot .edi]
  element size
  store size
  emit (moved ++ advance .edi)

private theorem emit_append (first second : Code) : emit (first ++ second) = (do emit first; emit second) := rfl

/-- The code of a string instruction is the code of one element, with a loop around it under a repeat prefix. -/
private theorem stringOn_eq (i : Instruction) (destination : Operand) (element : OperandSize → Lowering Unit)
    (moved : Code) :
    stringOn i destination element moved = (do
      let size ← scalarSize destination
      emit (stringStep (UInt32.ofNat size.bytes) ++
        if i.prefixes.intersects (.union .rep .repne) then repeatHead else [])
      elementCode element moved size
      emit (if i.prefixes.intersects (.union .rep .repne) then repeatTail else [])) := by
  simp only [stringOn, elementCode, emit_append, bind_assoc]

private theorem executes_elementCode {element : OperandSize → Lowering Unit} {moved : Code} {number : Nat}
    {m' : Wasm.Machine ω}
    (hsize : size ≠ .bits128) (hnumber : number < 2 ^ size.bits)
    (helement : Executes host (element size) () (m.push (.i32 (m.store.get .edi)))
      ((m.push (.i32 (m.store.get .edi))).push (.i32 (UInt32.ofNat number))))
    (hdestination : m.store.ElementFits size .edi)
    (hmoved : Wasm.exec (moved ++ advance .edi) { m with store := m.store.putElement size number } = .ok m') :
    Executes host (elementCode element moved size) () m m' := by
  have hword : (UInt32.ofNat number).toNat = number := UInt32.toNat_ofNat_of_lt' (Nat.lt_of_lt_of_le hnumber
    (Nat.pow_le_pow_right (by omega) (OperandSize.bits_le hsize)))
  have hstore : Executes host (store size) () ((m.push (.i32 (m.store.get .edi))).push (.i32 (UInt32.ofNat number)))
      { m with store := m.store.putElement size (UInt32.ofNat number).toNat } := executes_store hsize hdestination
  rw [hword] at hstore
  refine executes_bind (executes_emit (exec_getSlot .edi m)) (executes_bind helement ?_)
  exact executes_bind hstore (executes_emit hmoved)

/-- One element is moved from `esi` to `edi`, and both advance. -/
theorem executes_moveElement (host : Host Callee ω) (hsize : size ≠ .bits128) (h : Stepping m size)
    (hsource : m.store.ElementFits size .esi) (hdestination : m.store.ElementFits size .edi) :
    Executes host (elementCode (fun size => do emit [getSlot .esi]; load size) (advance .esi) size) () m
      { m with store := m.store.moveElement size } := by
  have hnumber : m.store.memory.read (m.store.get .esi).toNat size.bytes < 2 ^ size.bits :=
    size.pow_bytes ▸ m.store.memory.read_lt _ _
  refine executes_elementCode hsize hnumber
    (executes_bind (executes_emit (exec_getSlot .esi _)) (executes_load hsize hsource)) hdestination ?_
  let written : Wasm.Machine ω :=
    { m with store := m.store.putElement size (m.store.memory.read (m.store.get .esi).toNat size.bytes) }
  have hwritten : Stepping written size := h
  have hmoved : Stepping { written with store := written.store.advanced size .esi } size :=
    hwritten.trans (congrArg Wasm.Value.i32 (written.store.elementStep_advanced size Slot.noConfusion).symm)
  exact (Wasm.exec_append (exec_advance hwritten .esi)).trans (exec_advance hmoved .edi)

/-- One element is filled from the accumulator, and `edi` advances. -/
theorem executes_fillElement (host : Host Callee ω) (hsize : size ≠ .bits128) (h : Stepping m size)
    (hdestination : m.store.ElementFits size .edi) :
    Executes host (elementCode (fun _ => loadOperand (.reg 0 size)) [] size) () m
      { m with store := m.store.fillElement size } := by
  have hsource : (Operand.reg 0 size).Readable size := (Operand.writable_reg (by decide) hsize).toReadable
  have hwritten : Stepping { m with store := m.store.putElement size ((Operand.reg 0 size).value m.store) } size := h
  exact executes_elementCode hsize (hsource.value_lt m.store)
    (executes_loadOperand hsource (Operand.inBounds_reg _ _ _)) hdestination (exec_advance hwritten .edi)

/-! ### Counted loops -/

/-- A step on a store that neither looks at the count register nor changes the direction, where it can be taken. -/
structure IsElementStep (next : Wasm.Store ω → Wasm.Store ω) (fits : Wasm.Store ω → Prop) : Prop where
  count : ∀ s word, next (s.set .ecx word) = (next s).set .ecx word
  direction : ∀ s, (next s).get (.flag .df) = s.get (.flag .df)
  fits_count : ∀ s word, fits s → fits (s.set .ecx word)

section Counted

variable {next : Wasm.Store ω → Wasm.Store ω} {fits : Wasm.Store ω → Prop} {code : Code}

/-- The machine after `k` rounds of the loop of a repeat prefix: `k` steps have been taken, and the count register has
been lowered by `k`. -/
def afterRounds (next : Wasm.Store ω → Wasm.Store ω) (m : Wasm.Machine ω) (k : Nat) : Wasm.Machine ω :=
  { m with store := (next^[k] m.store).set .ecx (m.store.get .ecx - UInt32.ofNat k) }

private theorem afterRounds_zero (next : Wasm.Store ω → Wasm.Store ω) (m : Wasm.Machine ω) :
    afterRounds next m 0 = m := by
  show { m with store := m.store.set .ecx (m.store.get .ecx - 0) } = m
  rw [UInt32.sub_zero, Wasm.Store.set_get]

private theorem afterRounds_count (next : Wasm.Store ω → Wasm.Store ω) (m : Wasm.Machine ω) :
    afterRounds next m (m.store.get .ecx).toNat =
      { m with store := (next^[(m.store.get .ecx).toNat] m.store).set .ecx 0 } := by
  rw [afterRounds, UInt32.ofNat_toNat, UInt32.sub_self]

private theorem stepping_afterRounds (hnext : IsElementStep next fits) (h : Stepping m size) (k : Nat) :
    Stepping (afterRounds next m k) size := by
  have hdirection : (afterRounds next m k).store.get (.flag .df) = m.store.get (.flag .df) :=
    (Wasm.Store.get_set_of_ne _ _ (by decide)).trans (Wasm.Store.get_iterate hnext.direction k m.store)
  have hsame : (afterRounds next m k).store.elementStep size = m.store.elementStep size := by
    rw [Wasm.Store.elementStep, hdirection]
    rfl
  exact h.trans (congrArg Wasm.Value.i32 hsame.symm)

/-- The test in front of a round is whether the count register has come to zero. -/
private theorem runs_test (host : Host Callee ω) (next : Wasm.Store ω → Wasm.Store ω) (m : Wasm.Machine ω) (k : Nat) :
    Wasm.Runs host [getSlot .ecx, .op .i32Eqz] (afterRounds next m k)
      ((afterRounds next m k).push (.ofBool (m.store.get .ecx - UInt32.ofNat k == 0))) := by
  have hget : (afterRounds next m k).store.get .ecx = m.store.get .ecx - UInt32.ofNat k :=
    Wasm.Store.get_set_self _ _ _
  rw [← hget]
  exact Wasm.runs_of_exec rfl

private theorem sub_ofNat_ne_zero {count : UInt32} {k : Nat} (hk : k < count.toNat) : count - UInt32.ofNat k ≠ 0 := by
  intro hzero
  have hdifference : (count - UInt32.ofNat k).toNat = 0 := congrArg UInt32.toNat hzero
  have hlt := count.toNat_lt
  rw [UInt32.toNat_sub, UInt32.toNat_ofNat'] at hdifference
  omega

/-- A round takes one step and lowers the count register by one. -/
private theorem runs_round (hnext : IsElementStep next fits)
    (hcode : ∀ m : Wasm.Machine ω, Stepping m size → fits m.store →
      Wasm.Runs host code m { m with store := next m.store })
    (hstep : Stepping m size) {k : Nat} (hfits : fits (next^[k] m.store)) :
    Wasm.Runs host (code ++ addToGlobal Slot.ecx.index 0xffffffff) (afterRounds next m k)
      (afterRounds next m (k + 1)) := by
  have hround := hcode _ (stepping_afterRounds hnext hstep k) (hnext.fits_count _ _ hfits)
  refine Wasm.runs_append hround (Wasm.runs_of_exec ?_)
  have hcount : (next (afterRounds next m k).store).get .ecx = m.store.get .ecx - UInt32.ofNat k := by
    rw [afterRounds, hnext.count, Wasm.Store.get_set_self]
  have hlowered : m.store.get .ecx - UInt32.ofNat k + 0xffffffff = m.store.get .ecx - UInt32.ofNat (k + 1) := by
    rw [UInt32.ofNat_add]
    grind
  have hstore : (next (afterRounds next m k).store).set .ecx
      ((next (afterRounds next m k).store).get .ecx + 0xffffffff) = (afterRounds next m (k + 1)).store := by
    rw [hcount, hlowered, afterRounds, hnext.count, Wasm.Store.set_set, afterRounds, Function.iterate_succ_apply']
  exact congrArg (fun store => Except.ok { m with store }) hstore

/-- The loop of a repeat prefix takes a step as often as the count register says, and leaves zero in it. -/
theorem runs_counted (hnext : IsElementStep next fits)
    (hcode : ∀ m : Wasm.Machine ω, Stepping m size → fits m.store →
      Wasm.Runs host code m { m with store := next m.store })
    (hnest : Wasm.nest 0 0 code = some 0) (hstep : Stepping m size)
    (hfits : ∀ k < (m.store.get .ecx).toNat, fits (next^[k] m.store)) :
    Wasm.Runs host (repeatHead ++ code ++ repeatTail) m
      { m with store := (next^[(m.store.get .ecx).toNat] m.store).set .ecx 0 } := by
  have hgoes : ∀ k < (m.store.get .ecx).toNat,
      Wasm.Runs host [getSlot .ecx, .op .i32Eqz] (afterRounds next m k) ((afterRounds next m k).push (.i32 0)) ∧
        Wasm.Runs host (code ++ addToGlobal Slot.ecx.index 0xffffffff) (afterRounds next m k)
          (afterRounds next m (k + 1)) := by
    intro k hk
    have htest := runs_test host next m k
    rw [beq_eq_false_iff_ne.2 (sub_ofNat_ne_zero hk)] at htest
    exact ⟨htest, runs_round hnext hcode hstep (hfits k hk)⟩
  have hleaves := runs_test host next m (m.store.get .ecx).toNat
  rw [UInt32.ofNat_toNat, UInt32.sub_self] at hleaves
  have hbodyNest : Wasm.nest 0 0 (code ++ addToGlobal Slot.ecx.index 0xffffffff) = some 0 := by
    rw [Wasm.nest_append, hnest]
    rfl
  have hloop := Wasm.runs_repeat hgoes hleaves (by decide) (fun _ _ => rfl) rfl hbodyNest
  rw [afterRounds_zero, afterRounds_count] at hloop
  simpa [repeatHead, repeatTail] using hloop

end Counted

/-! ### Instructions -/

/-- The instruction has a repeat prefix. -/
def repeats (i : Instruction) : Bool := i.prefixes.intersects (.union .rep .repne)

/-- How often a string instruction takes its step. -/
def elementCount (i : Instruction) (s : Wasm.Store ω) : Nat := if repeats i then (s.get .ecx).toNat else 1

/-- The store after a string instruction with a step. -/
def afterElements (i : Instruction) (next : Wasm.Store ω → Wasm.Store ω) (s : Wasm.Store ω) : Wasm.Store ω :=
  if repeats i then (next^[elementCount i s] s).set .ecx 0 else next^[elementCount i s] s

private theorem leaves_stringOn {element : OperandSize → Lowering Unit} {moved : Code} {destination : Operand}
    {next : Wasm.Store ω → Wasm.Store ω} {fits : Wasm.Store ω → Prop} (chunk : UInt32) (toLoop : Nat)
    (hcode : computation? i = some (stringOn i destination element moved)) (hflags : flagsOf? i.mnemonic = none)
    (hdestination : destination.Readable size) (hnext : IsElementStep next fits)
    (helement : ∀ m : Wasm.Machine ω, Stepping m size → fits m.store →
      Executes host (elementCode element moved size) () m { m with store := next m.store })
    (houtcome : (elementCode element moved size).outcome = .ok ())
    (hnest : Wasm.nest 0 0 (elementCode element moved size).code = some 0)
    (hfits : ∀ k < elementCount i m.store, fits (next^[k] m.store)) :
    Leaves host chunk toLoop i m fun s => s = afterElements i next m.store := by
  let staged := m.setLocal Local.tmp (.i32 (m.store.elementStep size))
  have hstaged : Stepping staged size := rfl
  have hbody : Executes host (stringOn i destination element moved) () m
      { staged with store := afterElements i next m.store } := by
    rw [stringOn_eq]
    refine executes_bind (executes_scalarSize hdestination m) ?_
    have hstep := exec_stringStep size m
    unfold elementCount repeats at hfits
    unfold afterElements elementCount repeats
    split
    · rename_i hrepeats
      simp only [hrepeats, if_true] at hfits ⊢
      refine ⟨outcome_bind rfl (outcome_bind houtcome rfl), ?_⟩
      have hloop := runs_counted hnext (fun m hm hfits => (helement m hm hfits).runs) hnest hstaged hfits
      have hruns := Wasm.runs_append (Wasm.runs_of_exec hstep) hloop
      rw [bind_code_of_ok rfl, bind_code_of_ok houtcome]
      simp only [emit, List.append_assoc] at hruns ⊢
      exact hruns
    · rename_i hrepeats
      simp only [hrepeats] at hfits ⊢
      have hfirst := helement staged hstaged (hfits 0 Nat.one_pos)
      refine executes_bind (executes_emit ?_) (executes_bind hfirst (executes_emit rfl))
      rw [List.append_nil]
      exact hstep
  exact leaves_computation hcode hflags hbody rfl rfl

private theorem get_afterElements {next : Wasm.Store ω → Wasm.Store ω} {slot : Slot} (i : Instruction)
    (h : ∀ s, (next s).get slot = s.get slot) (hslot : slot ≠ .ecx) (s : Wasm.Store ω) :
    (afterElements i next s).get slot = s.get slot := by
  unfold afterElements
  split
  · rw [Wasm.Store.get_set_of_ne _ _ hslot, Wasm.Store.get_iterate h]
  · exact Wasm.Store.get_iterate h _ s

private theorem get_ecx_afterElements {next : Wasm.Store ω → Wasm.Store ω} (i : Instruction)
    (h : ∀ s, (next s).get .ecx = s.get .ecx) (s : Wasm.Store ω) :
    (afterElements i next s).get .ecx = if repeats i then 0 else s.get .ecx := by
  unfold afterElements
  split
  · exact Wasm.Store.get_set_self _ _ _
  · exact Wasm.Store.get_iterate h _ s

/-- Without elements nothing is done. -/
private theorem afterElements_eq_self {next : Wasm.Store ω → Wasm.Store ω} {s : Wasm.Store ω}
    (h : elementCount i s = 0) : afterElements i next s = s := by
  have hrepeats : repeats i = true := by
    by_contra hnot
    rw [elementCount, if_neg hnot] at h
    omega
  have hecx : s.get .ecx = 0 := by
    rw [elementCount, if_pos hrepeats] at h
    exact UInt32.toNat_inj.1 h
  rw [afterElements, if_pos hrepeats, h, ← hecx]
  exact s.set_get .ecx

private theorem isElementStep_moveElement (size : OperandSize) :
    IsElementStep (ω := ω) (Wasm.Store.moveElement size) fun s =>
      s.ElementFits size .esi ∧ s.ElementFits size .edi where
  count s word := s.moveElement_set_ecx size word
  direction s := s.get_moveElement size (by decide) (by decide)
  fits_count s word h := by
    unfold Wasm.Store.ElementFits
    rw [s.get_set_of_ne word (by decide), s.get_set_of_ne word (by decide)]
    exact h

private theorem isElementStep_fillElement (size : OperandSize) :
    IsElementStep (ω := ω) (Wasm.Store.fillElement size) fun s => s.ElementFits size .edi where
  count s word := s.fillElement_set_ecx size word
  direction s := s.get_fillElement size (by decide)
  fits_count s word h := by
    unfold Wasm.Store.ElementFits
    rw [s.get_set_of_ne word (by decide)]
    exact h

private theorem readable_pointer (hsize : size ≠ .bits128) : (Operand.pointer 7 size).Readable size :=
  ⟨.inl hsize, (by decide : (7 : UInt8).toNat < 8), trivial, rfl⟩

private theorem leaves_movs (host : Host Callee ω) (chunk : UInt32) (toLoop : Nat) (hm : i.mnemonic = .movs)
    (hsize : size ≠ .bits128) (hoperands : i.operands = [.pointer 7 size, .pointer 6 size])
    (hfits : ∀ k < elementCount i m.store, ((Wasm.Store.moveElement size)^[k] m.store).ElementFits size .esi ∧
      ((Wasm.Store.moveElement size)^[k] m.store).ElementFits size .edi) :
    Leaves host chunk toLoop i m fun s => s = afterElements i (Wasm.Store.moveElement size) m.store := by
  have hcode : computation? i = some (stringOn i (.pointer 7 size)
      (fun size => do emit [getSlot .esi]; load size) (advance .esi)) := by
    rw [computation?, hm]
    show some (moveString i) = _
    rw [moveString, hoperands]
  refine leaves_stringOn chunk toLoop hcode (by rw [hm]; rfl) (readable_pointer hsize)
    (isElementStep_moveElement size)
    (fun m hm h => executes_moveElement host hsize hm h.1 h.2) ?_ ?_ hfits
  · cases size <;> first | rfl | exact absurd rfl hsize
  · cases size <;> rfl

private theorem leaves_stos (host : Host Callee ω) (chunk : UInt32) (toLoop : Nat) (hm : i.mnemonic = .stos)
    (hsize : size ≠ .bits128) (hoperands : i.operands = [.pointer 7 size, .reg 0 size])
    (hfits : ∀ k < elementCount i m.store, ((Wasm.Store.fillElement size)^[k] m.store).ElementFits size .edi) :
    Leaves host chunk toLoop i m fun s => s = afterElements i (Wasm.Store.fillElement size) m.store := by
  have hcode : computation? i = some (stringOn i (.pointer 7 size) (fun _ => loadOperand (.reg 0 size)) []) := by
    rw [computation?, hm]
    show some (fillString i) = _
    rw [fillString, hoperands]
  refine leaves_stringOn chunk toLoop hcode (by rw [hm]; rfl) (readable_pointer hsize)
    (isElementStep_fillElement size)
    (fun m hm h => executes_fillElement host hsize hm h) ?_ ?_ hfits
  · cases size <;> first | rfl | exact absurd rfl hsize
  · cases size <;> rfl

/-! ### Decoded instructions -/

/-- A decoded string instruction comes to its end from every state with all elements that it takes in memory, and
takes them one after another: as many as the count register says under a repeat prefix, which leaves zero in it, and
one without.  Besides the indices that move on and the memory that is written, nothing is changed. -/
theorem leaves_strings_of_decode {bytes : List UInt8} {address : UInt32} {n : Nat}
    (h : X86.decode bytes address = .ok (i, n)) (host : Host Callee ω) (chunk : UInt32) (toLoop : Nat)
    (m : Wasm.Machine ω) :
    (i.mnemonic = .movs →
      ∃ size, size.bits ∈ [8, 16, 32] ∧ i.operands = [.pointer 7 size, .pointer 6 size] ∧
        ((∀ k < elementCount i m.store, ((Wasm.Store.moveElement size)^[k] m.store).ElementFits size .esi ∧
            ((Wasm.Store.moveElement size)^[k] m.store).ElementFits size .edi) →
          Leaves host chunk toLoop i m fun s =>
            s = afterElements i (Wasm.Store.moveElement size) m.store ∧
              s.get .ecx = (if repeats i then 0 else m.store.get .ecx) ∧
              (elementCount i m.store = 0 → s = m.store) ∧
              ∀ slot, slot ≠ .ecx → slot ≠ .esi → slot ≠ .edi → s.get slot = m.store.get slot)) ∧
    (i.mnemonic = .stos →
      ∃ size, size.bits ∈ [8, 16, 32] ∧ i.operands = [.pointer 7 size, .reg 0 size] ∧
        ((∀ k < elementCount i m.store, ((Wasm.Store.fillElement size)^[k] m.store).ElementFits size .edi) →
          Leaves host chunk toLoop i m fun s =>
            s = afterElements i (Wasm.Store.fillElement size) m.store ∧
              s.get .ecx = (if repeats i then 0 else m.store.get .ecx) ∧
              (elementCount i m.store = 0 → s = m.store) ∧
              ∀ slot, slot ≠ .ecx → slot ≠ .edi → s.get slot = m.store.get slot)) := by
  constructor
  · intro hm
    obtain ⟨size, hsize, hoperands⟩ :=
      X86.operands_of_string .move (.pointer 6) rfl (fun _ _ _ => rfl) h hm
    refine ⟨size, OperandSize.bits_mem hsize, hoperands, fun hfits => ?_⟩
    obtain ⟨houtcome, m', hcompletes, hstack, hstore⟩ := leaves_movs host chunk toLoop hm hsize hoperands hfits
    refine ⟨houtcome, m', hcompletes, hstack, hstore, ?_, fun hcount => hstore.trans
      (afterElements_eq_self hcount), ?_⟩
    · rw [hstore]
      exact get_ecx_afterElements i (fun s => s.get_moveElement size (by decide) (by decide)) m.store
    · intro slot hecx hesi hedi
      rw [hstore]
      exact get_afterElements i (fun s => s.get_moveElement size hesi hedi) hecx m.store
  · intro hm
    obtain ⟨size, hsize, hoperands⟩ :=
      X86.operands_of_string .fill (.reg 0) rfl (fun _ _ _ => rfl) h hm
    refine ⟨size, OperandSize.bits_mem hsize, hoperands, fun hfits => ?_⟩
    obtain ⟨houtcome, m', hcompletes, hstack, hstore⟩ := leaves_stos host chunk toLoop hm hsize hoperands hfits
    refine ⟨houtcome, m', hcompletes, hstack, hstore, ?_, fun hcount => hstore.trans
      (afterElements_eq_self hcount), ?_⟩
    · rw [hstore]
      exact get_ecx_afterElements i (fun s => s.get_fillElement size (by decide)) m.store
    · intro slot hecx hedi
      rw [hstore]
      exact get_afterElements i (fun s => s.get_fillElement size hedi) hecx m.store

/-- Three bytes to be moved up by one, of which the first is set. -/
def overlapping : Wasm.Store Unit where
  globals := fun index => if index = 1 then 3 else if index = 6 then 8 else if index = 7 then 9 else 0
  memory := ⟨0x40, fun a => if a = 8 then 0x41 else 0⟩
  world := ()

/-- Bytes that are moved up onto themselves are all the first. -/
theorem leaves_strings_of_decode_overlapping :
    ∃ i m', X86.decode [0xf3, 0xa4] 0x1000 = .ok (i, 2) ∧
      Completes (fun _ _ => .error .trap) (instruction 0 0 i).code (.start overlapping) m' ∧
      m'.store.memory.read 8 4 = 0x41414141 ∧ m'.store.get .edi = 12 ∧ m'.store.get .ecx = 0 := by
  have hdecode : X86.decode [0xf3, 0xa4] 0x1000 =
      .ok (⟨.rep, 0xa4, .movs, [.pointer 7 .bits8, .pointer 6 .bits8], 0x1000, 0x1002⟩, 2) := by decide +kernel
  obtain ⟨hmovs, -⟩ := leaves_strings_of_decode hdecode (fun _ _ => .error .trap) 0 0 (.start overlapping)
  obtain ⟨size, -, hoperands, hleaves⟩ := hmovs rfl
  cases hoperands
  obtain ⟨-, m', hcompletes, -, hstore, hecx, -⟩ := hleaves (by decide +kernel)
  refine ⟨_, m', hdecode, hcompletes, ?_, ?_, hecx⟩
  · rw [hstore]
    decide +kernel
  · rw [hstore]
    decide +kernel

end Lowering

end Ia32Wasm
