import Ia32Wasm.Lowering.Instruction
import Ia32Wasm.Machine.State
import Ia32Wasm.Proofs.Wasm.Straight
import Ia32Wasm.Proofs.X86.Forms

/-!
# The packed flags word

A state packs its flags into one word, and code packs the flag slots into one to push it onto the stack.  Both put
every flag at the same place.

* The word of a flag is the bit of the packed word at its position (`State.get_flag`), whether the word is packed
  (`State.get_shiftLeft`) or unpacked (`State.get_setEflags`).
* `exec_pushValue` and `exec_popValue` are what a push and a pop do to the machine.
* Code packs and unpacks the flags one after the other, so what it does follows by induction on the flags
  (`exec_packFlags`, `exec_unpackFlags`).
-/

namespace Ia32Wasm

open X86 (Instruction OperandSize)

/-! ### Bits of a word -/

namespace Machine

/-- There are no other flags than those of the list. -/
theorem Flag.mem_all (f : Flag) : f ∈ Flag.all := by cases f <;> decide

/-- Different flags are in different slots. -/
theorem Slot.flag_index_inj {f g : Flag} : (Slot.flag f).index = (Slot.flag g).index ↔ f = g := by
  cases f <;> cases g <;> decide

namespace Flags

private theorem toBitVec_mask (f : Flag) : (mask f).toBitVec = BitVec.twoPow 32 f.bit := by cases f <;> rfl

private theorem and_mask (word : UInt32) (f : Flag) :
    word &&& mask f = if word.toBitVec.getLsbD f.bit then mask f else 0 := by
  rw [← UInt32.toBitVec_inj, UInt32.toBitVec_and, toBitVec_mask, BitVec.and_twoPow]
  split
  · exact (toBitVec_mask f).symm
  · rfl

/-- A flag is set if its bit is. -/
theorem contains_eq_getLsbD (flags : Flags) (f : Flag) : flags.contains f = flags.bits.toBitVec.getLsbD f.bit := by
  have hne : 0 ≠ mask f := by cases f <;> decide
  rw [contains, and_mask]
  cases flags.bits.toBitVec.getLsbD f.bit <;> simp [hne]

/-- A bit that is shifted to the end and masked is one or zero. -/
theorem shiftRight_and_one (word : UInt32) (f : Flag) :
    (word >>> UInt32.ofNat f.bit) &&& 1 = if word.toBitVec.getLsbD f.bit then 1 else 0 := by
  have hshift : (word >>> UInt32.ofNat f.bit).toBitVec = word.toBitVec >>> f.bit := by
    rw [UInt32.toBitVec_shiftRight, BitVec.ushiftRight_eq']
    congr 1
    cases f <;> rfl
  rw [← UInt32.toBitVec_inj, UInt32.toBitVec_and, hshift]
  show (word.toBitVec >>> f.bit) &&& 1#32 = _
  rw [BitVec.and_one_eq_setWidth_ofBool_getLsbD, BitVec.getLsbD_ushiftRight, Nat.add_zero]
  cases word.toBitVec.getLsbD f.bit <;> rfl

private theorem and_or_distrib (a b c : UInt32) : a &&& (b ||| c) = a &&& b ||| a &&& c :=
  UInt32.toBitVec_inj.1 BitVec.and_or_distrib_left

/-- The bits of several flags are those of each of them. -/
theorem foldl_or_and_mask (flags : List Flag) (word start all : UInt32) :
    flags.foldl (fun packed f => packed ||| (word &&& mask f)) (start ||| (word &&& all)) =
      start ||| (word &&& flags.foldl (fun all f => all ||| mask f) all) := by
  induction flags generalizing all with
  | nil => rfl
  | cons f flags ih =>
    have hstep : start ||| (word &&& all) ||| (word &&& mask f) = start ||| (word &&& (all ||| mask f)) := by
      rw [UInt32.or_assoc, ← and_or_distrib]
    rw [List.foldl_cons, List.foldl_cons, hstep, ih]

end Flags

namespace State

/-- The slot of a flag holds its bit. -/
theorem get_flag (s : State) (f : Flag) :
    s.get (.flag f) = if s.flags.bits.toBitVec.getLsbD f.bit then 1 else 0 := by
  rw [get, Flags.contains_eq_getLsbD]

/-- A slot that is shifted to the bit of its flag is the flag alone. -/
theorem get_shiftLeft (s : State) (f : Flag) :
    s.get (.flag f) <<< UInt32.ofNat f.bit = s.flags.bits &&& Flags.mask f := by
  rw [get_flag, Flags.and_mask]
  split
  · cases f <;> rfl
  · cases f <;> rfl

/-- Flags are set from the bits of a word. -/
theorem get_setEflags (s : State) (word : UInt32) (f : Flag) :
    (s.setEflags word).get (.flag f) = (word >>> UInt32.ofNat f.bit) &&& 1 := by
  have hknown : Flags.known.toBitVec.getLsbD f.bit = true := by cases f <;> decide
  rw [get_flag, Flags.shiftRight_and_one]
  simp only [setEflags, UInt32.toBitVec_and, BitVec.getLsbD_and, hknown, Bool.and_true]

/-- A state without other bits keeps its flags when it takes them from its own word. -/
theorem setEflags_eflags {s : State} (hs : s.flags.bits &&& Flags.known = s.flags.bits) :
    s.setEflags s.eflags = s := by
  have hreserved : Flags.known &&& reservedBit = 0 := by decide
  have hbits : s.eflags &&& Flags.known = s.flags.bits := by
    rw [eflags, UInt32.and_comm, Flags.and_or_distrib, hreserved, UInt32.or_zero, UInt32.and_comm, hs]
  rw [setEflags, hbits]

private theorem eflags_setEflags (s : State) (word : UInt32) :
    (s.setEflags word).eflags = (word &&& 0xcd5) ||| 2 := rfl

/-- The slots of the flags hold those of the state. -/
def FlagsIn {ω : Type} (s : State) (store : Wasm.Store ω) : Prop :=
  ∀ f, store.globals (Slot.flag f).index = s.get (.flag f)

end State

end Machine

namespace Lowering

open Machine (Flag Flags Slot State)
open Wasm (Completes Host exec exec_append exec_cons)

variable {ω : Type} {m : Wasm.Machine ω} {word : UInt32}

/-! ### The stack -/

/-- The machine after a push of the low bytes of a word. -/
def pushed (m : Wasm.Machine ω) (count : Nat) (word : UInt32) : Wasm.Machine ω :=
  let top := m.store.globals Slot.esp.index - UInt32.ofNat count
  { m.setLocal Local.tmp (.i32 word) with
    store :=
      { m.store.setGlobal Slot.esp.index top with memory := m.store.memory.write top.toNat count word.toNat } }

/-- The machine after bytes are popped into nowhere. -/
def popped (m : Wasm.Machine ω) (count : Nat) : Wasm.Machine ω :=
  m.setGlobal Slot.esp.index (m.store.globals Slot.esp.index + UInt32.ofNat count)

private theorem globals_pushed (m : Wasm.Machine ω) (count : Nat) (word : UInt32) (index : Nat) :
    (pushed m count word).store.globals index =
      if index = Slot.esp.index then m.store.globals Slot.esp.index - UInt32.ofNat count else m.store.globals index :=
      rfl

private theorem globals_popped (m : Wasm.Machine ω) (count index : Nat) :
    (popped m count).store.globals index =
      if index = Slot.esp.index then m.store.globals Slot.esp.index + UInt32.ofNat count else m.store.globals index :=
      rfl

/-- A value is pushed below the top of the stack. -/
theorem exec_pushValue {size : OperandSize} {a : Wasm.Access} (ha : access? size = some a)
    (h : (m.store.globals Slot.esp.index - UInt32.ofNat a.bytes).toNat + a.bytes ≤ m.store.memory.size) :
    exec (pushValue size).code (m.push (.i32 word)) = .ok (pushed m a.bytes word) := by
  have htop : m.store.globals Slot.esp.index + (0 - UInt32.ofNat a.bytes) =
      m.store.globals Slot.esp.index - UInt32.ofNat a.bytes := by grind
  rw [pushed]
  rw [← htop] at h ⊢
  generalize hdelta : 0 - UInt32.ofNat a.bytes = delta at h ⊢
  have hstore : (Wasm.Instr.store a : Wasm.Instr Callee).apply
      ((((m.setLocal Local.tmp (.i32 word)).setGlobal Slot.esp.index (m.store.globals Slot.esp.index + delta)).push
        (.i32 (m.store.globals Slot.esp.index + delta))).push (.i32 word)) = .ok _ := if_pos h
  cases size with
  | bits8 | bits16 | bits32 =>
    cases ha
    subst hdelta
    exact (exec_append rfl).trans (exec_cons hstore)
  | bits128 => cases ha

/-- A value is popped from the top of the stack. -/
theorem exec_popValue {size : OperandSize} {a : Wasm.Access} (ha : access? size = some a)
    (h : (m.store.globals Slot.esp.index).toNat + a.bytes ≤ m.store.memory.size) :
    exec (popValue size).code m = .ok ((popped m a.bytes).push
      (.i32 (UInt32.ofNat (m.store.memory.read (m.store.globals Slot.esp.index).toNat a.bytes)))) := by
  have hload : (Wasm.Instr.load a : Wasm.Instr Callee).apply (m.push (.i32 (m.store.globals Slot.esp.index))) =
      .ok (m.push (.i32 (UInt32.ofNat (m.store.memory.read (m.store.globals Slot.esp.index).toNat a.bytes)))) :=
    if_pos h
  cases size with
  | bits8 | bits16 | bits32 =>
    cases ha
    exact (exec_cons rfl).trans (exec_cons hload)
  | bits128 => cases ha

/-! ### Packing -/

/-- The flags of a list, packed over a word. -/
theorem exec_packFlags (flags : List Flag) (m : Wasm.Machine ω) (word : UInt32) :
    exec (flags.flatMap fun f => [getFlag f, .i32Const (UInt32.ofNat f.bit), .op .i32Shl, .op .i32Or])
        (m.push (.i32 word)) =
      .ok (m.push (.i32 (flags.foldl
        (fun packed f => packed ||| (m.store.globals (Slot.flag f).index <<< UInt32.ofNat f.bit)) word))) := by
  induction flags generalizing word with
  | nil => rfl
  | cons f flags ih => exact (exec_append rfl).trans (ih _)

private theorem exec_packedFlags {s : State} (hs : s.flags.bits &&& Flags.known = s.flags.bits)
    (h : s.FlagsIn m.store) :
    exec packedFlags m = .ok (m.push (.i32 s.eflags)) := by
  have hword : Flag.all.foldl
      (fun packed f => packed ||| (m.store.globals (Slot.flag f).index <<< UInt32.ofNat f.bit)) 2 = s.eflags := by
    have hpacked := Flags.foldl_or_and_mask Flag.all s.flags.bits 2 0
    rw [← Flags.known, hs, UInt32.and_zero, UInt32.or_zero] at hpacked
    simp only [h _, State.get_shiftLeft]
    rw [hpacked, UInt32.or_comm]
    rfl
  rw [packedFlags, exec_cons rfl, exec_packFlags, hword]

/-! ### Unpacking -/

/-- A bit of a word is taken by a shift and a mask. -/
theorem exec_bitAt (m : Wasm.Machine ω) (word : UInt32) (bit : Nat) :
    exec (bitAt bit) (m.push (.i32 word)) = .ok (m.push (.i32 ((word >>> UInt32.ofNat bit) &&& 1))) := by
  by_cases hbit : bit = 0
  · subst hbit
    have hshift : word >>> UInt32.ofNat 0 = word := UInt32.shiftRight_zero
    rw [hshift]
    rfl
  · rw [bitAt, if_neg hbit]
    rfl

/-- The machine with the flags of a list set to the bits of a word. -/
def withFlags (word : UInt32) (flags : List Flag) (m : Wasm.Machine ω) : Wasm.Machine ω :=
  flags.foldl (fun m f => m.setGlobal (Slot.flag f).index ((word >>> UInt32.ofNat f.bit) &&& 1)) m

/-- Flags that are unpacked one by one are all set from the same word. -/
theorem exec_unpackFlags (flags : List Flag) (hword : m.locals Local.lhs = .i32 word) :
    exec (flags.flatMap fun f => setFlag f (.localGet Local.lhs :: bitAt f.bit)) m =
    .ok (withFlags word flags m) := by
  induction flags generalizing m with
  | nil => rfl
  | cons f flags ih =>
    have hget : (Wasm.Instr.localGet Local.lhs : Wasm.Instr Callee).apply m = .ok (m.push (.i32 word)) := by
      rw [← hword]
      rfl
    have hstep : exec (setFlag f (.localGet Local.lhs :: bitAt f.bit)) m =
        .ok (m.setGlobal (Slot.flag f).index ((word >>> UInt32.ofNat f.bit) &&& 1)) := by
      rw [setFlag, List.cons_append, exec_cons hget, exec_append (exec_bitAt m word f.bit)]
      rfl
    rw [List.flatMap_cons, exec_append hstep]
    exact ih hword

/-- Of a machine, unpacking changes the flags. -/
private theorem withFlags_frame (word : UInt32) (flags : List Flag) (m : Wasm.Machine ω) :
    (withFlags word flags m).stack = m.stack ∧ (withFlags word flags m).locals = m.locals ∧
      (withFlags word flags m).store.memory = m.store.memory ∧
      (withFlags word flags m).store.world = m.store.world := by
  induction flags generalizing m with
  | nil => exact ⟨rfl, rfl, rfl, rfl⟩
  | cons f flags ih => exact ih _

private theorem globals_withFlags_of_ne {flags : List Flag} {index : Nat}
    (h : ∀ f ∈ flags, index ≠ (Slot.flag f).index) :
    (withFlags word flags m).store.globals index = m.store.globals index := by
  induction flags generalizing m with
  | nil => rfl
  | cons f flags ih =>
    rw [List.forall_mem_cons] at h
    exact (ih h.2).trans (if_neg h.1)

private theorem globals_withFlags {flags : List Flag} {f : Flag} (h : f ∈ flags) :
    (withFlags word flags m).store.globals (Slot.flag f).index = (word >>> UInt32.ofNat f.bit) &&& 1 := by
  induction flags generalizing m with
  | nil => cases h
  | cons g flags ih =>
    by_cases hmem : f ∈ flags
    · exact ih hmem
    · obtain rfl : f = g := (List.mem_cons.1 h).resolve_right hmem
      have hne : ∀ g ∈ flags, (Slot.flag f).index ≠ (Slot.flag g).index := fun g hg heq =>
        hmem (Slot.flag_index_inj.1 heq ▸ hg)
      exact (globals_withFlags_of_ne hne).trans (if_pos rfl)

/-! ### Instructions -/

variable {i : Instruction}

private theorem instruction_pushfd (hmnemonic : i.mnemonic = .pushfd) (hoperands : i.operands = []) (chunk : UInt32)
    (toLoop : Nat) : instruction chunk toLoop i = pushFlags := by
  obtain ⟨prefixes, opcode, mnemonic, operands, address, next⟩ := i
  subst hmnemonic hoperands
  rfl

private theorem instruction_popfd (hmnemonic : i.mnemonic = .popfd) (hoperands : i.operands = []) (chunk : UInt32)
    (toLoop : Nat) : instruction chunk toLoop i = popFlags := by
  obtain ⟨prefixes, opcode, mnemonic, operands, address, next⟩ := i
  subst hmnemonic hoperands
  rfl

private theorem operands_eq_nil_of_decode {bytes : List UInt8} {address : UInt32} {n : Nat}
    (h : X86.decode bytes address = .ok (i, n)) (hmnemonic : i.mnemonic = .pushfd ∨ i.mnemonic = .popfd) :
    i.operands = [] := by
  obtain ⟨form, hform, hkinds⟩ := X86.formed_of_decode h
  have hnil : form = [] := by
    rcases hmnemonic with hm | hm
    · rw [hm] at hform
      exact List.mem_singleton.1 hform
    · rw [hm] at hform
      exact List.mem_singleton.1 hform
  rw [hnil] at hkinds
  exact List.forall₂_nil_left_iff.1 hkinds

private theorem exec_pushFlags {s : State} (hs : s.flags.bits &&& Flags.known = s.flags.bits)
    (hflags : s.FlagsIn m.store)
    (h : (m.store.globals Slot.esp.index - 4).toNat + 4 ≤ m.store.memory.size) :
    exec pushFlags.code m = .ok (pushed m 4 s.eflags) :=
  (exec_append (exec_packedFlags hs hflags)).trans (exec_pushValue (a := .word) rfl h)

private theorem exec_popFlags (h : (m.store.globals Slot.esp.index).toNat + 4 ≤ m.store.memory.size)
    (hword : m.store.memory.read (m.store.globals Slot.esp.index).toNat 4 = word.toNat) :
    exec popFlags.code m = .ok (withFlags word Flag.all ((popped m 4).setLocal Local.lhs (.i32 word))) := by
  have hpop : exec (popValue .bits32).code m = .ok ((popped m 4).push
      (.i32 (UInt32.ofNat (m.store.memory.read (m.store.globals Slot.esp.index).toNat 4)))) :=
    exec_popValue (a := .word) rfl h
  rw [hword, UInt32.ofNat_toNat] at hpop
  have hset : exec (.localSet Local.lhs :: unpackFlags) ((popped m 4).push (.i32 word)) =
      exec unpackFlags ((popped m 4).setLocal Local.lhs (.i32 word)) := exec_cons rfl
  exact (exec_append hpop).trans (hset.trans (exec_unpackFlags Flag.all rfl))

/-- Popped flags are those of the state that takes them from the word. -/
private theorem flagsIn_withFlags (s : State) (word : UInt32) (m : Wasm.Machine ω) :
    (s.setEflags word).FlagsIn (withFlags word Flag.all m).store := by
  intro f
  rw [globals_withFlags (Flag.mem_all f), State.get_setEflags]

/-- A push and then a pop of the flags leave every slot as it was. -/
private theorem globals_push_pop {s : State} (hs : s.flags.bits &&& Flags.known = s.flags.bits)
    (hflags : s.FlagsIn m.store) :
    (withFlags s.eflags Flag.all ((popped (pushed m 4 s.eflags) 4).setLocal Local.lhs
      (.i32 s.eflags))).store.globals =
      m.store.globals := by
  funext index
  by_cases hindex : ∃ f, index = (Slot.flag f).index
  · obtain ⟨f, rfl⟩ := hindex
    rw [flagsIn_withFlags s, State.setEflags_eflags hs, hflags f]
  · rw [globals_withFlags_of_ne fun f _ heq => hindex ⟨f, heq⟩]
    show (popped (pushed m 4 s.eflags) 4).store.globals index = m.store.globals index
    rw [globals_popped, globals_pushed, globals_pushed, if_pos rfl]
    by_cases hesp : index = Slot.esp.index
    · rw [if_pos hesp, hesp]
      exact UInt32.sub_add_cancel _ _
    · rw [if_neg hesp, if_neg hesp]

/-- The code that pushes and pops the flags agrees with the packed word of a state.  A push stores the word of the
state whose flags are in the slots; a pop leaves in the slots the flags of a state that takes them from the popped
word; and so a push and a pop restore all slots. -/
theorem flagsWord_agrees {s : State} (hs : s.flags.bits &&& Flags.known = s.flags.bits) {pushfd popfd : Instruction}
    (hpush : pushfd.mnemonic = .pushfd ∧ pushfd.operands = []) (hpop : popfd.mnemonic = .popfd ∧ popfd.operands = [])
    (host : Host Callee ω) (chunk : UInt32) (toLoop : Nat) (m : Wasm.Machine ω) :
    (instruction chunk toLoop pushfd).outcome = .ok () ∧ (instruction chunk toLoop popfd).outcome = .ok () ∧
    (s.FlagsIn m.store → (m.store.globals Slot.esp.index - 4).toNat + 4 ≤ m.store.memory.size →
      (Completes host (instruction chunk toLoop pushfd).code m (pushed m 4 s.eflags) ∧
        (pushed m 4 s.eflags).store.memory.read (m.store.globals Slot.esp.index - 4).toNat 4 = s.eflags.toNat) ∧
      ∃ m', Completes host ((instruction chunk toLoop pushfd).code ++ (instruction chunk toLoop popfd).code) m m' ∧
        m'.stack = m.stack ∧ m'.store.globals = m.store.globals) ∧
    (∀ word : UInt32, (m.store.globals Slot.esp.index).toNat + 4 ≤ m.store.memory.size →
      m.store.memory.read (m.store.globals Slot.esp.index).toNat 4 = word.toNat →
      ∃ m', Completes host (instruction chunk toLoop popfd).code m m' ∧ (s.setEflags word).FlagsIn m'.store ∧
        m'.store.globals Slot.esp.index = m.store.globals Slot.esp.index + 4 ∧
        (∀ index, index ≠ Slot.esp.index → (∀ f, index ≠ (Slot.flag f).index) →
          m'.store.globals index = m.store.globals index) ∧
        m'.stack = m.stack ∧ m'.store.memory = m.store.memory ∧ m'.store.world = m.store.world) ∧
    s.setEflags s.eflags = s ∧ (∀ word, (s.setEflags word).eflags = (word &&& 0xcd5) ||| 2) ∧
    ∀ bytes address i n, X86.decode bytes address = .ok (i, n) → i.mnemonic = .pushfd ∨ i.mnemonic = .popfd →
      i.operands = [] := by
  rw [instruction_pushfd hpush.1 hpush.2, instruction_popfd hpop.1 hpop.2]
  have hdata : ∀ instr ∈ pushFlags.code ++ popFlags.code, instr.isData = true := by decide
  have hdataPush : ∀ instr ∈ pushFlags.code, instr.isData = true := fun instr hi =>
    hdata instr (List.mem_append_left _ hi)
  have hdataPop : ∀ instr ∈ popFlags.code, instr.isData = true := fun instr hi =>
    hdata instr (List.mem_append_right _ hi)
  refine ⟨rfl, rfl, fun hflags hbounds => ?_, fun word hbounds hword => ?_, State.setEflags_eflags hs,
    s.eflags_setEflags, fun _ _ _ _ => operands_eq_nil_of_decode⟩
  · have hread : (pushed m 4 s.eflags).store.memory.read (m.store.globals Slot.esp.index - 4).toNat 4 =
        s.eflags.toNat := by
      refine (Wasm.Memory.read_write ..).trans (Nat.mod_eq_of_lt ?_)
      exact s.eflags.toNat_lt
    have hexec := exec_pushFlags hs hflags hbounds
    refine ⟨⟨Wasm.completes_of_exec hdataPush hexec, hread⟩, _,
      Wasm.completes_of_exec hdata ((exec_append hexec).trans (exec_popFlags hbounds hread)), ?_, ?_⟩
    · exact (withFlags_frame _ _ _).1
    · exact globals_push_pop hs hflags
  · obtain ⟨hstack, -, hmemory, hworld⟩ := withFlags_frame word Flag.all
      ((popped m 4).setLocal Local.lhs (.i32 word))
    refine ⟨_, Wasm.completes_of_exec hdataPop (exec_popFlags hbounds hword), flagsIn_withFlags s word _, ?_,
      fun index hesp hflag => ?_, hstack, hmemory, hworld⟩
    · rw [globals_withFlags_of_ne fun f _ => by cases f <;> decide]
      exact (globals_popped m 4 _).trans (if_pos rfl)
    · rw [globals_withFlags_of_ne fun f _ => hflag f]
      exact (globals_popped m 4 _).trans (if_neg hesp)

/-- Some flags and the stack pointer in slots, over sixty-four bytes of memory. -/
def carrying : Wasm.Store Unit where
  globals := fun index => if index = Slot.esp.index then 16 else if index ∈ [8, 11, 12, 14] then 1 else 0
  memory := ⟨64, fun _ => 0⟩
  world := ()

/-- A word of flags that is pushed and popped leaves the flags as they were. -/
theorem flagsWord_agrees_carrying :
    ∃ pushfd popfd m m', X86.decode [0x9c] 0x1000 = .ok (pushfd, 1) ∧ X86.decode [0x9d] 0x1001 = .ok (popfd, 1) ∧
      Completes (fun _ _ => .error .trap) (instruction 0 0 pushfd).code (.start carrying) m ∧
      m.store.memory.read 12 4 = 0x8c3 ∧
      Completes (fun _ _ => .error .trap) ((instruction 0 0 pushfd).code ++ (instruction 0 0 popfd).code)
        (.start carrying) m' ∧ m'.store.globals = carrying.globals := by
  obtain ⟨-, -, hpushes, -⟩ := @flagsWord_agrees Unit { flags := ⟨0x8c1⟩ } (by decide)
    ⟨{}, 0x9c, .pushfd, [], 0x1000, 0x1001⟩ ⟨{}, 0x9d, .popfd, [], 0x1001, 0x1002⟩ ⟨rfl, rfl⟩ ⟨rfl, rfl⟩
    (fun _ _ => .error .trap) 0 0 (.start carrying)
  obtain ⟨⟨hpush, hword⟩, m', hboth, -, hglobals⟩ := hpushes (fun f => by cases f <;> decide) (by decide)
  exact ⟨_, _, _, m', by decide +kernel, by decide +kernel, hpush, hword, hboth, hglobals⟩

end Lowering

end Ia32Wasm
