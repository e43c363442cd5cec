import Ia32Wasm.Proofs.Lowering.Addressing
import Ia32Wasm.Proofs.Lowering.Moves

/-!
# The stack in memory

The stack pointer is a register like the others, and an instruction that moves it may name it.  What is pushed is read
before the stack pointer is lowered, and where a popped word goes is found after it has been raised.

* `leaves_push` and `leaves_pop` are about one operand, which may be the stack pointer or memory below it.
* All registers are pushed one below the other (`executes_pushWords`) and popped one above the other
  (`executes_popWords`); the place of the stack pointer is passed over, so that popping what was pushed restores them
  (`get_register_of_popad`).
* `attains_ret` is about the end of a procedure.
-/

namespace Ia32Wasm.Lowering

open Machine (Slot)
open Wasm (Completes Host)
open X86 (Instruction Operand OperandSize)

variable {ω : Type} {host : Host Callee ω} {chunk : UInt32} {toLoop : Nat} {i : Instruction} {m : Wasm.Machine ω}
  {size : OperandSize} {word : UInt32}

/-! ### One word -/

/-- The stack grows by the bytes of a value, which is written there. -/
theorem executes_pushValue (host : Host Callee ω) (hsize : size ≠ .bits128) (word : UInt32)
    (h : (m.store.get .esp - UInt32.ofNat size.bytes).toNat + size.bytes ≤ m.store.memory.size) :
    Executes host (pushValue size) () (m.push (.i32 word)) (pushed m size.bytes word) := by
  have haccess : (pushValue size).outcome = .ok () ∧ ∃ a, access? size = some a ∧ a.bytes = size.bytes := by
    cases size with
    | bits8 | bits16 | bits32 => exact ⟨rfl, _, rfl, rfl⟩
    | bits128 => exact absurd rfl hsize
  obtain ⟨houtcome, a, ha, hbytes⟩ := haccess
  rw [← hbytes] at h ⊢
  exact ⟨houtcome, Wasm.runs_of_exec (exec_pushValue ha h)⟩

/-- A push moves a word to the new top of the stack and lowers the stack pointer to it. -/
private theorem moved_pushed (m : Wasm.Machine ω) {count : Nat} (hword : word.toNat < 256 ^ count) :
    m.store.Moved (pushed m count word).store
      [(.part 4 0 32, (m.store.get .esp - UInt32.ofNat count).toNat),
        (.bytes (m.store.get .esp - UInt32.ofNat count).toNat count, word.toNat)] := by
  have hlowered := m.store.moved_set 4 (m.store.get .esp - UInt32.ofNat count)
  refine hlowered.append (Wasm.Store.moved_write _ _ hword) ?_
  intro x hx
  obtain rfl := List.mem_singleton.1 hx
  refine .inr fun y hy => ?_
  obtain rfl := List.mem_singleton.1 hy
  exact Location.disjoint_part_bytes ..

/-- A push moves its source below the top of the stack. -/
theorem leaves_push {source : Operand} (host : Host Callee ω) (chunk : UInt32) (toLoop : Nat)
    (hm : i.mnemonic = .push)
    (hsource : source.Readable size) (hoperands : i.operands = [source]) (hbounds : source.InBounds m.store)
    (hstack : (m.store.get .esp - UInt32.ofNat size.bytes).toNat + size.bytes ≤ m.store.memory.size) :
    Leaves host chunk toLoop i m fun s =>
      m.store.Moved s [(.part 4 0 32, (m.store.get .esp - UInt32.ofNat size.bytes).toNat),
        (.bytes (m.store.get .esp - UInt32.ofNat size.bytes).toNat size.bytes, source.value m.store)] := by
  have hbody : Executes host (push i) () m (pushed m size.bytes (UInt32.ofNat (source.value m.store))) := by
    unfold push
    rw [hoperands]
    refine executes_bind (executes_scalarSize hsource m) (executes_bind (executes_loadOperand hsource hbounds) ?_)
    exact executes_pushValue host hsource.scalar _ hstack
  refine leaves_computation (by rw [computation?, hm]) (by rw [hm]; rfl) hbody rfl ?_
  have hlt : (UInt32.ofNat (source.value m.store)).toNat < 256 ^ size.bytes := by
    rw [hsource.toNat_value, size.pow_bytes]
    exact hsource.value_lt m.store
  have hmoved := moved_pushed m hlt
  rwa [hsource.toNat_value] at hmoved

/-- A pop moves the top of the stack to its destination, whose address may depend on the new top. -/
theorem leaves_pop {destination : Operand} (host : Host Callee ω) (chunk : UInt32) (toLoop : Nat)
    (hm : i.mnemonic = .pop) (hdestination : destination.Writable size) (hoperands : i.operands = [destination])
    (hstack : (m.store.get .esp).toNat + size.bytes ≤ m.store.memory.size)
    (hbounds : destination.InBounds (m.store.set .esp (m.store.get .esp + UInt32.ofNat size.bytes))) :
    Leaves host chunk toLoop i m fun s =>
      (m.store.set .esp (m.store.get .esp + UInt32.ofNat size.bytes)).Moved s
        [(destination.location (m.store.set .esp (m.store.get .esp + UInt32.ofNat size.bytes)),
          m.store.memory.read (m.store.get .esp).toNat size.bytes)] := by
  have hlt : m.store.memory.read (m.store.get .esp).toNat size.bytes < 2 ^ size.bits :=
    size.pow_bytes ▸ m.store.memory.read_lt _ _
  have hword : (UInt32.ofNat (m.store.memory.read (m.store.get .esp).toNat size.bytes)).toNat =
      m.store.memory.read (m.store.get .esp).toNat size.bytes :=
    UInt32.toNat_ofNat_of_lt' (Nat.lt_of_lt_of_le hlt
      (Nat.pow_le_pow_right (by omega) (OperandSize.bits_le hdestination.scalar)))
  obtain ⟨w, hstore⟩ := executes_storeOperand host
    (m := m.setGlobal Slot.esp.index (m.store.get .esp + UInt32.ofNat size.bytes)) hdestination hbounds
    (UInt32.ofNat (m.store.memory.read (m.store.get .esp).toNat size.bytes))
  rw [hword] at hstore
  have hbody : Executes host (pop i) () m
      (assigned (m.setGlobal Slot.esp.index (m.store.get .esp + UInt32.ofNat size.bytes)) destination
        (m.store.memory.read (m.store.get .esp).toNat size.bytes) w) := by
    unfold pop
    rw [hoperands]
    refine executes_bind (executes_scalarSize hdestination.toReadable m) ?_
    exact executes_bind (executes_popValue host hdestination.scalar hstack) hstore
  refine leaves_computation (by rw [computation?, hm]) (by rw [hm]; rfl) hbody rfl ?_
  exact Wasm.Store.moved_assign hdestination _ hlt

/-- The end of a frame: the frame pointer comes from the stack, and the stack pointer is above what it pointed to. -/
private theorem leaves_leave (host : Host Callee ω) (chunk : UInt32) (toLoop : Nat) (hm : i.mnemonic = .leave)
    (hoperands : i.operands = []) (hstack : (m.store.get .ebp).toNat + 4 ≤ m.store.memory.size) :
    Leaves host chunk toLoop i m fun s =>
      m.store.Moved s [(.part 4 0 32, (m.store.get .ebp + 4).toNat),
        (.part 5 0 32, m.store.memory.read (m.store.get .ebp).toNat 4)] := by
  let lowered : Wasm.Machine ω := m.setGlobal Slot.esp.index (m.store.get .ebp)
  have hesp : lowered.store.get .esp = m.store.get .ebp := Wasm.Store.get_set_self m.store .esp _
  let raised : Wasm.Machine ω := lowered.setGlobal Slot.esp.index (m.store.get .ebp + 4)
  let word := UInt32.ofNat (m.store.memory.read (m.store.get .ebp).toNat 4)
  have hpop : Executes host (popValue .bits32) () lowered (raised.push (.i32 word)) := by
    have hvalue := executes_popValue host (m := lowered) (show OperandSize.bits32 ≠ .bits128 by decide)
      (by rw [hesp]; exact hstack)
    rw [hesp] at hvalue
    exact hvalue
  have hbody : Executes host (withoutOperands i leaveFrame) () m (raised.setGlobal Slot.ebp.index word) := by
    unfold withoutOperands leaveFrame
    rw [hoperands]
    exact executes_bind (executes_emit rfl) (executes_bind hpop (executes_emit rfl))
  refine leaves_computation (by rw [computation?, hm]) (by rw [hm]; rfl) hbody rfl ?_
  have hword : word.toNat = m.store.memory.read (m.store.get .ebp).toNat 4 :=
    UInt32.toNat_ofNat_of_lt' (m.store.memory.read_lt _ 4)
  have hraised : m.store.Moved raised.store [(.part 4 0 32, (m.store.get .ebp + 4).toNat)] := by
    exact (m.store.moved_set 4 (m.store.get .ebp)).overwrite (lowered.store.moved_set 4 (m.store.get .ebp + 4))
      fun _ hkept => absurd hkept List.not_mem_nil
  rw [← hword]
  refine hraised.append (raised.store.moved_set 5 word) fun x hx => .inr fun y hy => ?_
  obtain rfl := List.mem_singleton.1 hx
  obtain rfl := List.mem_singleton.1 hy
  exact Location.disjoint_parts_of_ne (by decide) ..

/-! ### All registers -/

/-- Words one below the other, the first of them below the address `base - offset`. -/
def descending (base : UInt32) (offset : Nat) : List UInt32 → List (Location × Nat)
  | [] => []
  | word :: rest =>
    (.bytes (base - UInt32.ofNat (offset + 4)).toNat 4, word.toNat) :: descending base (offset + 4) rest

private theorem exists_of_mem_descending {base : UInt32} {offset : Nat} {words : List UInt32} {x : Location × Nat}
    (h : x ∈ descending base offset words) :
    ∃ k < words.length, x.1 = .bytes (base - UInt32.ofNat (offset + 4 * (k + 1))).toNat 4 := by
  induction words generalizing offset with
  | nil => cases h
  | cons word rest ih =>
    rcases List.mem_cons.1 h with rfl | h
    · exact ⟨0, Nat.succ_pos _, rfl⟩
    · obtain ⟨k, hk, hx⟩ := ih h
      have hoffset : offset + 4 + 4 * (k + 1) = offset + 4 * (k + 1 + 1) := by omega
      exact ⟨k + 1, Nat.succ_lt_succ hk, hoffset ▸ hx⟩

/-- Words that are pushed after each other do not overlap while the stack does not come around. -/
private theorem disjoint_below (base : UInt32) (offset : Nat) {k : Nat} (hk : 4 * (k + 2) ≤ 2 ^ 32) :
    (Location.bytes (base - UInt32.ofNat (offset + 4)).toNat 4).Disjoint
      (.bytes (base - UInt32.ofNat (offset + 4 + 4 * (k + 1))).toNat 4) := by
  apply Location.disjoint_bytes
  have hbase := base.toNat_lt
  rw [UInt32.toNat_sub, UInt32.toNat_sub, UInt32.toNat_ofNat', UInt32.toNat_ofNat']
  omega

/-- One register onto the stack; of the stack pointer, the value that it had before the first. -/
def pushRegister (index : UInt8) : Lowering Unit := do
  if index = 4 then emit [.localGet Local.lhs] else loadRegister index .bits32
  pushValue .bits32

/-- One register from the stack; the place of the stack pointer is passed over. -/
def popRegister (index : UInt8) : Lowering Unit := do
  if index = 4 then emit (moveStackPointer 4)
  else
    popValue .bits32
    storeRegister index .bits32

private theorem wideSlot_ne_esp {index : UInt8} (hindex : index.toNat < 8) (hne : index ≠ 4) :
    X86.wideSlot index ≠ .esp := by
  intro heq
  have hnumber : index.toNat % 8 = 4 := congrArg Fin.val (Slot.register.inj heq)
  rw [Nat.mod_eq_of_lt hindex] at hnumber
  exact hne (UInt8.toNat_inj.1 hnumber)

private theorem executes_pushRegister {index : UInt8} {word : UInt32} (host : Host Callee ω)
    (hindex : index.toNat < 8)
    (hword : if index = 4 then m.locals Local.lhs = .i32 word else m.store.get (X86.wideSlot index) = word)
    (hstack : (m.store.get .esp - UInt32.ofNat 4).toNat + 4 ≤ m.store.memory.size) :
    Executes host (pushRegister index) () m (pushed m 4 word) := by
  have hpush := executes_pushValue host (show OperandSize.bits32 ≠ .bits128 by decide) word hstack
  unfold pushRegister
  split
  · rename_i h4
    rw [if_pos h4] at hword
    refine executes_bind (executes_emit ?_) hpush
    rw [Wasm.exec_localGet, hword]
    rfl
  · rename_i h4
    rw [if_neg h4] at hword
    have hreg : (Operand.reg index .bits32).Writable .bits32 := Operand.writable_reg hindex (by decide)
    have hload : Executes host (loadRegister index .bits32) () m _ :=
      executes_loadOperand hreg.toReadable (Operand.inBounds_reg _ _ _)
    have hvalue : UInt32.ofNat ((Operand.reg index .bits32).value m.store) = word := by
      rw [← hword]
      exact (congrArg UInt32.ofNat (wordPart_word _)).trans UInt32.ofNat_toNat
    rw [hvalue] at hload
    exact executes_bind hload hpush

/-- Registers are pushed one below the other. -/
theorem executes_pushWords (host : Host Callee ω) (word : UInt8 → UInt32) {indices : List UInt8} {base : UInt32}
    {offset : Nat} (hindices : ∀ index ∈ indices, index.toNat < 8)
    (hesp : m.store.get .esp = base - UInt32.ofNat offset) (hlhs : m.locals Local.lhs = .i32 (word 4))
    (hword : ∀ index ∈ indices, index ≠ 4 → m.store.get (X86.wideSlot index) = word index)
    (hfits : 4 * indices.length ≤ 2 ^ 32)
    (hbounds : ∀ k < indices.length,
      (base - UInt32.ofNat (offset + 4 * (k + 1))).toNat + 4 ≤ m.store.memory.size) :
    ∃ m', Executes host (indices.forM pushRegister) () m m' ∧ m'.stack = m.stack ∧
      m.store.Moved m'.store ((.part 4 0 32, (base - UInt32.ofNat (offset + 4 * indices.length)).toNat) ::
        descending base offset (indices.map word)) := by
  induction indices generalizing m offset with
  | nil =>
    have hmoved := m.store.moved_set 4 (m.store.get .esp)
    rw [Slot.esp, Wasm.Store.set_get, ← Slot.esp, hesp] at hmoved
    exact ⟨m, executes_pure () m, rfl, hmoved⟩
  | cons index rest ih =>
    have htop : m.store.get .esp - UInt32.ofNat 4 = base - UInt32.ofNat (offset + 4) := by
      rw [hesp, UInt32.ofNat_add]
      grind
    have hlength : offset + 4 * (index :: rest).length = offset + 4 + 4 * rest.length := by
      rw [List.length_cons]
      omega
    have hfirst : Executes host (pushRegister index) () m (pushed m 4 (word index)) := by
      refine executes_pushRegister host (hindices index List.mem_cons_self) ?_ ?_
      · split
        · rename_i h4
          rw [hlhs, h4]
        · rename_i h4
          exact hword index List.mem_cons_self h4
      · rw [htop]
        exact hbounds 0 (Nat.succ_pos _)
    have hmoved := moved_pushed m (show (word index).toNat < 256 ^ 4 from (word index).toNat_lt)
    rw [htop] at hmoved
    have hlowered : (pushed m 4 (word index)).store.get .esp = base - UInt32.ofNat (offset + 4) :=
      (m.store.get_set_self .esp _).trans htop
    rw [List.length_cons] at hfits
    obtain ⟨m', hrest, hstack, hmoved'⟩ := ih (m := pushed m 4 (word index))
      (fun j hj => hindices j (List.mem_cons_of_mem _ hj)) hlowered hlhs
      (fun j hj h4 => by
        rw [← hword j (List.mem_cons_of_mem _ hj) h4]
        exact Wasm.Store.get_set_of_ne m.store _ (wideSlot_ne_esp (hindices j (List.mem_cons_of_mem _ hj)) h4))
      (by omega)
      (fun k hk => by
        have hoffset : offset + 4 + 4 * (k + 1) = offset + 4 * (k + 1 + 1) := by omega
        rw [hoffset]
        exact hbounds (k + 1) (Nat.succ_lt_succ hk))
    rw [hlength]
    refine ⟨m', executes_bind hfirst hrest, hstack, hmoved.overwrite hmoved' fun y hy => ?_⟩
    obtain rfl := List.mem_singleton.1 hy
    refine ⟨(Location.disjoint_part_bytes ..).symm, fun z hz => ?_⟩
    obtain ⟨k, hk, hz⟩ := exists_of_mem_descending hz
    rw [List.length_map] at hk
    rw [hz]
    exact disjoint_below base offset (by omega)

/-- Registers with words one above the other, the first of them at the address `base + offset`.  The stack pointer
has a place and no word. -/
def ascending (memory : Wasm.Memory) (base : UInt32) (offset : Nat) : List UInt8 → List (Location × Nat)
  | [] => []
  | index :: rest =>
    (if index = 4 then []
      else [(.part (X86.holder index .bits32) 0 32, memory.read (base + UInt32.ofNat offset).toNat 4)]) ++
      ascending memory base (offset + 4) rest

private theorem exists_of_mem_ascending {memory : Wasm.Memory} {base : UInt32} {offset : Nat} {indices : List UInt8}
    {x : Location × Nat} (h : x ∈ ascending memory base offset indices) :
    ∃ index ∈ indices, x.1 = .part (X86.holder index .bits32) 0 32 := by
  induction indices generalizing offset with
  | nil => cases h
  | cons index rest ih =>
    rcases List.mem_append.1 h with h | h
    · split at h
      · cases h
      · obtain rfl := List.mem_singleton.1 h
        exact ⟨index, List.mem_cons_self, rfl⟩
    · obtain ⟨index', hindex', hx⟩ := ih h
      exact ⟨index', List.mem_cons_of_mem _ hindex', hx⟩

private theorem holder_ne {index index' : UInt8} (hindex : index.toNat < 8) (hindex' : index'.toNat < 8)
    (hne : index ≠ index') : X86.holder index .bits32 ≠ X86.holder index' .bits32 := by
  intro heq
  have hnumber : index.toNat % 8 = index'.toNat % 8 := congrArg Fin.val heq
  exact hne (UInt8.toNat_inj.1 (by omega))

private theorem executes_popRegister {index : UInt8} (host : Host Callee ω) (hindex : index.toNat < 8)
    (hstack : index ≠ 4 → (m.store.get .esp).toNat + 4 ≤ m.store.memory.size) :
    ∃ m', Executes host (popRegister index) () m m' ∧ m'.stack = m.stack ∧ m'.store.memory = m.store.memory ∧
      m'.store.get .esp = m.store.get .esp + UInt32.ofNat 4 ∧
      m.store.Moved m'.store ((.part 4 0 32, (m.store.get .esp + UInt32.ofNat 4).toNat) ::
        if index = 4 then []
        else [(.part (X86.holder index .bits32) 0 32, m.store.memory.read (m.store.get .esp).toNat 4)]) := by
  have hraised := m.store.moved_set 4 (m.store.get .esp + UInt32.ofNat 4)
  unfold popRegister
  split
  · exact ⟨_, executes_emit rfl, rfl, rfl, m.store.get_set_self .esp _, hraised⟩
  · rename_i h4
    have hreg : (Operand.reg index .bits32).Writable .bits32 := Operand.writable_reg hindex (by decide)
    have hlt := m.store.memory.read_lt (m.store.get .esp).toNat 4
    have hword : (UInt32.ofNat (m.store.memory.read (m.store.get .esp).toNat 4)).toNat =
        m.store.memory.read (m.store.get .esp).toNat 4 := UInt32.toNat_ofNat_of_lt' hlt
    have hpop := executes_popValue host (show OperandSize.bits32 ≠ .bits128 by decide) (hstack h4)
    obtain ⟨w, hstore⟩ := executes_storeOperand host
      (m := m.setGlobal Slot.esp.index (m.store.get .esp + UInt32.ofNat 4)) hreg (Operand.inBounds_reg _ _ _)
      (UInt32.ofNat (m.store.memory.read (m.store.get .esp).toNat 4))
    rw [hword] at hstore
    have hmoved := (m.store.set .esp (m.store.get .esp + UInt32.ofNat 4)).moved_assign hreg hlt
    have hesp : X86.holder index .bits32 ≠ 4 := holder_ne hindex (by decide : (4 : UInt8).toNat < 8) h4
    refine ⟨_, executes_bind hpop hstore, rfl, rfl, ?_, hraised.append hmoved fun x hx => .inr fun y hy => ?_⟩
    · refine (Wasm.Store.get_set_of_ne _ _ ?_).trans (m.store.get_set_self .esp _)
      exact fun heq => hesp (Slot.register.inj heq).symm
    · obtain rfl := List.mem_singleton.1 hx
      obtain rfl := List.mem_singleton.1 hy
      exact Location.disjoint_parts_of_ne hesp.symm ..

/-- Registers are popped one above the other. -/
theorem executes_popWords (host : Host Callee ω) {indices : List UInt8} {base : UInt32} {offset : Nat}
    (hnodup : indices.Nodup) (hindices : ∀ index ∈ indices, index.toNat < 8)
    (hesp : m.store.get .esp = base + UInt32.ofNat offset)
    (hbounds : ∀ k index, indices[k]? = some index → index ≠ 4 →
      (base + UInt32.ofNat (offset + 4 * k)).toNat + 4 ≤ m.store.memory.size) :
    ∃ m', Executes host (indices.forM popRegister) () m m' ∧ m'.stack = m.stack ∧
      m.store.Moved m'.store ((.part 4 0 32, (base + UInt32.ofNat (offset + 4 * indices.length)).toNat) ::
        ascending m.store.memory base offset indices) := by
  induction indices generalizing m offset with
  | nil =>
    have hmoved := m.store.moved_set 4 (m.store.get .esp)
    rw [Slot.esp, Wasm.Store.set_get, ← Slot.esp, hesp] at hmoved
    exact ⟨m, executes_pure () m, rfl, hmoved⟩
  | cons index rest ih =>
    obtain ⟨hnotMem, hnodup⟩ := List.nodup_cons.1 hnodup
    obtain ⟨hindex, hindices⟩ := List.forall_mem_cons.1 hindices
    have htop : m.store.get .esp + UInt32.ofNat 4 = base + UInt32.ofNat (offset + 4) := by
      rw [hesp, UInt32.ofNat_add]
      grind
    have hlength : offset + 4 * (index :: rest).length = offset + 4 + 4 * rest.length := by
      rw [List.length_cons]
      omega
    obtain ⟨m₁, hfirst, hstack₁, hmemory, hesp₁, hmoved₁⟩ := executes_popRegister host hindex fun h4 => by
      rw [hesp]
      exact hbounds 0 index rfl h4
    obtain ⟨m', hrest, hstack, hmoved⟩ := ih (m := m₁) hnodup hindices (hesp₁.trans htop) fun k index' hk h4 => by
      have hoffset : offset + 4 + 4 * k = offset + 4 * (k + 1) := by omega
      rw [hmemory, hoffset]
      exact hbounds (k + 1) index' hk h4
    rw [hmemory] at hmoved
    rw [hesp] at hmoved₁
    rw [hlength]
    refine ⟨m', executes_bind hfirst hrest, hstack.trans hstack₁, hmoved₁.overwrite hmoved fun y hy => ?_⟩
    split at hy
    · cases hy
    · rename_i h4
      obtain rfl := List.mem_singleton.1 hy
      have hesp : X86.holder index .bits32 ≠ 4 := holder_ne hindex (by decide : (4 : UInt8).toNat < 8) h4
      refine ⟨Location.disjoint_parts_of_ne hesp .., fun z hz => ?_⟩
      obtain ⟨index', hindex', hz⟩ := exists_of_mem_ascending hz
      rw [hz]
      refine Location.disjoint_parts_of_ne (holder_ne hindex (hindices index' hindex') ?_) ..
      rintro rfl
      exact hnotMem hindex'

private theorem leaves_pushad (host : Host Callee ω) (chunk : UInt32) (toLoop : Nat) (hm : i.mnemonic = .pushad)
    (hoperands : i.operands = [])
    (hstack : ∀ k < 8, (m.store.get .esp - UInt32.ofNat (4 * (k + 1))).toNat + 4 ≤ m.store.memory.size) :
    Leaves host chunk toLoop i m fun s =>
      m.store.Moved s ((.part 4 0 32, (m.store.get .esp - 32).toNat) ::
        (List.finRange 8).map fun r => (.bytes (m.store.get .esp - UInt32.ofNat (4 * (r.val + 1))).toNat 4,
          (m.store.get (.register r)).toNat)) := by
  have hrun : ∃ m', Executes host (([0, 1, 2, 3, 4, 5, 6, 7] : List UInt8).forM pushRegister) ()
      (m.setLocal Local.lhs (.i32 (m.store.get .esp))) m' ∧ m'.stack = m.stack ∧
      m.store.Moved m'.store ((.part 4 0 32, (m.store.get .esp - UInt32.ofNat (0 + 4 * 8)).toNat) ::
        descending (m.store.get .esp) 0
          (([0, 1, 2, 3, 4, 5, 6, 7] : List UInt8).map fun index => m.store.get (X86.wideSlot index))) := by
    refine executes_pushWords host _ (by simp) (UInt32.sub_zero _).symm rfl (fun _ _ _ => rfl) (by decide) ?_
    intro k hk
    rw [Nat.zero_add]
    exact hstack k hk
  obtain ⟨m', hpush, hstack', hmoved⟩ := hrun
  have hbody : Executes host (withoutOperands i pushRegisters) () m m' := by
    unfold withoutOperands
    rw [hoperands]
    exact executes_bind (executes_emit rfl) hpush
  exact leaves_computation (by rw [computation?, hm]) (by rw [hm]; rfl) hbody hstack' hmoved

private theorem leaves_popad (host : Host Callee ω) (chunk : UInt32) (toLoop : Nat) (hm : i.mnemonic = .popad)
    (hoperands : i.operands = [])
    (hstack : ∀ k < 8, k ≠ 3 → (m.store.get .esp + UInt32.ofNat (4 * k)).toNat + 4 ≤ m.store.memory.size) :
    Leaves host chunk toLoop i m fun s =>
      m.store.Moved s ((.part 4 0 32, (m.store.get .esp + 32).toNat) ::
        ([7, 6, 5, 3, 2, 1, 0] : List (Fin 8)).map fun r =>
          (.part r 0 32, m.store.memory.read (m.store.get .esp + UInt32.ofNat (4 * (7 - r.val))).toNat 4)) := by
  have hrun : ∃ m', Executes host (([7, 6, 5, 4, 3, 2, 1, 0] : List UInt8).forM popRegister) () m m' ∧
      m'.stack = m.stack ∧
      m.store.Moved m'.store ((.part 4 0 32, (m.store.get .esp + UInt32.ofNat (0 + 4 * 8)).toNat) ::
        ascending m.store.memory (m.store.get .esp) 0 [7, 6, 5, 4, 3, 2, 1, 0]) := by
    refine executes_popWords host (by decide) (by simp) (UInt32.add_zero _).symm fun k index hk h4 => ?_
    have hlt : k < 8 := (List.getElem?_eq_some_iff.1 hk).1
    have hne : k ≠ 3 := by
      rintro rfl
      exact h4 (Option.some.inj hk).symm
    rw [Nat.zero_add]
    exact hstack k hlt hne
  obtain ⟨m', hpop, hstack', hmoved⟩ := hrun
  have hbody : Executes host (withoutOperands i popRegisters) () m m' := by
    unfold withoutOperands
    rw [hoperands]
    exact hpop
  exact leaves_computation (by rw [computation?, hm]) (by rw [hm]; rfl) hbody hstack' hmoved

/-- Counted from the last of eight words that have been pushed, a word is where it was pushed to. -/
private theorem sub_add_slot (base : UInt32) {above below : Nat} (h : above + below = 7) :
    base - 32 + UInt32.ofNat (4 * above) = base - UInt32.ofNat (4 * (below + 1)) := by
  have hnat : 4 * above + 4 * (below + 1) = 32 := by omega
  have hsum : UInt32.ofNat (4 * above) + UInt32.ofNat (4 * (below + 1)) = 32 := by
    rw [← UInt32.ofNat_add, hnat]
    rfl
  rw [← hsum]
  grind

/-- What has been pushed of all registers is popped into them again. -/
theorem get_register_of_popad {s s₁ s₂ : Wasm.Store ω}
    (hpush : s.Moved s₁ ((.part 4 0 32, (s.get .esp - 32).toNat) ::
      (List.finRange 8).map fun r => (.bytes (s.get .esp - UInt32.ofNat (4 * (r.val + 1))).toNat 4,
        (s.get (.register r)).toNat)))
    (hpop : s₁.Moved s₂ ((.part 4 0 32, (s₁.get .esp + 32).toNat) ::
      ([7, 6, 5, 3, 2, 1, 0] : List (Fin 8)).map fun r =>
        (.part r 0 32, s₁.memory.read (s₁.get .esp + UInt32.ofNat (4 * (7 - r.val))).toNat 4))) (r : Fin 8) :
    s₂.get (.register r) = s.get (.register r) := by
  have hesp : s₁.get .esp = s.get .esp - 32 := hpush.get_register List.mem_cons_self
  have hword : ∀ r : Fin 8, s₁.memory.read (s₁.get .esp + UInt32.ofNat (4 * (7 - r.val))).toNat 4 =
      (s.get (.register r)).toNat := by
    intro r
    have hcount : 7 - r.val + r.val = 7 := by omega
    rw [hesp, sub_add_slot _ hcount]
    exact hpush.holds _ (List.mem_cons_of_mem _ (List.mem_map.2 ⟨r, List.mem_finRange r, rfl⟩))
  by_cases h4 : r = 4
  · subst h4
    have hraised : s₂.get .esp = s₁.get .esp + 32 := hpop.get_register List.mem_cons_self
    rw [hesp] at hraised
    exact hraised.trans (UInt32.sub_add_cancel _ _)
  · have hmem : r ∈ ([7, 6, 5, 3, 2, 1, 0] : List (Fin 8)) := by
      revert r
      decide
    refine hpop.get_register (List.mem_cons_of_mem _ (List.mem_map.2 ⟨r, hmem, ?_⟩))
    rw [hword r]

/-! ### Returns -/

/-- A return takes the return address and as many bytes as it says from the stack. -/
theorem attains_ret {extra : Nat} (host : Host Callee ω) (chunk : UInt32) (toLoop : Nat) (hm : i.mnemonic = .ret)
    (hoperands : i.operands = [] ∧ extra = 0 ∨
      ∃ value, i.operands = [.imm value .bits16] ∧ extra = (Operand.imm value .bits16).value m.store) :
    (instruction chunk toLoop i).outcome = .ok () ∧
      Wasm.Attains host (instruction chunk toLoop i).code m fun c =>
        c.step host = .returned (m.store.set .esp (m.store.get .esp + UInt32.ofNat (4 + extra))) := by
  have hprologue : Executes host (prologue i) () m
      (m.setGlobal Slot.esp.index (m.store.get .esp + UInt32.ofNat (4 + extra))) := by
    unfold prologue
    rw [hm]
    rcases hoperands with ⟨hnone, rfl⟩ | ⟨value, hone, rfl⟩
    · rw [hnone]
      exact executes_emit rfl
    · have hextra : value.toUInt64.toUInt32 &&& 0xffff = UInt32.ofNat (wrap 16 value.toInt) :=
        and_mask_eq_wrap value (show OperandSize.bits16 ≠ .bits128 by decide)
      have hsum : (4 : UInt32) + (value.toUInt64.toUInt32 &&& 0xffff) =
          UInt32.ofNat (4 + (Operand.imm value .bits16).value m.store) := by
        rw [hextra, UInt32.ofNat_add]
        rfl
      rw [hone, ← hsum]
      exact executes_bind (executes_pure value m) (executes_emit rfl)
  have hrest : body chunk toLoop i = emit [.ret] ∧ updateFlags i = pure () := by
    unfold body updateFlags
    rw [hm]
    exact ⟨rfl, rfl⟩
  unfold instruction
  rw [hrest.1, hrest.2]
  refine ⟨outcome_bind hprologue.outcome rfl, attains_bind hprologue fun rest labels => ?_⟩
  exact ⟨_, Relation.ReflTransGen.refl, rfl⟩

/-! ### Decoded instructions -/

/-- A decoded stack instruction does its work also where it names the stack pointer, from every state with the stack
in memory where it is used.

* What is pushed is what the operand was before, and the stack pointer is lowered by its width.
* Where a popped word goes is found after the stack pointer has been raised; popped into the stack pointer it stays
  there.
* The registers are pushed by number with the stack pointer as it was, and popped without it; both together restore
  them.
* The end of a frame pops the frame pointer, and a return passes over the return address and what it is told to.

All else is as it was: flags, other registers, and memory but for what is pushed and the memory that is popped to. -/
theorem leaves_stack_of_decode {bytes : List UInt8} {address : UInt32} {n : Nat}
    (h : X86.decode bytes address = .ok (i, n)) (host : Host Callee ω) (chunk : UInt32) (toLoop : Nat)
    (m : Wasm.Machine ω) :
    (i.mnemonic = .push →
      ∃ size source, size ∈ [OperandSize.bits16, .bits32] ∧ source.Readable size ∧ i.operands = [source] ∧
        ∀ top, top = m.store.get .esp - UInt32.ofNat size.bytes → source.InBounds m.store →
          top.toNat + size.bytes ≤ m.store.memory.size →
          Leaves host chunk toLoop i m fun s =>
            m.store.Moved s [(.part 4 0 32, top.toNat), (.bytes top.toNat size.bytes, source.value m.store)]) ∧
    (i.mnemonic = .pop →
      ∃ size destination, size ∈ [OperandSize.bits16, .bits32] ∧ destination.Writable size ∧
        i.operands = [destination] ∧
        ∀ raised, raised = m.store.set .esp (m.store.get .esp + UInt32.ofNat size.bytes) →
          (m.store.get .esp).toNat + size.bytes ≤ m.store.memory.size → destination.InBounds raised →
          Leaves host chunk toLoop i m fun s =>
            raised.Moved s [(destination.location raised, m.store.memory.read (m.store.get .esp).toNat size.bytes)] ∧
              (destination = .reg 4 .bits32 →
                s.get .esp = UInt32.ofNat (m.store.memory.read (m.store.get .esp).toNat 4))) ∧
    (i.mnemonic = .pushad →
      (∀ k < 8, (m.store.get .esp - UInt32.ofNat (4 * (k + 1))).toNat + 4 ≤ m.store.memory.size) →
        (Leaves host chunk toLoop i m fun s =>
          m.store.Moved s ((.part 4 0 32, (m.store.get .esp - 32).toNat) ::
            (List.finRange 8).map fun r => (.bytes (m.store.get .esp - UInt32.ofNat (4 * (r.val + 1))).toNat 4,
              (m.store.get (.register r)).toNat))) ∧
        ∀ bytes' address' j n', X86.decode bytes' address' = .ok (j, n') → j.mnemonic = .popad →
          ∀ m₁, Completes host (instruction chunk toLoop i).code m m₁ →
            Leaves host chunk toLoop j m₁ fun s => ∀ r, s.get (.register r) = m.store.get (.register r)) ∧
    (i.mnemonic = .popad →
      (∀ k < 8, k ≠ 3 → (m.store.get .esp + UInt32.ofNat (4 * k)).toNat + 4 ≤ m.store.memory.size) →
        Leaves host chunk toLoop i m fun s =>
          m.store.Moved s ((.part 4 0 32, (m.store.get .esp + 32).toNat) ::
            ([7, 6, 5, 3, 2, 1, 0] : List (Fin 8)).map fun r =>
              (.part r 0 32, m.store.memory.read (m.store.get .esp + UInt32.ofNat (4 * (7 - r.val))).toNat 4))) ∧
    (i.mnemonic = .leave → (m.store.get .ebp).toNat + 4 ≤ m.store.memory.size →
      Leaves host chunk toLoop i m fun s =>
        m.store.Moved s [(.part 4 0 32, (m.store.get .ebp + 4).toNat),
          (.part 5 0 32, m.store.memory.read (m.store.get .ebp).toNat 4)]) ∧
    (i.mnemonic = .ret →
      ∃ extra, extra < 2 ^ 16 ∧
        (i.operands = [] ∧ extra = 0 ∨
          ∃ value, i.operands = [.imm value .bits16] ∧ extra = (Operand.imm value .bits16).value m.store) ∧
        (instruction chunk toLoop i).outcome = .ok () ∧
        Wasm.Attains host (instruction chunk toLoop i).code m fun c =>
          c.step host = .returned (m.store.set .esp (m.store.get .esp + UInt32.ofNat (4 + extra)))) := by
  refine ⟨?_, ?_, ?_, ?_, ?_, ?_⟩
  · intro hm
    obtain ⟨size, source, hsize, hsource, hoperands⟩ := X86.operands_of_push h hm
    refine ⟨size, source, hsize, hsource, hoperands, ?_⟩
    rintro top rfl hbounds hstack
    exact leaves_push host chunk toLoop hm hsource hoperands hbounds hstack
  · intro hm
    obtain ⟨size, destination, hsize, hdestination, hoperands⟩ := X86.operands_of_pop h hm
    refine ⟨size, destination, hsize, hdestination, hoperands, ?_⟩
    rintro raised rfl hstack hbounds
    obtain ⟨houtcome, m', hcompletes, hkept, hmoved⟩ :=
      leaves_pop host chunk toLoop hm hdestination hoperands hstack hbounds
    refine ⟨houtcome, m', hcompletes, hkept, hmoved, ?_⟩
    rintro rfl
    cases hdestination.size?_eq
    refine hmoved.get_register (List.mem_singleton.2 (congrArg _ ?_))
    exact UInt32.toNat_ofNat_of_lt' (m.store.memory.read_lt _ 4)
  · intro hm hstack
    have hleaves := leaves_pushad host chunk toLoop hm (X86.operands_of_moveForms h hm rfl) hstack
    refine ⟨hleaves, fun bytes' address' j n' hj hmj m₁ hcompletes => ?_⟩
    obtain ⟨-, m₂, hcompletes', -, hpushed⟩ := hleaves
    obtain rfl := Wasm.completes_unique hcompletes hcompletes'
    have hesp : m₁.store.get .esp = m.store.get .esp - 32 := hpushed.get_register List.mem_cons_self
    -- The places that are popped from are those that have been pushed to.
    have hstack' : ∀ k < 8, k ≠ 3 → (m₁.store.get .esp + UInt32.ofNat (4 * k)).toNat + 4 ≤ m₁.store.memory.size := by
      intro k hk _
      have hcount : k + (7 - k) = 7 := by omega
      rw [hesp, sub_add_slot _ hcount, hpushed.size]
      exact hstack (7 - k) (by omega)
    obtain ⟨houtcome, m', hcompletes', hkept, hpopped⟩ :=
      leaves_popad host chunk toLoop hmj (X86.operands_of_moveForms hj hmj rfl) hstack'
    exact ⟨houtcome, m', hcompletes', hkept, get_register_of_popad hpushed hpopped⟩
  · intro hm hstack
    exact leaves_popad host chunk toLoop hm (X86.operands_of_moveForms h hm rfl) hstack
  · intro hm hstack
    exact leaves_leave host chunk toLoop hm (X86.operands_of_moveForms h hm rfl) hstack
  · intro hm
    rcases X86.operands_of_ret h hm with hoperands | ⟨value, hoperands⟩
    · exact ⟨0, by decide, .inl ⟨hoperands, rfl⟩, attains_ret host chunk toLoop hm (.inl ⟨hoperands, rfl⟩)⟩
    · exact ⟨(Operand.imm value .bits16).value m.store, wrap_lt 16 value.toInt, .inr ⟨value, hoperands, rfl⟩,
        attains_ret host chunk toLoop hm (.inr ⟨value, hoperands, rfl⟩)⟩

/-- A stack with one word, and room above it. -/
def stacked : Wasm.Store Unit where
  globals := fun index => if index = 4 then 0x10 else 0
  memory := (⟨0x40, fun _ => 0⟩ : Wasm.Memory).write 0x10 4 0x11223344
  world := ()

/-- A word is popped to an address that is computed from the stack pointer after it has been raised. -/
theorem leaves_stack_of_decode_raised :
    ∃ i m', X86.decode [0x8f, 0x44, 0x24, 0x04] 0x1000 = .ok (i, 4) ∧
      Completes (fun _ _ => .error .trap) (instruction 0 0 i).code (.start stacked) m' ∧
      m'.store.memory.read 0x18 4 = 0x11223344 := by
  have hdecode : X86.decode [0x8f, 0x44, 0x24, 0x04] 0x1000 =
      .ok (⟨{}, 0x8f, .pop, [.scaledIndex (some 4) none 1 (some 4) .bits32 true], 0x1000, 0x1004⟩, 4) := by
    decide +kernel
  obtain ⟨-, hpop, -, -, -, -⟩ := leaves_stack_of_decode hdecode (fun _ _ => .error .trap) 0 0 (.start stacked)
  obtain ⟨size, destination, -, hdestination, hoperands, hleaves⟩ := hpop rfl
  cases hoperands
  cases hdestination.size?_eq
  obtain ⟨-, m', hcompletes, -, hmoved, -⟩ := hleaves _ rfl (by decide +kernel) (by decide +kernel)
  refine ⟨_, m', hdecode, hcompletes, ?_⟩
  exact (hmoved.holds _ (List.mem_singleton_self _)).trans (by decide +kernel)

end Ia32Wasm.Lowering
