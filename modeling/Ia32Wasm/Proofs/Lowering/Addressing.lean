import Ia32Wasm.Proofs.Lowering.Accesses
import Ia32Wasm.Proofs.Machine.Addresses
import Ia32Wasm.Proofs.Program.Resolution

/-!
# Addresses of decoded instructions

The code of an instruction loads from, stores to or computes the address that the bytes of the instruction encode.

* Every access of the code is at this address or at the stack pointer (`toNat_of_reaches`), and there is an access of
  the first kind: the code of each lowering comes to it (`attains_binary` and so on), whatever the machine holds.
* `UsesAddress` puts the two together, and says for an address as a value that it goes into a register.  It holds of
  every decoded instruction with a memory operand, once its branch target has been resolved
  (`usesAddress_of_resolvedTo`).
* The address is the sum of base, index and displacement.  A segment that a prefix names is added only where the
  bytes hold an address as a whole.
-/

namespace Ia32Wasm

open Machine (Slot)
open Wasm (Attains Config Host MemoryAccess exec)
open X86 (BinaryOp Instruction Mnemonic Operand OperandSize ShiftOp UnaryOp)

namespace Lowering

variable {ω β : Type} {i : Instruction} {op lhs rhs : Operand} {size : OperandSize}

/-! ### Accesses that are made -/

section Attained

variable {host : Host Callee ω} {destination source : Operand} {size' : OperandSize} {m m₁ : Wasm.Machine ω}

private theorem attains_loadOperand (h : op.Readable size) (hmemory : op.isMemory = true) (m : Wasm.Machine ω) :
    Attains host (loadOperand op).code m (Config.Accesses false) := by
  obtain ⟨-, access, hload, -⟩ := cases_of_isMemory h hmemory
  rw [hload]
  exact attains_bind (executes_addressOf h hmemory m) fun rest labels => ⟨_, .refl, _, rfl⟩

private theorem attains_storeOperand (h : op.Readable size) (hmemory : op.isMemory = true) (m : Wasm.Machine ω)
    (v : UInt32) :
    Attains host (storeOperand op).code (m.push (.i32 v)) (Config.Accesses true) := by
  obtain ⟨-, access, -, hstore⟩ := cases_of_isMemory h hmemory
  rw [hstore]
  refine attains_bind (executes_emit rfl) (attains_bind (executes_addressOf h hmemory _) fun rest labels => ?_)
  exact ⟨_, Relation.ReflTransGen.single rfl, _, rfl⟩

/-- A source that is no memory is always read. -/
private theorem executes_loadOperand_of_not_isMemory (h : op.Readable size) (hmemory : op.isMemory = false)
    (m : Wasm.Machine ω) :
    Executes host (loadOperand op) () m (m.push (.i32 (UInt32.ofNat (op.value m.store)))) :=
  executes_loadOperand h fun h' => by rw [hmemory] at h'; cases h'

/-- Of two sources, the one that is memory is read. -/
private theorem attains_loads (hlhs : lhs.Readable size) (hrhs : rhs.Readable size')
    (h : lhs.isMemory = true ∨ rhs.isMemory = true) (index : Nat) (f : Unit → Lowering β) (m : Wasm.Machine ω) :
    Attains host (do loadOperand lhs; emit [.localSet index]; let x ← loadOperand rhs; f x).code m
      (Config.Accesses false) := by
  cases hmemory : lhs.isMemory with
  | true => exact attains_bind_left (attains_loadOperand hlhs hmemory m) _
  | false =>
    have hrhsMemory : rhs.isMemory = true := by
      rw [hmemory] at h
      simpa using h
    refine attains_bind (executes_loadOperand_of_not_isMemory hlhs hmemory m) (attains_bind (executes_emit rfl) ?_)
    exact attains_bind_left (attains_loadOperand hrhs hrhsMemory _) _

private theorem attains_stage (hlhs : lhs.Readable size) (hrhs : rhs.Readable size')
    (h : lhs.isMemory = true ∨ rhs.isMemory = true) (m : Wasm.Machine ω) :
    Attains host (stage lhs rhs).code m (Config.Accesses false) :=
  attains_loads hlhs hrhs h _ _ m

/-- An operation with an operand in memory reads it. -/
theorem attains_binary (op : BinaryOp) (hlhs : lhs.Readable size) (hrhs : rhs.Readable size')
    (h : lhs.isMemory = true ∨ rhs.isMemory = true)
    (hoperands : i.operands = [lhs, lhs, rhs] ∨ i.operands = [lhs, rhs]) (m : Wasm.Machine ω) :
    Attains host (binary op i).code m (Config.Accesses false) := by
  unfold binary
  rcases hoperands with hoperands | hoperands <;> rw [hoperands]
  all_goals exact attains_bind (executes_scalarSize hlhs m) (attains_bind_left (attains_stage hlhs hrhs h m) _)

private theorem attains_unary (op : UnaryOp) (h : source.Readable size) (hmemory : source.isMemory = true)
    (hoperands : i.operands = [source]) (m : Wasm.Machine ω) :
    Attains host (unary op i).code m (Config.Accesses false) := by
  unfold unary
  rw [hoperands]
  refine attains_bind (executes_scalarSize h m) ?_
  cases op with
  | neg => exact attains_bind (executes_emit rfl) (attains_bind_left (attains_loadOperand h hmemory _) _)
  | _ => exact attains_bind_left (attains_loadOperand h hmemory m) _

private theorem attains_shift (op : ShiftOp) (hlhs : lhs.Readable size) (hrhs : rhs.Readable size')
    (h : lhs.isMemory = true ∨ rhs.isMemory = true) (hoperands : i.operands = [lhs, lhs, rhs]) (m : Wasm.Machine ω) :
    Attains host (shift op i).code m (Config.Accesses false) := by
  unfold shift
  rw [hoperands]
  exact attains_bind (executes_scalarSize hlhs m) (attains_loads hlhs hrhs h _ _ m)

private theorem attains_multiplyAccumulator (signed : Bool) (h : source.Readable size)
    (hmemory : source.isMemory = true)
    (hoperands : i.operands = [source]) (m : Wasm.Machine ω) :
    Attains host (multiply signed i).code m (Config.Accesses false) := by
  unfold multiply
  rw [hoperands]
  have haccumulator := (Operand.writable_reg (by decide : (0 : UInt8).toNat < 8) h.scalar).toReadable
  exact attains_bind (executes_scalarSize h m) (attains_bind_left (attains_stage haccumulator h (.inr hmemory) m) _)

private theorem attains_multiplyInto (hdestination : destination.Readable size) (hlhs : lhs.Readable size)
    (hrhs : rhs.Readable size') (h : lhs.isMemory = true ∨ rhs.isMemory = true)
    (hoperands : i.operands = [destination, lhs, rhs]) (m : Wasm.Machine ω) :
    Attains host (multiply true i).code m (Config.Accesses false) := by
  unfold multiply
  rw [hoperands]
  exact attains_bind (executes_scalarSize hdestination m) (attains_bind_left (attains_stage hlhs hrhs h m) _)

private theorem attains_compareExchange (hdestination : destination.Readable size)
    (hmemory : destination.isMemory = true)
    (hoperands : i.operands = [destination, source]) (m : Wasm.Machine ω) :
    Attains host (compareExchange i).code m (Config.Accesses false) := by
  unfold compareExchange
  rw [hoperands]
  have haccumulator := (Operand.writable_reg (by decide : (0 : UInt8).toNat < 8) hdestination.scalar).toReadable
  exact attains_bind (executes_scalarSize hdestination m)
    (attains_bind_left (attains_stage haccumulator hdestination (.inr hmemory) m) _)

private theorem attains_exchange (hlhs : lhs.Readable size) (hrhs : rhs.Readable size')
    (h : lhs.isMemory = true ∨ rhs.isMemory = true) (hoperands : i.operands = [lhs, rhs]) (m : Wasm.Machine ω) :
    Attains host (exchange i).code m (Config.Accesses false) := by
  unfold exchange
  rw [hoperands]
  exact attains_bind_left (attains_stage hlhs hrhs h m) _

/-- A source of which the width is looked at is read. -/
private theorem attains_sized (h : source.Readable size) (hmemory : source.isMemory = true)
    (f : OperandSize → Unit → Lowering β) (m : Wasm.Machine ω) :
    Attains host (do let size ← scalarSize source; let x ← loadOperand source; f size x).code m
    (Config.Accesses false) :=
  attains_bind (executes_scalarSize h m) (attains_bind_left (attains_loadOperand h hmemory m) _)

private theorem attains_divisor (signed : Bool) (h : source.Readable size) (hmemory : source.isMemory = true)
    (hoperands : i.operands = [source]) (m : Wasm.Machine ω) :
    Attains host (divide signed i).code m (Config.Accesses false) := by
  unfold divide
  rw [hoperands]
  exact attains_sized h hmemory _ m

private theorem attains_push (h : source.Readable size) (hmemory : source.isMemory = true)
    (hoperands : i.operands = [source])
    (m : Wasm.Machine ω) : Attains host (push i).code m (Config.Accesses false) := by
  unfold push
  rw [hoperands]
  exact attains_sized h hmemory _ m

private theorem attains_widen (signed : Bool) (h : source.Readable size) (hmemory : source.isMemory = true)
    (hoperands : i.operands = [destination, source]) (m : Wasm.Machine ω) :
    Attains host (widen signed i).code m (Config.Accesses false) := by
  unfold widen
  rw [hoperands]
  exact attains_sized h hmemory _ m

/-- A move reads memory, or it writes memory after it has read what is no memory. -/
private theorem attains_move (hoperands : i.operands = [destination, source])
    (h : (source.Readable size ∧ source.isMemory = true) ∨
      (destination.Readable size ∧ destination.isMemory = true ∧
        ∃ v, Executes host (loadOperand source) () m (m.push (.i32 v)))) :
    ∃ isStore, Attains host (move i).code m (Config.Accesses isStore) := by
  unfold move
  rw [hoperands]
  rcases h with ⟨hsource, hmemory⟩ | ⟨hdestination, hmemory, v, hload⟩
  · exact ⟨false, attains_bind_left (attains_loadOperand hsource hmemory m) _⟩
  · exact ⟨true, attains_bind hload (attains_storeOperand hdestination hmemory m v)⟩

/-- A segment register that there is can be read. -/
private theorem executes_loadSegment {index : UInt8} (h : index.toNat < 6) (m : Wasm.Machine ω) :
    ∃ v, Executes host (loadOperand (.segment index .bits16 false none)) () m (m.push (.i32 v)) := by
  refine ⟨m.store.get (.segment ⟨index.toNat % 6, Nat.mod_lt _ (Nat.succ_pos 5)⟩), ?_⟩
  show Executes host (segmentGlobal index >>= _) () m _
  rw [segmentGlobal_eq h]
  exact executes_bind (executes_pure _ m) (executes_emit rfl)

private theorem attains_storeCondition {c : X86.Condition} (hm : i.mnemonic = .set c) (h : destination.Readable size)
    (hmemory : destination.isMemory = true) (hoperands : i.operands = [destination]) (m : Wasm.Machine ω) :
    Attains host (storeCondition i).code m (Config.Accesses true) := by
  have hcondition : ∃ v, exec (condition c) m = .ok (m.push (.i32 v)) := by cases c <;> exact ⟨_, rfl⟩
  obtain ⟨v, hv⟩ := hcondition
  unfold storeCondition testCondition
  rw [hoperands, hm]
  exact attains_bind (executes_emit hv) (attains_storeOperand h hmemory m v)

/-- What is on top of the stack is read, and the stack shrinks by as many bytes. -/
theorem executes_popValue (host : Host Callee ω) (hsize : size ≠ .bits128)
    (h : (m.store.get .esp).toNat + size.bytes ≤ m.store.memory.size) :
    Executes host (popValue size) () m
      ((m.setGlobal Slot.esp.index (m.store.get .esp + UInt32.ofNat size.bytes)).push
        (.i32 (UInt32.ofNat (m.store.memory.read (m.store.get .esp).toNat size.bytes)))) :=
  executes_bind (executes_emit (exec_getSlot .esp m)) (executes_bind (executes_load hsize h) (executes_emit rfl))

private theorem attains_pop (h : destination.Readable size) (hmemory : destination.isMemory = true)
    (hoperands : i.operands = [destination]) (hstack : (m.store.get .esp).toNat + 4 ≤ m.store.memory.size) :
    Attains host (pop i).code m (Config.Accesses true) := by
  have hbytes : size.bytes ≤ 4 := by
    have hscalar := h.scalar
    cases size with
    | bits128 => exact absurd rfl hscalar
    | _ => decide
  have hpop := executes_popValue host h.scalar (Nat.le_trans (Nat.add_le_add_left hbytes _) hstack)
  unfold pop
  rw [hoperands]
  exact attains_bind (executes_scalarSize h m) (attains_bind hpop (attains_storeOperand h hmemory _ _))

/-- A branch whose target is found at run time reads the target first. -/
private theorem attains_dynamic (hm : i.mnemonic = .dynamicCall ∨ i.mnemonic = .dynamicJump)
    (h : source.Readable size)
    (hmemory : source.isMemory = true) (hoperands : i.operands = [source]) (chunk : UInt32) (toLoop : Nat)
    (m : Wasm.Machine ω) : Attains host (instruction chunk toLoop i).code m (Config.Accesses false) := by
  unfold instruction prologue
  refine attains_bind_left ?_ _
  rcases hm with hm | hm <;> rw [hm, hoperands] <;> exact attains_bind_left (attains_loadOperand h hmemory m) _

/-! ### Addresses as values -/

/-- The address of memory goes into a register, cut to its width. -/
private theorem performs_loadAddress {E : Int} (host : Host Callee ω) (chunk : UInt32) (toLoop : Nat)
    (hm : i.mnemonic = .lea)
    (hdestination : destination.Writable size) (hregister : destination.isMemory = false)
    (hsource : source.Readable size')
    (hmemory : source.isMemory = true) (hoperands : i.operands = [destination, source])
    (haddress : (source.address m.store).toNat = wrap 32 E) :
    Performs host chunk toLoop i m ⟨[(destination, wrap size.bits E)], fun _ => none⟩ := by
  have hbounds : destination.InBounds m.store := fun h => by
    rw [hregister] at h
    cases h
  obtain ⟨w, hstore⟩ := executes_storeOperand host hdestination hbounds (source.address m.store &&& size.mask)
  have hbody : Executes host (loadAddress i) () m
      (assigned m destination (source.address m.store &&& size.mask).toNat w) := by
    unfold loadAddress
    rw [hoperands]
    refine executes_bind (executes_addressOf hsource hmemory m) ?_
    refine executes_bind (executes_scalarSize hdestination.toReadable _) ?_
    exact executes_bind (executes_emit (exec_maskTo size m _)) hstore
  rw [toNat_and_mask_eq_wrap hdestination.scalar haddress] at hbody
  refine performs_of_executes (r := (destination.assign m.store (wrap size.bits E)).get .t1)
    (by rw [computation?, hm]) hbody
    ?_ rfl (Wasm.Store.set_get _ _).symm
  unfold updateFlags
  rw [hm, Wasm.Machine.setFlags_none]
  exact executes_pure () _

end Attained

end Lowering

/-! ### Memory operands of decoded instructions -/

namespace X86

/-- The operation of an entry can have memory where the entry has it. -/
def Opcode.Entry.fitsMemory (e : Opcode.Entry) : Bool :=
  match e.mnemonic with
  | .lea | .widen _ => !e.shape.leadsWithMemory
  | .cmpxchg => e.shape.leadsWithMemory
  | .multiply _ => e.shape.leadsWithMemory == (e.kinds.length == 1)
  | .jump | .call => decide (e.shape = .rm .dword) && !e.readsFirst
  | .movlpd | .xorps => true
  | mnemonic => mnemonic.takesMemory

private theorem Opcode.fitsMemory_of_mem_table {e : Opcode.Entry} (h : e ∈ Opcode.table)
    (hshape : e.shape.mayAddress = true) :
    e.fitsMemory = true := by
  have hall : Opcode.table.all (fun e => !e.shape.mayAddress || e.fitsMemory) = true := by decide +kernel
  have hentry := List.all_eq_true.1 hall e h
  rw [hshape] at hentry
  exact hentry

/-- The operand `op` is the memory of an instruction with an entry, and no other operand is memory. -/
structure TakesMemory (i : Instruction) (e : Opcode.Entry) (segment : Option (Fin 6)) (a : EffectiveAddress)
    (op : Operand) : Prop where
  mem : op ∈ i.operands
  addressed : op.AddressedBy segment a
  unique : ∀ op' ∈ i.operands, op'.isMemory = true → op' = op
  head : e.shape.leadsWithMemory = true → i.operands.head? = some op
  behind : e.shape.leadsWithMemory = false → ∀ first, i.operands.head? = some first → first.isMemory = false

section Decoded

variable {bytes : List UInt8} {address : UInt32} {i : Instruction} {n : Nat} {e : Opcode.Entry} {a : EffectiveAddress}
  {op : Operand}

private theorem exists_takesMemory_of_decode (h : decode bytes address = .ok (i, n)) (hnames : Encoding.Names bytes e)
    (ha : Encoding.address? bytes e = some a) :
    ∃ op, TakesMemory i e (if Encoding.isDirect bytes e then Encoding.override? bytes else none) a op := by
  obtain ⟨ops, hmemory, hoperands⟩ := hasMemory_of_decode h hnames ha
  have hsame : ∀ op', op' ∈ i.operands ↔ op' ∈ ops := by
    intro op'
    rw [hoperands]
    split
    · cases ops <;> simp [Fetch.repeatFirst]
    · rfl
  have hhead : i.operands.head? = ops.head? := by
    rw [hoperands]
    split
    · cases ops <;> rfl
    · rfl
  have hother : ∀ {others : List Operand} {op'}, (∀ op' ∈ others, op'.isMemory = false) → op' ∈ others →
      op'.isMemory = true → False := fun hothers hop' htrue => by
    rw [hothers _ hop'] at htrue
    cases htrue
  -- the memory is the first operand or the second, as the shape says; a first operand that stands twice changes
  -- nothing
  cases hleads : e.shape.leadsWithMemory with
  | true =>
    rw [hleads] at hmemory
    cases hmemory with
    | @first op others hop hothers =>
      refine ⟨op, (hsame op).2 List.mem_cons_self, hop, fun op' hop' htrue => ?_, fun _ => hhead, fun hfalse => ?_⟩
      · rcases List.mem_cons.1 ((hsame op').1 hop') with rfl | hmem
        · rfl
        · exact (hother hothers hmem htrue).elim
      · rw [hleads] at hfalse
        cases hfalse
  | false =>
    rw [hleads] at hmemory
    cases hmemory with
    | @second first op others hop hfirst hothers =>
      refine ⟨op, (hsame op).2 (by simp), hop, fun op' hop' htrue => ?_, fun htrue => ?_, fun _ first' hfirst' => ?_⟩
      · rcases List.mem_cons.1 ((hsame op').1 hop') with rfl | hmem
        · rw [hfirst] at htrue
          cases htrue
        · rcases List.mem_cons.1 hmem with rfl | hmem
          · rfl
          · exact (hother hothers hmem htrue).elim
      · rw [hleads] at htrue
        cases htrue
      · rw [hhead] at hfirst'
        cases hfirst'
        exact hfirst

private theorem TakesMemory.exists_isMemory {segment : Option (Fin 6)} (h : TakesMemory i e segment a op) :
    ∃ op' ∈ i.operands, op'.isMemory = true :=
  ⟨op, h.mem, h.addressed.isMemory⟩

/-- The operands of a decoded instruction have numbers and scales that can be encoded. -/
private theorem encodable_of_decode (h : decode bytes address = .ok (i, n)) :
    ∀ op ∈ i.operands, op.Numbered ∧ op.Scaled := by
  obtain ⟨rest, hread⟩ := instruction_of_decode h
  obtain ⟨entry, hentry, behind, ops, -, hread, -, hoperands⟩ := Fetch.exists_entry_of_instruction hread
  obtain ⟨-, hnumbered⟩ := Fetch.reads_operands _ _ _ _ _ _ hread
  obtain ⟨-, hscaled⟩ := Fetch.reads_scaled _ _ _ _ _ _ hread
  intro op hop
  rw [hoperands] at hop
  have hmem := Fetch.mem_of_mem_repeatFirst hop
  exact ⟨hnumbered op hmem, hscaled op hmem⟩

private theorem readable_of_isValue (h : op.IsValue) (hencodable : op.Numbered ∧ op.Scaled) :
    ∃ size, op.Readable size := by
  rcases h with hplace | ⟨value, size, rfl, hscalar⟩
  · obtain ⟨size, -, hsize, -⟩ := Lowering.isPlace_cases hplace
    exact ⟨size, .inl hplace, hencodable.1, hencodable.2, hsize⟩
  · exact ⟨size, .inr ⟨value, size, rfl, hscalar⟩, hencodable.1, hencodable.2, rfl⟩

/-- Among operands of known kinds, memory is a place. -/
private theorem isPlace_of_isMemory {form : List Kind} {ops : List Operand} (hkinds : List.Forall₂ Kind.Is form ops)
    (hform : Kind.any ∉ form) (hop : op ∈ ops) (hmemory : op.isMemory = true) : op.IsPlace := by
  induction hkinds with
  | nil => cases hop
  | @cons k op' form ops hk _ ih =>
    obtain ⟨hne, hform⟩ := not_or.1 (fun h => hform (List.mem_cons.2 h))
    rcases List.mem_cons.1 hop with rfl | hop
    · cases k with
      | place => exact hk
      | constant =>
        obtain ⟨value, size, rfl, -⟩ := hk
        cases hmemory
      | value =>
        rcases hk with hplace | ⟨value, size, rfl, -⟩
        · exact hplace
        · cases hmemory
      | segment =>
        obtain ⟨index, rfl, -⟩ := hk
        cases hmemory
      | any => exact absurd rfl hne
    · exact ih hform hop

/-- The memory of a decoded instruction can be read, unless it is a vector. -/
theorem TakesMemory.readable {segment : Option (Fin 6)} (h : TakesMemory i e segment a op)
    (hdecode : decode bytes address = .ok (i, n)) (hvector : i.mnemonic ≠ .movlpd ∧ i.mnemonic ≠ .xorps) :
    op.IsPlace ∧ ∃ size, op.Readable size := by
  obtain ⟨form, hform, hkinds⟩ := formed_of_decode hdecode
  have hany : Kind.any ∉ form := by
    intro hany
    have hall : ∀ form ∈ i.mnemonic.forms, Kind.any ∉ form := by
      generalize i.mnemonic = mnemonic at hvector
      cases mnemonic with
      | multiply signed => cases signed <;> decide
      | movlpd => exact absurd rfl hvector.1
      | xorps => exact absurd rfl hvector.2
      | _ => simp [Mnemonic.forms]
    exact hall form hform hany
  have hplace := isPlace_of_isMemory hkinds hany h.mem h.addressed.isMemory
  exact ⟨hplace, readable_of_isValue hplace.isValue (encodable_of_decode hdecode op h.mem)⟩

private theorem kinds_of_decode (h : decode bytes address = .ok (i, n)) (hnames : Encoding.Names bytes e) :
    List.Forall₂ Kind.Is e.kinds i.operands := by
  obtain ⟨-, -, ops, rest, hops, hoperands⟩ := operands_of_decode h hnames
  obtain ⟨-, hkinds⟩ := Fetch.reads_kinds _ _ _ _ _ _ hops
  rw [hoperands]
  exact Opcode.Entry.forall₂_kinds hkinds

/-- The only operand of an instruction is its memory. -/
private theorem TakesMemory.operands_eq_singleton {segment : Option (Fin 6)} {k : Kind}
    (h : TakesMemory i e segment a op)
    (hdecode : decode bytes address = .ok (i, n)) (hforms : i.mnemonic.forms = [[k]]) : i.operands = [op] := by
  obtain ⟨form, hform, hkinds⟩ := formed_of_decode hdecode
  rw [hforms] at hform
  obtain rfl := List.mem_singleton.1 hform
  obtain ⟨op', hoperands, -⟩ := Kind.eq_one hkinds
  have hmem := h.mem
  rw [hoperands] at hmem
  rw [hoperands, List.mem_singleton.1 hmem]

/-- The memory of an instruction comes behind a destination that is no memory. -/
private theorem TakesMemory.operands_eq_pair {segment : Option (Fin 6)} {k k' : Kind}
    (h : TakesMemory i e segment a op)
    (hdecode : decode bytes address = .ok (i, n)) (hforms : i.mnemonic.forms = [[k, k']])
    (hbehind : e.shape.leadsWithMemory = false) :
    ∃ destination, i.operands = [destination, op] ∧ k.Is destination ∧ destination.isMemory = false := by
  obtain ⟨form, hform, hkinds⟩ := formed_of_decode hdecode
  rw [hforms] at hform
  obtain rfl := List.mem_singleton.1 hform
  obtain ⟨destination, source, hoperands, hdestination, -⟩ := Kind.eq_two hkinds
  have hregister := h.behind hbehind destination (by rw [hoperands]; rfl)
  have hmem := h.mem
  rw [hoperands] at hmem
  rcases List.mem_pair.1 hmem with rfl | rfl
  · rw [h.addressed.isMemory] at hregister
    cases hregister
  · exact ⟨destination, hoperands, hdestination, hregister⟩

end Decoded

end X86

namespace Lowering

open X86 (EffectiveAddress TakesMemory)

variable {ω : Type} {bytes : List UInt8} {address : UInt32} {i : Instruction} {n : Nat} {e : X86.Opcode.Entry}
  {a : EffectiveAddress} {segment : Option (Fin 6)} {op : Operand} {size : OperandSize}

section Decoded

variable (h : X86.decode bytes address = .ok (i, n)) (htakes : TakesMemory i e segment a op) (host : Host Callee ω)
  (chunk : UInt32) (toLoop : Nat) (m : Wasm.Machine ω)

include h htakes

/-- An arithmetic instruction loads its memory before anything else can stop it. -/
private theorem attains_of_arithmetic (hnames : X86.Encoding.Names bytes e) (hfits : e.fitsMemory = true)
    (hforms : i.mnemonic.sizedForms ≠ []) :
    Attains host (instruction chunk toLoop i).code m (Config.Accesses false) := by
  have hmemory := htakes.exists_isMemory
  have hentry : e.mnemonic = i.mnemonic := (X86.operands_of_decode h hnames).1.symm
  cases hm : i.mnemonic with
  | binary o =>
    obtain ⟨size, first, second, hfirst, hsecond, hoperands⟩ := X86.operands_of_binary h hm
    refine attains_instruction (by rw [computation?, hm]) (attains_binary o hfirst.toReadable hsecond ?_ ?_ m)
    · cases hwrites : o.writes <;> simpa [hoperands, hwrites] using hmemory
    · cases hwrites : o.writes <;> simp [hoperands, hwrites]
  | unary o =>
    obtain ⟨size, source, hsource, hoperands⟩ := X86.operands_of_unary h hm
    refine attains_instruction (by rw [computation?, hm]) ?_
    exact attains_unary o hsource.toReadable (by simpa [hoperands] using hmemory) hoperands m
  | shift o =>
    obtain ⟨size, destination, count, hdestination, hcount, hoperands⟩ := X86.operands_of_shift h hm
    refine attains_instruction (by rw [computation?, hm]) ?_
    exact attains_shift o hdestination.toReadable hcount (by simpa [hoperands] using hmemory) hoperands m
  | divide signed =>
    obtain ⟨size, source, hsource, hoperands⟩ := X86.operands_of_divide h hm
    refine attains_instruction (by rw [computation?, hm]) ?_
    exact attains_divisor signed hsource.toReadable (by simpa [hoperands] using hmemory) hoperands m
  | multiply signed =>
    rcases X86.operands_of_multiply h hm with ⟨size, source, hsource, hoperands⟩ |
      ⟨rfl, size, destination, lhs, rhs, hdestination, hlhs, hrhs, hoperands⟩
    · refine attains_instruction (by rw [computation?, hm]) ?_
      exact attains_multiplyAccumulator signed hsource.toReadable (by simpa [hoperands] using hmemory) hoperands m
    · -- with three operands the first is a register, and one of the sources is the memory
      have hlength : e.kinds.length = 3 := by
        rw [(X86.kinds_of_decode h hnames).length_eq, hoperands]
        rfl
      have hbehind : e.shape.leadsWithMemory = false := by
        rw [X86.Opcode.Entry.fitsMemory, hentry, hm] at hfits
        simpa [hlength] using hfits
      have hregister := htakes.behind hbehind destination (by rw [hoperands]; rfl)
      have hsource : lhs.isMemory = true ∨ rhs.isMemory = true := by simpa [hoperands, hregister] using hmemory
      refine attains_instruction (by rw [computation?, hm]) ?_
      exact attains_multiplyInto hdestination.toReadable hlhs hrhs hsource hoperands m
  | cmpxchg =>
    obtain ⟨size, destination, source, hdestination, -, hoperands⟩ := X86.operands_of_cmpxchg h hm
    have hleads : e.shape.leadsWithMemory = true := by
      rw [X86.Opcode.Entry.fitsMemory, hentry, hm] at hfits
      exact hfits
    have hhead := htakes.head hleads
    rw [hoperands] at hhead
    cases hhead
    refine attains_instruction (by rw [computation?, hm]) ?_
    exact attains_compareExchange hdestination.toReadable htakes.addressed.isMemory hoperands m
  | _ =>
    rw [hm] at hforms
    exact absurd rfl hforms

/-- A move loads its memory, or stores to it after it has read a register or a constant. -/
private theorem exists_attains_of_mov (hm : i.mnemonic = .mov) (hgap : i.isGap = false) :
    ∃ isStore, Attains host (instruction chunk toLoop i).code m (Config.Accesses isStore) := by
  have hmemory := htakes.exists_isMemory
  have hreadable : ∀ op ∈ i.operands, op.IsValue → ∃ size, op.Readable size := fun op hop hvalue =>
    X86.readable_of_isValue hvalue (X86.encodable_of_decode h op hop)
  suffices hmove : ∃ isStore, Attains host (move i).code m (Config.Accesses isStore) by
    obtain ⟨isStore, hattains⟩ := hmove
    refine ⟨isStore, ?_⟩
    unfold instruction prologue body
    rw [hm]
    exact attains_bind (executes_pure () m) (attains_bind_left hattains _)
  obtain ⟨form, hform, hkinds⟩ := X86.formed_of_decode h
  rw [hm] at hform
  simp only [Mnemonic.forms, List.mem_cons, List.not_mem_nil, or_false] at hform
  -- a general move, a move to a segment register, and a move from one
  rcases hform with rfl | rfl | rfl
  · obtain ⟨destination, source, hoperands, hdestination, hsource⟩ := X86.Kind.eq_two hkinds
    obtain ⟨size, hdestination⟩ := hreadable destination (by simp [hoperands]) (.inl hdestination)
    obtain ⟨size', hsource⟩ := hreadable source (by simp [hoperands]) hsource
    cases hloads : source.isMemory with
    | true => exact attains_move hoperands (.inl ⟨hsource, hloads⟩)
    | false =>
      have hstores : destination.isMemory = true := by simpa [hoperands, hloads] using hmemory
      exact attains_move hoperands (.inr
        ⟨hdestination, hstores, _, executes_loadOperand_of_not_isMemory hsource hloads m⟩)
  · obtain ⟨destination, source, hoperands, ⟨index, rfl, -⟩, hsource⟩ := X86.Kind.eq_two hkinds
    obtain ⟨size, hsource⟩ := hreadable source (by simp [hoperands]) (.inl hsource)
    have hloads : source.isMemory = true := by simpa [hoperands, Operand.isMemory] using hmemory
    exact attains_move hoperands (.inl ⟨hsource, hloads⟩)
  · obtain ⟨destination, source, hoperands, hdestination, ⟨index, rfl, hlt⟩⟩ := X86.Kind.eq_two hkinds
    obtain ⟨size, hdestination⟩ := hreadable destination (by simp [hoperands]) (.inl hdestination)
    have hstores : destination.isMemory = true := by simpa [hoperands, Operand.isMemory] using hmemory
    -- a segment register that there is not would make the instruction a gap
    have hindex : index.toNat < 6 := by
      simp only [X86.Instruction.isGap, hm, hoperands, List.any_cons, X86.Operand.isMissingSegment,
        Bool.or_eq_false_iff,
        beq_eq_false_iff_ne, ne_eq, ← UInt8.toNat_inj] at hgap
      have hsix : ¬ index.toNat = 6 := hgap.2.1.1
      have hseven : ¬ index.toNat = 7 := hgap.2.1.2
      omega
    exact attains_move hoperands (.inr ⟨hdestination, hstores, executes_loadSegment hindex m⟩)

/-- The code of a decoded instruction accesses its memory, whatever the state of the machine; only a pop has to load
from the stack first. -/
private theorem exists_attains (hnames : X86.Encoding.Names bytes e) (hfits : e.fitsMemory = true)
    (hvector : i.mnemonic ≠ .movlpd ∧ i.mnemonic ≠ .xorps) (hm : i.mnemonic.takesMemory = true)
    (hlea : i.mnemonic ≠ .lea)
    (hgap : i.isGap = false) (hstack : i.mnemonic = .pop → (m.store.get .esp).toNat + 4 ≤ m.store.memory.size) :
    ∃ isStore, i.mnemonic.usesStack isStore = false ∧
      Attains host (instruction chunk toLoop i).code m (Config.Accesses isStore) := by
  obtain ⟨-, size, hreads⟩ := htakes.readable h hvector
  have hmemory := htakes.addressed.isMemory
  have harithmetic := attains_of_arithmetic h htakes host chunk toLoop m hnames hfits
  have hsingle : ∀ {k}, i.mnemonic.forms = [[k]] → i.operands = [op] := htakes.operands_eq_singleton h
  cases hmnemonic : i.mnemonic with
  | binary | unary | shift | divide | cmpxchg =>
    exact ⟨false, rfl, harithmetic (by rw [hmnemonic]; exact List.cons_ne_nil _ _)⟩
  | multiply signed =>
    exact ⟨false, rfl, harithmetic (by rw [hmnemonic]; cases signed <;> exact List.cons_ne_nil _ _)⟩
  | mov =>
    obtain ⟨isStore, hattains⟩ := exists_attains_of_mov h htakes host chunk toLoop m hmnemonic hgap
    exact ⟨isStore, by cases isStore <;> rfl, hattains⟩
  | widen signed =>
    have hbehind : e.shape.leadsWithMemory = false := by
      rw [X86.Opcode.Entry.fitsMemory, ← (X86.operands_of_decode h hnames).1, hmnemonic] at hfits
      simpa using hfits
    obtain ⟨destination, hoperands, -⟩ := htakes.operands_eq_pair h (by rw [hmnemonic]; rfl) hbehind
    refine ⟨false, rfl, attains_instruction (by rw [computation?, hmnemonic]) ?_⟩
    exact attains_widen signed hreads hmemory hoperands m
  | xchg =>
    have hreadable : ∀ op ∈ i.operands, op.IsPlace → ∃ size, op.Readable size := fun op hop hplace =>
      X86.readable_of_isValue hplace.isValue (X86.encodable_of_decode h op hop)
    obtain ⟨form, hform, hkinds⟩ := X86.formed_of_decode h
    rw [hmnemonic] at hform
    obtain rfl := List.mem_singleton.1 hform
    obtain ⟨lhs, rhs, hoperands, hlhs, hrhs⟩ := X86.Kind.eq_two hkinds
    obtain ⟨size, hlhs⟩ := hreadable lhs (by simp [hoperands]) hlhs
    obtain ⟨size', hrhs⟩ := hreadable rhs (by simp [hoperands]) hrhs
    refine ⟨false, rfl, attains_instruction (by rw [computation?, hmnemonic]) ?_⟩
    exact attains_exchange hlhs hrhs (by simpa [hoperands] using htakes.exists_isMemory) hoperands m
  | push =>
    refine ⟨false, rfl, attains_instruction (by rw [computation?, hmnemonic]) ?_⟩
    exact attains_push hreads hmemory (hsingle (by rw [hmnemonic]; rfl)) m
  | pop =>
    refine ⟨true, rfl, attains_instruction (by rw [computation?, hmnemonic]) ?_⟩
    exact attains_pop hreads hmemory (hsingle (by rw [hmnemonic]; rfl)) (hstack hmnemonic)
  | set c =>
    refine ⟨true, rfl, attains_instruction (by rw [computation?, hmnemonic]) ?_⟩
    exact attains_storeCondition hmnemonic hreads hmemory (hsingle (by rw [hmnemonic]; rfl)) m
  | lea => exact absurd hmnemonic hlea
  | dynamicCall | dynamicJump =>
    -- the decoder knows no such operations
    obtain ⟨form, hform, -⟩ := X86.formed_of_decode h
    rw [hmnemonic] at hform
    cases hform
  | _ =>
    rw [hmnemonic] at hm
    cases hm

end Decoded

/-! ### Resolved instructions -/

/-- The code of an instruction loads from and stores to the address `E`, in the store that there is at the time, and
to the stack where the operation says so.  It makes at least one access that is not to the stack; for a pop the stack
has to be in memory. -/
structure AccessesAt (host : Host Callee ω) (chunk : UInt32) (toLoop : Nat) (i : Instruction) (m : Wasm.Machine ω)
    (E : Wasm.Store ω → Int) : Prop where
  outcome : (instruction chunk toLoop i).outcome = .ok ()
  only : ∀ c x, Config.Reaches host ⟨(instruction chunk toLoop i).code, [], m⟩ c → c.access? = some x →
    x.address.toNat =
      if i.mnemonic.usesStack x.isStore then (c.machine.store.get .esp).toNat else wrap 32 (E c.machine.store)
  reached : (i.mnemonic = .pop → (m.store.get .esp).toNat + 4 ≤ m.store.memory.size) →
    ∃ c x, Config.Reaches host ⟨(instruction chunk toLoop i).code, [], m⟩ c ∧ c.access? = some x ∧
      i.mnemonic.usesStack x.isStore = false

/-- The code of an instruction uses the address `E`: an address as a value goes into a register, cut to its width,
and every other instruction accesses memory there. -/
def UsesAddress (host : Host Callee ω) (chunk : UInt32) (toLoop : Nat) (i : Instruction) (m : Wasm.Machine ω)
    (E : Wasm.Store ω → Int) : Prop :=
  if i.mnemonic = .lea then
    ∃ size destination, i.operands.head? = some destination ∧ destination.Writable size ∧
      Performs host chunk toLoop i m ⟨[(destination, wrap size.bits (E m.store))], fun _ => none⟩
  else AccessesAt host chunk toLoop i m E

/-- Every access of an instruction with one memory operand is at the address of this operand, or to the stack. -/
theorem toNat_of_reaches {host : Host Callee ω} {chunk : UInt32} {toLoop : Nat} {m : Wasm.Machine ω}
    (hm : i.mnemonic.takesMemory = true) (hunique : ∀ op' ∈ i.operands, op'.isMemory = true → op' = op)
    (hreads : op.Readable size) (haddressed : op.AddressedBy segment a) {c : Config Callee ω} {x : MemoryAccess}
    (hreaches : Config.Reaches host ⟨(instruction chunk toLoop i).code, [], m⟩ c) (hx : c.access? = some x) :
    x.address.toNat = if i.mnemonic.usesStack x.isStore then (c.machine.store.get .esp).toNat
      else wrap 32 (X86.segmentBase segment c.machine.store + a.sum c.machine.store) := by
  have hadmits : Admits (Follows i.mnemonic fun s : Wasm.Store ω => op.address s) i := by
    refine admits_follows fun op' hop' hmemory => ?_
    rw [hunique op' hop' hmemory]
    exact ⟨⟨size, hreads⟩, fun _ => rfl⟩
  -- the guard of the code gives the address as a word; the bytes give it as a number
  have hfollows := Wasm.holds_of_reaches (guards_instruction hadmits hm chunk toLoop) hreaches hx
  rw [Follows] at hfollows
  rw [hfollows]
  split
  · rfl
  · exact haddressed.toNat_address c.machine.store

section Resolved

variable (h : X86.decode bytes address = .ok (i, n)) (hvector : i.mnemonic ≠ .movlpd ∧ i.mnemonic ≠ .xorps)
  (htakes : TakesMemory i e segment a op) (host : Host Callee ω) (chunk : UInt32) (toLoop : Nat) (m : Wasm.Machine ω)

include h hvector

private theorem takesMemory_of_fits (hnames : X86.Encoding.Names bytes e) (hfits : e.fitsMemory = true)
    (hbranch : i.mnemonic.isBranch = false) : i.mnemonic.takesMemory = true := by
  rw [X86.Opcode.Entry.fitsMemory, ← (X86.operands_of_decode h hnames).1] at hfits
  generalize i.mnemonic = mnemonic at *
  cases mnemonic with
  | movlpd => exact absurd rfl hvector.1
  | xorps => exact absurd rfl hvector.2
  | jump | call => cases hbranch
  | lea | widen | cmpxchg | multiply => rfl
  | _ => exact hfits

include htakes

/-- An address as a value. -/
private theorem performs_of_lea (hnames : X86.Encoding.Names bytes e) (hfits : e.fitsMemory = true)
    (hm : i.mnemonic = .lea) :
    ∃ size destination, i.operands.head? = some destination ∧ destination.Writable size ∧
      Performs host chunk toLoop i m
        ⟨[(destination, wrap size.bits (X86.segmentBase segment m.store + a.sum m.store))], fun _ => none⟩ := by
  obtain ⟨-, size', hreads⟩ := htakes.readable h hvector
  have hbehind : e.shape.leadsWithMemory = false := by
    rw [X86.Opcode.Entry.fitsMemory, ← (X86.operands_of_decode h hnames).1, hm] at hfits
    simpa using hfits
  obtain ⟨destination, hoperands, hdestination, hregister⟩ := htakes.operands_eq_pair h (by rw [hm]; rfl) hbehind
  have hencodable := X86.encodable_of_decode h destination (by simp [hoperands])
  obtain ⟨size, hwrites⟩ := X86.readable_of_isValue (.inl hdestination) hencodable
  refine ⟨size, destination, by rw [hoperands]; rfl, ⟨hwrites, hdestination⟩, ?_⟩
  exact performs_loadAddress host chunk toLoop hm ⟨hwrites, hdestination⟩ hregister hreads htakes.addressed.isMemory
    hoperands (htakes.addressed.toNat_address m.store)

/-- An instruction that is no branch uses the address of its memory. -/
private theorem usesAddress_of_takesMemory (hnames : X86.Encoding.Names bytes e) (hfits : e.fitsMemory = true)
    (hbranch : i.mnemonic.isBranch = false) (hgap : i.isGap = false) :
    UsesAddress host chunk toLoop i m fun s => X86.segmentBase segment s + a.sum s := by
  unfold UsesAddress
  split
  · rename_i hlea
    exact performs_of_lea h hvector htakes host chunk toLoop m hnames hfits hlea
  · rename_i hlea
    have hm := takesMemory_of_fits h hvector hnames hfits hbranch
    obtain ⟨-, size, hreads⟩ := htakes.readable h hvector
    refine ⟨?_, fun c x hreaches hx => ?_, fun hstack => ?_⟩
    · rw [outcome_of_formed chunk toLoop (X86.formed_of_decode h) hbranch, hgap]
      rfl
    · exact toNat_of_reaches hm htakes.unique hreads htakes.addressed hreaches hx
    · obtain ⟨isStore, hfree, hattains⟩ :=
        exists_attains h htakes host chunk toLoop m hnames hfits hvector hm hlea hgap hstack
      obtain ⟨c, hreaches, accessed, hx⟩ := hattains.exists_reaches
      exact ⟨c, _, hreaches, hx, hfree⟩

/-- A branch through memory whose target is found at run time loads the target from there. -/
private theorem usesAddress_of_dynamic {i' : Instruction} (hm : i'.mnemonic = .dynamicCall ∨
    i'.mnemonic = .dynamicJump)
    (hoperands : i'.operands = [op]) :
    UsesAddress host chunk toLoop i' m fun s => X86.segmentBase segment s + a.sum s := by
  obtain ⟨hplace, size, hreads⟩ := htakes.readable h hvector
  have hmemory := htakes.addressed.isMemory
  have hlea : i'.mnemonic ≠ .lea := by rcases hm with hm | hm <;> simp [hm]
  have htakes' : i'.mnemonic.takesMemory = true := by rcases hm with hm | hm <;> rw [hm] <;> rfl
  have hfree : i'.mnemonic.usesStack false = false := by rcases hm with hm | hm <;> rw [hm] <;> rfl
  rw [UsesAddress, if_neg hlea]
  refine ⟨outcome_of_dynamic chunk toLoop hm hoperands hplace.isValue, fun c x hreaches hx => ?_, fun _ => ?_⟩
  · refine toNat_of_reaches htakes' (fun op' hop' _ => ?_) hreads htakes.addressed hreaches hx
    rw [hoperands] at hop'
    exact List.mem_singleton.1 hop'
  · have hattains : Attains host (instruction chunk toLoop i').code m (Config.Accesses false) :=
      attains_dynamic hm hreads hmemory hoperands chunk toLoop m
    obtain ⟨c, hreaches, accessed, hx⟩ := hattains.exists_reaches
    exact ⟨c, _, hreaches, hx, hfree⟩

end Resolved

variable {p : Program} {image : Image} {c : Chunk} {i' : Instruction}

/-- A call or a jump through memory that is not at a constant address keeps its operand, and its target is found at
run time. -/
private theorem dynamic_of_resolvedTo (h : ResolvedTo p image c i i') (hm : i.mnemonic = .jump ∨ i.mnemonic = .call)
    (hoperands : i.operands = [op]) (hmemory : op.isMemory = true) (hpointer : op.pointer? = none) :
    (i'.mnemonic = .dynamicCall ∨ i'.mnemonic = .dynamicJump) ∧ i'.operands = [op] := by
  have hconstant : op.constant? = none := by
    cases op with
    | immediate value size indirect displacement => cases hmemory; rfl
    | _ => rfl
  have htarget : i.relativeTarget? = none := by
    rw [Instruction.relativeTarget?, hoperands]
    simp [hconstant]
  have hfar : i.farTarget? = none := by
    rw [Instruction.farTarget?, hoperands]
    simp
  have hhead : i.operands.head?.bind Operand.pointer? = none := by
    rw [hoperands]
    exact hpointer
  rcases hm with hm | hm
  · obtain ⟨hmnemonic, hoperands'⟩ := h.dynamic .dynamicJump (by rw [hm]; rfl) hhead htarget
    rw [hfar] at hoperands'
    exact ⟨.inr hmnemonic, hoperands'.trans hoperands⟩
  · obtain ⟨hmnemonic, hoperands'⟩ := h.dynamic .dynamicCall (by rw [hm]; rfl) hhead htarget
    rw [hfar] at hoperands'
    exact ⟨.inl hmnemonic, hoperands'.trans hoperands⟩

/-- A decoded instruction with a memory operand uses, once it has been resolved, the address that its bytes encode.
The segment that a prefix names is added where the address is in the bytes as a whole, and nowhere else. -/
theorem usesAddress_of_resolvedTo (h : X86.decode bytes address = .ok (i, n)) (hnames : X86.Encoding.Names bytes e)
    (ha : X86.Encoding.address? bytes e = some a) (hvector : i.mnemonic ≠ .movlpd ∧ i.mnemonic ≠ .xorps)
    (hpointer : i.mnemonic.isBranch = true → X86.Encoding.isDirect bytes e = true →
      X86.Encoding.override? bytes ≠ none)
    (hgap : i.isGap = false) (hresolved : ResolvedTo p image c i i') (host : Host Callee ω) (chunk : UInt32)
    (toLoop : Nat)
    (m : Wasm.Machine ω) :
    UsesAddress host chunk toLoop i' m fun s =>
      X86.segmentBase (if X86.Encoding.isDirect bytes e then X86.Encoding.override? bytes else none) s + a.sum s := by
  obtain ⟨op, htakes⟩ := X86.exists_takesMemory_of_decode h hnames ha
  have hfits := X86.Opcode.fitsMemory_of_mem_table hnames.1.1 (X86.Opcode.Shape.mayAddress_of_address? ha)
  have hentry := (X86.operands_of_decode h hnames).1
  cases hbranch : i.mnemonic.isBranch with
  | false =>
    rw [hresolved.kept hbranch]
    exact usesAddress_of_takesMemory h hvector htakes host chunk toLoop m hnames hfits hbranch hgap
  | true =>
    -- of the branches only calls and jumps have a memory operand, and it is the only one
    have hcases : (i.mnemonic = .jump ∨ i.mnemonic = .call) ∧ e.shape = .rm .dword ∧ e.readsFirst = false := by
      rw [X86.Opcode.Entry.fitsMemory, ← hentry] at hfits
      generalize i.mnemonic = mnemonic at hfits hbranch
      cases mnemonic with
      | jump | call => simpa using hfits
      | jumpIf | jecxz => cases hfits
      | _ => cases hbranch
    obtain ⟨hm, hshape, hfirst⟩ := hcases
    obtain ⟨op', hoperands, hop'⟩ := X86.pointer?_of_decode h hnames hshape hfirst (hpointer hbranch)
    obtain rfl : op = op' := by
      have hmem := htakes.mem
      rw [hoperands] at hmem
      exact List.mem_singleton.1 hmem
    obtain ⟨hm', hoperands'⟩ := dynamic_of_resolvedTo hresolved hm hoperands htakes.addressed.isMemory hop'
    exact usesAddress_of_dynamic h hvector htakes host chunk toLoop m hm' hoperands'

/-- Without a segment prefix, a decoded instruction with a memory operand loads from, stores to or computes the sum
of base, index and displacement that its bytes encode, modulo `2 ^ 32`.  A call or a jump through an absolute pointer
is resolved to an imported function instead. -/
theorem usesAddress_sum_of_decode (h : X86.decode bytes address = .ok (i, n)) (hnames : X86.Encoding.Names bytes e)
    (ha : X86.Encoding.address? bytes e = some a)
    (hprefixes : 0x64 ∉ X86.Encoding.prefixes bytes ∧ 0x65 ∉ X86.Encoding.prefixes bytes)
    (hvector : i.mnemonic ≠ .movlpd ∧ i.mnemonic ≠ .xorps)
    (hpointer : i.mnemonic.isBranch = true → X86.Encoding.isDirect bytes e = false) (hgap : i.isGap = false)
    (hresolved : ResolvedTo p image c i i') (host : Host Callee ω) (chunk : UInt32) (toLoop : Nat)
    (m : Wasm.Machine ω) :
    UsesAddress host chunk toLoop i' m a.sum := by
  have hnone : X86.Encoding.override? bytes = none := by
    rw [X86.Encoding.override?, if_neg hprefixes.1, if_neg hprefixes.2]
  have huses := usesAddress_of_resolvedTo h hnames ha hvector
    (fun hbranch hdirect => by rw [hpointer hbranch] at hdirect; cases hdirect) hgap hresolved host chunk toLoop m
  have hsum : (fun s : Wasm.Store ω => X86.segmentBase
    (if X86.Encoding.isDirect bytes e then X86.Encoding.override? bytes
      else none) s + a.sum s) = a.sum := by
    funext s
    rw [hnone, ite_self]
    exact Int.zero_add _
  rwa [hsum] at huses

/-- A store in which every global holds a word of its own. -/
def numbered : Wasm.Store Unit := ⟨fun index => UInt32.ofNat (16 * index), ⟨0, fun _ => 0⟩, ()⟩

private theorem resolvedTo_alone (h : i.mnemonic.isBranch = false) : ResolvedTo {} ⟨[], [], 0, {}⟩ (.new 0 0) i i :=
  Program.resolvedTo_self h

/-- An addition to memory at `ebx + 4 * ecx - 16`. -/
theorem usesAddress_sum_of_decode_scaled :
    ∃ i, X86.decode [0x01, 0x44, 0x8b, 0xf0] 0x1000 = .ok (i, 4) ∧ i.mnemonic = .binary .add ∧
      EffectiveAddress.sum ⟨some 3, some (1, 2), -16⟩ numbered = 0x60 ∧
      UsesAddress (fun _ _ => .error .trap) 0 0 i (.start numbered)
      (EffectiveAddress.sum ⟨some 3, some (1, 2), -16⟩) := by
  have hdecode : X86.decode [0x01, 0x44, 0x8b, 0xf0] 0x1000 =
      .ok (⟨{}, 0x01, .binary .add, [.scaledIndex (some 3) (some 1) 4 (some (-16)) .bits32 true,
        .scaledIndex (some 3) (some 1) 4 (some (-16)) .bits32 true, .reg 0 .bits32], 0x1000, 0x1004⟩, 4) := by
    decide +kernel
  have hnames : X86.Encoding.Names [0x01, 0x44, 0x8b, 0xf0]
    (X86.Opcode.plain 0x01 (.binary .add) (.rmReg .full) true) :=
    ⟨⟨by decide +kernel, by decide +kernel⟩, fun _ h => by cases h⟩
  refine ⟨_, hdecode, rfl, by decide +kernel, ?_⟩
  exact usesAddress_sum_of_decode hdecode hnames (by decide +kernel) (by decide +kernel) (by decide) (by decide) rfl
    (resolvedTo_alone rfl) (fun _ _ => .error .trap) 0 0 (.start numbered)

/-- Under a segment prefix, a decoded instruction with a memory operand adds the segment to the sum of base, index and
displacement where the bytes hold the address as a whole: a displacement without a register and without a SIB byte,
or a memory offset.  This holds of an address as a value, too.  For any other form of address the prefix has no
effect. -/
theorem usesAddress_segment_of_decode {r : Fin 6} (h : X86.decode bytes address = .ok (i, n))
    (hnames : X86.Encoding.Names bytes e) (ha : X86.Encoding.address? bytes e = some a)
    (hoverride : X86.Encoding.override? bytes = some r) (hvector : i.mnemonic ≠ .movlpd ∧ i.mnemonic ≠ .xorps)
    (hgap : i.isGap = false) (hresolved : ResolvedTo p image c i i') (host : Host Callee ω) (chunk : UInt32)
    (toLoop : Nat)
    (m : Wasm.Machine ω) :
    UsesAddress host chunk toLoop i' m fun s =>
      (if X86.Encoding.isDirect bytes e then ((s.get (.segment r)).toNat : Int) else 0) + a.sum s := by
  have hpointer : i.mnemonic.isBranch = true → X86.Encoding.isDirect bytes e = true →
    X86.Encoding.override? bytes ≠ none :=
    fun _ _ => by
      rw [hoverride]
      exact Option.some_ne_none r
  have huses := usesAddress_of_resolvedTo h hnames ha hvector hpointer hgap hresolved host chunk toLoop m
  have hbase : ∀ s : Wasm.Store ω, X86.segmentBase (if X86.Encoding.isDirect bytes e then X86.Encoding.override? bytes
      else none) s = if X86.Encoding.isDirect bytes e then ((s.get (.segment r)).toNat : Int) else 0 := fun s => by
    rw [hoverride]
    split <;> rfl
  simpa only [hbase] using huses

/-- A store to memory at a constant address in a segment. -/
theorem usesAddress_segment_of_decode_direct :
    ∃ i, X86.decode [0x65, 0x89, 0x0d, 0x10, 0, 0, 0] 0x1000 = .ok (i, 7) ∧ i.mnemonic = .mov ∧
      UsesAddress (fun _ _ => .error .trap) 0 0 i (.start numbered) fun s =>
        ((s.get (.segment 5)).toNat : Int) + EffectiveAddress.sum ⟨none, none, 16⟩ s := by
  have hdecode : X86.decode [0x65, 0x89, 0x0d, 0x10, 0, 0, 0] 0x1000 =
      .ok (⟨X86.Encoding.prefixSet [0x65, 0x89], 0x89, .mov,
        [.segment 5 .bits32 true (some 16), .reg 1 .bits32], 0x1000, 0x1007⟩, 7) := by
    decide +kernel
  have hnames : X86.Encoding.Names [0x65, 0x89, 0x0d, 0x10, 0, 0, 0] (X86.Opcode.plain 0x89 .mov (.rmReg .full)) :=
    ⟨⟨by decide +kernel, by decide +kernel⟩, fun _ h => by cases h⟩
  refine ⟨_, hdecode, rfl, ?_⟩
  exact usesAddress_segment_of_decode hdecode hnames (by decide +kernel) (by decide +kernel) (by decide) rfl
    (resolvedTo_alone rfl) (fun _ _ => .error .trap) 0 0 (.start numbered)

/-- A load through a register does not add the segment that its prefix names, and the address of a constant as a
value does so. -/
theorem not_usesAddress_numbered :
    (∃ i, X86.decode [0x64, 0x8b, 0x01] 0x1000 = .ok (i, 3) ∧ i.mnemonic = .mov ∧
      ¬ UsesAddress (fun _ _ => .error .trap) 0 0 i (.start numbered) fun s =>
        ((s.get (.segment 4)).toNat : Int) + EffectiveAddress.sum ⟨some 1, none, 0⟩ s) ∧
    ∃ i, X86.decode [0x64, 0x8d, 0x05, 0x10, 0, 0, 0] 0x1000 = .ok (i, 7) ∧ i.mnemonic = .lea ∧
      ¬ UsesAddress (fun _ _ => .error .trap) 0 0 i (.start numbered) (EffectiveAddress.sum ⟨none, none, 16⟩) := by
  have hload : X86.decode [0x64, 0x8b, 0x01] 0x1000 =
      .ok (⟨X86.Encoding.prefixSet [0x64, 0x8b], 0x8b, .mov,
        [.reg 0 .bits32, .register 1 .bits32 true none], 0x1000, 0x1003⟩, 3) := by
    decide +kernel
  have hvalue : X86.decode [0x64, 0x8d, 0x05, 0x10, 0, 0, 0] 0x1000 =
      .ok (⟨X86.Encoding.prefixSet [0x64, 0x8d], 0x8d, .lea,
        [.reg 0 .bits32, .segment 4 .bits32 true (some 16)], 0x1000, 0x1007⟩, 7) := by
    decide +kernel
  refine ⟨⟨_, hload, rfl, fun huses => ?_⟩, _, hvalue, rfl, fun huses => ?_⟩
  · -- the load is reached after one step, at the address in `ecx`
    obtain ⟨-, honly, -⟩ := huses
    have haddress := honly ⟨_, _, _⟩ ⟨false, 0x10⟩ (Relation.ReflTransGen.single rfl) rfl
    revert haddress
    decide +kernel
  · -- the code leaves the sum with the segment in `eax`, so it cannot leave the sum without it
    have hnames : X86.Encoding.Names [0x64, 0x8d, 0x05, 0x10, 0, 0, 0] (X86.Opcode.plain 0x8d .lea (.regRm .full)) :=
      ⟨⟨by decide +kernel, by decide +kernel⟩, fun _ h => by cases h⟩
    have hsegment := usesAddress_of_resolvedTo (a := ⟨none, none, 16⟩) hvalue hnames (by decide +kernel) (by decide)
      (by decide) rfl (resolvedTo_alone rfl) (fun _ _ => .error .trap) 0 0 (.start numbered)
    obtain ⟨size, destination, hhead, hdestination, hperforms⟩ := huses
    obtain ⟨size', destination', hhead', hdestination', hperforms'⟩ := hsegment
    cases hhead
    cases hhead'
    cases hdestination.size?_eq
    cases hdestination'.size?_eq
    have heax := hperforms.get_unique hperforms' (x := .eax) (by decide)
    revert heax
    decide +kernel

end Lowering

end Ia32Wasm
