import Ia32Wasm.Proofs.Lowering.BooleanFlags
import Ia32Wasm.Proofs.Recompile.Agreement
import Ia32Wasm.Proofs.Wasm.Straight

/-!
# The invariant of the flags

Carries, borrows and conditions are computed from flags as if these were truth values, and they are: no code that is
made from instructions writes anything else to them.

* The code of a chunk passes the check for boolean flags piece by piece: `Chunk.keeps_ownCode` for an instruction and
  `Chunk.keeps_emitFrom` for those from an index on.
* So the flags stay boolean in every execution of the code of a decoded instruction and of the module of a chunk
  (`Options.boolean_of_recompile`).
-/

namespace Ia32Wasm

open Machine (Flag Slot)
open Wasm (Completes Config Host Keeps Store)
open X86 (Instruction)

/-! ### Chunks -/

namespace Chunk

variable {c : Chunk} {o : AssemblyOptions} {i : Instruction}

/-- The code of an instruction writes truth values to flags. -/
theorem keeps_ownCode (hi : ∀ op ∈ i.operands, op.Numbered) (index : Nat) : Keeps isFlag (c.ownCode o index i) := by
  have hreport : Keeps isFlag (report o index) := by
    unfold report
    split <;> rfl
  exact Wasm.keeps_append hreport (Lowering.keepsFlags_instruction hi _ _)

/-- So does the code of all instructions from one on. -/
theorem keeps_emitFrom {rest : List Instruction} (h : ∀ i ∈ rest, ∀ op ∈ i.operands, op.Numbered) (index : Nat) :
    Keeps isFlag (c.emitFrom o index rest) := by
  induction rest generalizing index with
  | nil => exact Wasm.keeps_of_spares fun _ hmem => absurd hmem (globalSet_not_mem_tail _ _ _)
  | cons i rest ih =>
    obtain ⟨hi, hrest⟩ := List.forall_mem_cons.1 h
    have hlanding : Keeps isFlag (DispatchLoop.landing c.targets.toList index) :=
      Wasm.keeps_of_spares fun _ hmem => absurd hmem (globalSet_not_mem_landing _ _ _)
    exact Wasm.keeps_append hlanding (Wasm.keeps_append (keeps_ownCode hi index) (ih hrest (index + 1)))

private theorem keeps_of_assemble {a : Assembled} (hnumbered : ∀ i ∈ c.instructions, ∀ op ∈ i.operands, op.Numbered)
    (h : c.assemble o = .ok a) : Keeps isFlag a.wasm.body := by
  have hhead : Keeps isFlag (DispatchLoop.head c.targets.toList) :=
    Wasm.keeps_of_spares fun _ hmem => absurd hmem (globalSet_not_mem_head _ _)
  have hbody : Keeps isFlag (c.body o) := Wasm.keeps_append hhead (keeps_emitFrom hnumbered 0)
  rw [body_of_assemble h]
  exact (Wasm.keeps_map _ _ _).trans hbody

end Chunk

/-! ### Recompiled images -/

namespace Options

private theorem keeps_of_recompile {o : Options} {image : Image} {r : Recompiled} (h : o.recompile image = .ok r)
    {a : Assembled} (ha : a ∈ r.modules) : Keeps isFlag a.wasm.body := by
  obtain ⟨p, hdiscover, hresolve, hmodules⟩ := recompile_eq_ok h
  have hp : p.WellBuilt image := Program.wellBuilt_of_discover (ok_of_mapError hdiscover)
  obtain ⟨-, -, -, hresolved⟩ := Program.resolvedTo_of_resolve hp hresolve
  obtain ⟨n, hn⟩ := List.getElem?_of_mem ha
  obtain ⟨c', hc', hassemble⟩ := getElem?_of_forall₂ hmodules hn
  obtain ⟨c, hc, hchunk⟩ := getElem?_of_forall₂ hresolved hc'
  exact Chunk.keeps_of_assemble (hchunk.numbered hp (List.mem_of_getElem? hc)) hassemble

/-- Flags stay boolean.  Where each of them is `0` or `1` before the code of a decoded instruction, or before the
body of a module of a recompiled image with any value in `link`, it is so in every configuration that execution comes
to, at calls and between instructions as anywhere else, and in the store with which execution returns.  Up to the
first call this needs nothing of the imported functions, and from there on that they leave flags boolean. -/
theorem boolean_of_recompile {ω : Type} :
    (∀ (bytes : List UInt8) (address : UInt32) (i : Instruction) (n : Nat), X86.decode bytes address = .ok (i, n) →
      ∀ (chunk : UInt32) (toLoop : Nat) (host : Host Callee ω) (m : Wasm.Machine ω), m.store.Boolean isFlag →
        Config.StaysBoolean isFlag host ⟨(Lowering.instruction chunk toLoop i).code, [], m⟩) ∧
    ∀ (o : Options) (image : Image) (r : Recompiled), o.recompile image = .ok r → ∀ a ∈ r.modules,
      ∀ (host : Host Nat ω) (store : Store ω), store.Boolean isFlag →
        Config.StaysBoolean isFlag host (.start a.wasm.body store) := by
  constructor
  · intro bytes address i n hdecode chunk toLoop host m hflags
    obtain ⟨-, -, -, -, -, hnumbered, -⟩ := X86.decode_eq_ok hdecode
    exact Config.staysBoolean_of_keeps host (Lowering.keepsFlags_instruction hnumbered chunk toLoop) hflags
  · intro o image r hrecompile a ha host store hflags
    exact Config.staysBoolean_of_keeps host (keeps_of_recompile hrecompile ha) hflags

/-- A function that adds, borrows, shifts, pops flags and sets the direction flag, and one that it calls, which
multiplies. -/
def flagged : Image :=
  .flat 0x1000 [0x01, 0xd8, 0x19, 0xc1, 0xc1, 0xe1, 0x04, 0x9d, 0xfd, 0xe8, 0x01, 0x00, 0x00, 0x00, 0xc3, 0xf7, 0xe1,
    0xc3]

/-- The largest number in the first register, with `1` in the others and in all flags, and `7` in `link`. -/
def brimming : Store Unit where
  globals := fun index => if index = 0 then 0xffffffff else if index < 15 then 1 else 7
  memory := ⟨64, fun _ => 0⟩
  world := ()

private theorem boolean_flags_brimming : brimming.Boolean isFlag := by
  intro index hindex
  have hflag := isFlag_eq_true_iff.1 hindex
  right
  change (if index = 0 then (0xffffffff : UInt32) else if index < 15 then 1 else 7) = 1
  rw [if_neg (by omega), if_pos (by omega)]

/-- The sum carries, and all flags are zero or one behind it. -/
theorem boolean_brimming :
    ∃ i r m, X86.decode [0x01, 0xd8] 0x1000 = .ok (i, 2) ∧ recompile {} flagged = .ok r ∧ r.modules.length = 2 ∧
      Completes (fun _ => .ok) (Lowering.instruction 0 0 i).code (.start brimming) m ∧
      Flag.all.map (fun flag => m.store.globals (Slot.flag flag).index) = [1, 1, 1, 1, 0, 1, 0] ∧
      m.store.Boolean isFlag ∧
      ∀ a ∈ r.modules, Config.StaysBoolean isFlag (fun _ => .ok) (.start a.wasm.body brimming) := by
  let sum : Instruction := ⟨{}, 0x01, .binary .add, [.reg 0 .bits32, .reg 0 .bits32, .reg 3 .bits32], 0x1000, 0x1002⟩
  have hdecode : X86.decode [0x01, 0xd8] 0x1000 = .ok (sum, 2) := by decide +kernel
  obtain ⟨r, hr, hcount⟩ : ∃ r, recompile {} flagged = .ok r ∧ r.modules.length = 2 :=
    exists_of_any_toOption (by decide +kernel)
  obtain ⟨m, hm, hset⟩ : ∃ m, Wasm.exec (Lowering.instruction 0 0 sum).code (.start brimming) = .ok m ∧
      Flag.all.map (fun flag => m.store.globals (Slot.flag flag).index) = [1, 1, 1, 1, 0, 1, 0] :=
    exists_of_any_toOption (by decide +kernel)
  obtain ⟨hinstruction, hmodules⟩ := boolean_of_recompile (ω := Unit)
  have hcompletes : Completes (fun _ => .ok) (Lowering.instruction 0 0 sum).code (.start brimming) m :=
    Wasm.completes_of_exec (by decide) hm
  have hstays := hinstruction _ _ _ _ hdecode 0 0 (fun _ => .ok) (.start brimming) boolean_flags_brimming
  have hflags : m.store.Boolean isFlag :=
    (hstays.throughout (fun _ s s' hs hboolean => Except.ok.inj hs ▸ hboolean) _ hcompletes).1
  exact ⟨sum, r, m, hdecode, hr, hcount, hcompletes, hset, hflags,
    fun a ha => hmodules _ _ r hr a ha _ _ boolean_flags_brimming⟩

end Options

end Ia32Wasm
