import Ia32Wasm.Proofs.Lowering.Control
import Ia32Wasm.Proofs.X86.Targets

/-!
# Writes of `link`

The code of an instruction writes `link` only to transfer control: a constant is put there, and then either control
goes back to the dispatch loop or a chunk is called.  `LinkWrites` describes all such places in some code; it passes
through the concatenation of code (`linkWrites_append`).  Conversely an instruction that transfers control to a chunk
does call it (`callChunk_infix_instruction`).
-/

namespace Ia32Wasm

open Machine (Slot)
open Wasm (Instr)
open X86 (Instruction)

/-- The instruction, which belongs to the chunk `chunk`, transfers control to the instruction `index` of the chunk
`other` by a call: it is a branch to another chunk, or a call inside its own. -/
def X86.Instruction.CallsChunk (i : Instruction) (chunk other index : UInt32) : Prop :=
  i.destination? = some (.across other index) ∨
    (i.mnemonic = .call ∧ other = chunk ∧ i.destination? = some (.inside index))

namespace Lowering

/-- Wherever the code writes `link`, it writes a constant, and the constant and the next instruction have a
property. -/
def LinkWrites (Q : UInt32 → Instr Callee → Prop) (code : Code) : Prop :=
  ∀ before after, code = before ++ setSlot .link :: after →
    ∃ front word next rest, before = front ++ [.i32Const word] ∧ after = next :: rest ∧ Q word next

variable {Q : UInt32 → Instr Callee → Prop}

/-- A member of a concatenation is in the first part or in the second. -/
theorem split_append {α : Type} {first second before after : List α} {x : α}
    (h : first ++ second = before ++ x :: after) :
    (∃ rest, first = before ++ x :: rest ∧ after = rest ++ second) ∨
      ∃ front, before = first ++ front ∧ second = front ++ x :: after := by
  rcases List.append_eq_append_iff.1 h with ⟨front, hbefore, hsecond⟩ | ⟨middle, hfirst, hafter⟩
  · exact .inr ⟨front, hbefore, hsecond⟩
  · cases middle with
    | nil => exact .inr ⟨[], by rw [hfirst, List.append_nil, List.append_nil], hafter.symm⟩
    | cons y rest =>
      rw [List.cons_append, List.cons.injEq] at hafter
      exact .inl ⟨rest, by rw [hfirst, hafter.1], hafter.2⟩

/-- An element that the first list does not have is found in the second. -/
theorem split_append_of_not_mem {α : Type} {first second before after : List α} {x : α} (hx : x ∉ first)
    (h : first ++ second = before ++ x :: after) :
    ∃ front, before = first ++ front ∧ second = front ++ x :: after := by
  rcases split_append h with ⟨rest, rfl, -⟩ | hsecond
  · exact absurd (by simp) hx
  · exact hsecond

/-- What holds of the writes to `link` of both parts holds of a sequence. -/
theorem linkWrites_append {first second : Code} (hfirst : LinkWrites Q first) (hsecond : LinkWrites Q second) :
    LinkWrites Q (first ++ second) := by
  intro before after h
  rcases split_append h with ⟨rest, hrest, rfl⟩ | ⟨front, rfl, hfront⟩
  · obtain ⟨front, word, next, behind, hbefore, rfl, hQ⟩ := hfirst before rest hrest
    exact ⟨front, word, next, behind ++ second, hbefore, rfl, hQ⟩
  · obtain ⟨front', word, next, behind, rfl, hafter, hQ⟩ := hsecond front after hfront
    exact ⟨first ++ front', word, next, behind, (List.append_assoc _ _ _).symm, hafter, hQ⟩

/-- Code that does not write to `link` has no writes to check. -/
theorem linkWrites_of_not_mem {code : Code} (h : setSlot .link ∉ code) : LinkWrites Q code := by
  rintro before after rfl
  exact absurd (by simp) h

private theorem linkWrites_triple {word : UInt32} {next : Instr Callee} (hnext : next ≠ setSlot .link)
    (h : Q word next) :
    LinkWrites Q [.i32Const word, setSlot .link, next] := by
  intro before after hcode
  have hword : (.i32Const word : Instr Callee) ≠ setSlot .link := by simp [setSlot]
  rcases before with _ | ⟨x, _ | ⟨y, _ | ⟨z, before⟩⟩⟩
  · simp only [List.nil_append, List.cons.injEq] at hcode
    exact absurd hcode.1 hword
  · simp only [List.cons_append, List.nil_append, List.cons.injEq] at hcode
    obtain ⟨rfl, -, rfl⟩ := hcode
    exact ⟨[], word, next, [], rfl, rfl, h⟩
  · simp only [List.cons_append, List.nil_append, List.cons.injEq] at hcode
    exact absurd hcode.2.2.1 hnext
  · simp at hcode

variable {chunk : UInt32} {toLoop : Nat} {i : Instruction}

/-- Where the code of an instruction may write `link`: before it goes to the dispatch loop, and before it calls a
chunk. -/
def Transfers (chunk : UInt32) (i : Instruction) (word : UInt32) (next : Instr Callee) : Prop :=
  (∃ depth, next = .br depth) ∨
    ∃ other, next = callImport (chunkLibrary other) entryName ∧ i.CallsChunk chunk other word

private theorem linkWrites_of_emits {α : Type} {x : Lowering α} {links : Prop} (h : Emits (SparesLink links) x)
    (hlinks : ¬ links) : LinkWrites Q x.code :=
  linkWrites_of_not_mem fun hmem => hlinks (h _ hmem rfl)

private theorem linkWrites_bind {α β : Type} {x : Lowering α} {f : α → Lowering β} (hx : LinkWrites Q x.code)
    (hf : ∀ a, x.outcome = .ok a → LinkWrites Q (f a).code) : LinkWrites Q (x >>= f).code := by
  cases ha : x.outcome with
  | ok a =>
    rw [bind_code_of_ok ha]
    exact linkWrites_append hx (hf a ha)
  | error e =>
    rw [bind_code_of_error ha]
    exact hx

private theorem linkWrites_prologue : LinkWrites Q (prologue i).code :=
  linkWrites_of_emits (tame_of_emits (emits_prologue i) : Tame False 0 (prologue i) 0).spares id

private theorem linkWrites_callChunk {other word : UInt32} (h : i.CallsChunk chunk other word) :
    LinkWrites (Transfers chunk i) (callChunk other word) :=
  linkWrites_triple (by simp [callImport, setSlot]) (.inr ⟨other, rfl, h⟩)

private theorem linkWrites_exit (depth : Nat) (control : Control) :
    LinkWrites (Transfers chunk i) (exit depth control) := by
  cases control with
  | next => exact linkWrites_of_not_mem (by simp [exit])
  | goto index => exact linkWrites_triple (by simp [setSlot]) (.inl ⟨depth, rfl⟩)
  | leave => exact linkWrites_of_not_mem (by simp [exit, setSlot])

private theorem code_body_call {other word : UInt32} (hm : i.mnemonic = .call)
    (hcalls : i.CallsChunk chunk other word) :
    (body chunk toLoop i).code = callChunk other word := by
  rcases hcalls with hd | ⟨-, rfl, hd⟩ <;> simp [body, hm, resolved, hd]

private theorem linkWrites_call (hm : i.mnemonic = .call) :
    LinkWrites (Transfers chunk i) (instruction chunk toLoop i).code := by
  refine linkWrites_bind linkWrites_prologue fun _ _ => linkWrites_bind ?_ fun _ _ => ?_
  · have hcall : ∀ other word, i.CallsChunk chunk other word →
        LinkWrites (Transfers chunk i) (body chunk toLoop i).code := by
      intro other word hcalls
      rw [code_body_call hm hcalls]
      exact linkWrites_callChunk hcalls
    cases hd : i.destination? with
    | none =>
      have herror : resolved i = ⟨[], .error .unresolved⟩ := by rw [resolved, hd]
      have hcode : (body chunk toLoop i).code = [] := by
        simp only [body, hm, herror]
        exact bind_code_of_error rfl
      exact linkWrites_of_not_mem (by simp [hcode])
    | some destination =>
      cases destination with
      | inside index => exact hcall chunk index (.inr ⟨hm, rfl, hd⟩)
      | across other index => exact hcall other index (.inl hd)
  · exact linkWrites_of_emits (tame_updateFlags i : Tame False 0 _ 0).spares id

private theorem linkWrites_work (hnames : ¬ OperandsNameLink i) : LinkWrites (Transfers chunk i) (work chunk i) := by
  unfold work
  split
  case h_1 | h_2 | h_3 =>
    split
    · rename_i hd
      exact linkWrites_callChunk (.inl hd)
    · exact linkWrites_of_not_mem (by simp)
  case h_4 => exact linkWrites_prologue
  case h_5 =>
    exact linkWrites_append linkWrites_prologue (linkWrites_of_not_mem (by simp [callHook, setSlot]))
  case h_6 => exact linkWrites_of_emits (tame_importedCall i : Tame False 0 _ 0).spares id
  case h_7 =>
    by_cases hcall : i.mnemonic = .call
    · exact linkWrites_call hcall
    · have hnext : i.control = .next := by
        unfold X86.Instruction.control
        split <;> simp_all
      have htame : Tame (i.mnemonic = .call ∨ OperandsNameLink i) 0 (instruction chunk 0 i) 0 :=
        tame_instruction hnext
      exact linkWrites_of_emits htame.spares fun h => h.elim hcall hnames

/-- The code of an instruction writes `link` only to transfer control. -/
theorem linkWrites_instruction (hnames : ¬ OperandsNameLink i) (h : (instruction chunk toLoop i).outcome = .ok ()) :
    LinkWrites (Transfers chunk i) (instruction chunk toLoop i).code := by
  have hparts : ∀ depth, LinkWrites (Transfers chunk i) (work chunk i ++ exit depth i.control) :=
    fun depth => linkWrites_append (linkWrites_work hnames) (linkWrites_exit depth i.control)
  rw [code_instruction h]
  cases htest : test? i with
  | none => exact hparts toLoop
  | some test =>
    have hbenign : BenignCode False test := benignCode_test htest
    have hguard : LinkWrites (Transfers chunk i) (([.block] : Code) ++ test ++ ([.op .i32Eqz, .brIf 0] : Code)) :=
      linkWrites_of_not_mem fun hmem => by
        simp only [List.mem_append, List.mem_cons, setSlot, List.not_mem_nil, reduceCtorEq, or_false,
          false_or] at hmem
        exact hbenign _ hmem rfl
    exact linkWrites_append (linkWrites_append hguard (hparts _)) (linkWrites_of_not_mem (by simp [setSlot]))

private theorem work_across {other word : UInt32} (hd : i.destination? = some (.across other word))
    (hm : i.mnemonic ≠ .call) : work chunk i = callChunk other word := by
  have hbranch := Instruction.isBranch_of_destination? hd
  cases h : i.mnemonic <;> rw [h] at hbranch <;> cases hbranch
  case call.refl => exact absurd h hm
  all_goals simp only [work, h, hd]

/-- An instruction that transfers control to a chunk calls it. -/
theorem callChunk_infix_instruction {other word : UInt32} (h : (instruction chunk toLoop i).outcome = .ok ())
    (hcalls : i.CallsChunk chunk other word) : callChunk other word <:+: (instruction chunk toLoop i).code := by
  by_cases hm : i.mnemonic = .call
  · obtain ⟨-, -, -, hcode⟩ := code_parts h
    rw [hcode, code_body_call hm hcalls]
    exact ⟨_, _, List.append_assoc _ _ _⟩
  · have hwork : work chunk i = callChunk other word :=
      work_across (hcalls.resolve_right fun hinside => hm hinside.1) hm
    rw [code_instruction h, hwork]
    cases test? i with
    | none => exact (List.prefix_append _ _).isInfix
    | some test =>
      refine ⟨([.block] : Code) ++ test ++ ([.op .i32Eqz, .brIf 0] : Code),
        exit (toLoop + 1) i.control ++ ([.close] : Code), ?_⟩
      simp [whenSet]

end Lowering

end Ia32Wasm
