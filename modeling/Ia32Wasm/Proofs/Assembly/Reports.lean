import Ia32Wasm.Proofs.Assembly.Imports
import Ia32Wasm.Proofs.Lowering.Reads

/-!
# Reports to the debugger

With reports, the code of each instruction begins with a report of its index, which goes through `t2`.  Otherwise
nothing changes: the chunk can be assembled or cannot for the same reason, the imports are the same, and without the
reports the body is the one that there is without reports.

* No other code calls the debugger, so every call of it is in a report (`report_of_call`), and deleting the reports
  deletes nothing else (`withoutReports_body`).
* Nothing reads `t2` (`ne_globalGet_of_mem_link`).
-/

namespace Ia32Wasm

open Machine (Slot)
open Wasm (Instr callees)
open X86 (Instruction)

/-- The report of a word to the debugger, with the index of the hook. -/
def reportOf (word : UInt32) : List (Instr Nat) :=
  [.i32Const word, .globalSet Slot.t2.index, .call Hook.debugger.index]

/-- Code without the reports in it. -/
def withoutReports : List (Instr Nat) → List (Instr Nat)
  | .i32Const word :: .globalSet global :: .call f :: rest =>
    if global = Slot.t2.index ∧ f = Hook.debugger.index then withoutReports rest
    else .i32Const word :: withoutReports (.globalSet global :: .call f :: rest)
  | instr :: rest => instr :: withoutReports rest
  | [] => []

namespace Chunk

/-- The module `hooked` is the module `plain` of the chunk `c` with reports.  They are in its body once for each
instruction, in order, between the end of the block of the instruction, if it is a target, and the code of the
instruction.  The imports are the same, and the bodies do not read `t2`. -/
structure Reports (c : Chunk) (o : AssemblyOptions) (hooked plain : Assembled) : Prop where
  imports : hooked.imports = plain.imports
  wasm : plain.wasm = { hooked.wasm with body := withoutReports hooked.wasm.body }
  reports : ∀ before word after, hooked.wasm.body = before ++ reportOf word ++ after ↔
    ∃ index i, c.instructions[index]? = some i ∧ word = UInt32.ofNat index ∧
      before = link hooked.imports (c.codeBefore o index ++ DispatchLoop.landing c.targets.toList index) ∧
      after = link hooked.imports ((c.lowering index i).code ++ c.arrival o (index + 1))
  unread : ∀ instr ∈ hooked.wasm.body ++ plain.wasm.body, instr ≠ .globalGet Slot.t2.index

end Chunk

/-! ### Deletion -/

section Deletion

variable {front rest : List (Instr Nat)}

/-- A report has a call of the debugger in its third place. -/
private theorem withoutReports_cons (instr : Instr Nat) (h : rest[1]? ≠ some (.call Hook.debugger.index)) :
    withoutReports (instr :: rest) = instr :: withoutReports rest := by
  rw [withoutReports.eq_def]
  split
  · rename_i word global f behind heq
    obtain ⟨rfl, rfl⟩ := List.cons.inj heq
    refine if_neg fun hreport => h ?_
    rw [hreport.2]
    rfl
  · rename_i heq
    obtain ⟨rfl, rfl⟩ := List.cons.inj heq
    rfl
  · rename_i heq
    cases heq

private theorem withoutReports_eq_self (h : .call Hook.debugger.index ∉ front) : withoutReports front = front := by
  induction front with
  | nil => rfl
  | cons instr front ih =>
    have hfront : .call Hook.debugger.index ∉ front := fun hmem => h (List.mem_cons_of_mem instr hmem)
    rw [withoutReports_cons instr fun hcall => hfront (List.mem_of_getElem? hcall), ih hfront]

/-- Up to the first call of the debugger, nothing but the report that it ends is deleted. -/
private theorem withoutReports_append (h : .call Hook.debugger.index ∉ front) (word : UInt32)
    (rest : List (Instr Nat)) :
    withoutReports (front ++ (reportOf word ++ rest)) = front ++ withoutReports rest := by
  induction front with
  | nil => simp [reportOf, withoutReports]
  | cons instr front ih =>
    have hfront : .call Hook.debugger.index ∉ front := fun hmem => h (List.mem_cons_of_mem instr hmem)
    have hnext : (front ++ (reportOf word ++ rest))[1]? ≠ some (.call Hook.debugger.index) := by
      match front with
      | [] => simp [reportOf]
      | [_] => simp [reportOf]
      | _ :: next :: _ =>
        rintro ⟨⟩
        exact hfront (by simp)
    rw [List.cons_append, withoutReports_cons instr hnext, ih hfront, List.cons_append]

end Deletion

/-! ### Calls of the debugger -/

private theorem mem_callees {κ : Type} {code : List (Instr κ)} {callee : κ} :
    callee ∈ callees code ↔ .call callee ∈ code := by
  rw [callees, List.mem_filterMap]
  constructor
  · rintro ⟨instr, hinstr, hcallee⟩
    cases instr <;> cases hcallee
    exact hinstr
  · exact fun h => ⟨_, h, rfl⟩

/-- The debugger has an index of its own. -/
private theorem index_eq_debugger_iff {imports : List FunctionImport} {callee : Callee} :
    callee.index imports = Hook.debugger.index ↔ callee = .hook .debugger := by
  cases callee with
  | hook hook => cases hook <;> simp [Callee.index, Hook.index]
  | imported f => simp [Callee.index, Hook.index, Hook.all]

private theorem call_mem_link_iff {imports : List FunctionImport} {code : Code} :
    .call Hook.debugger.index ∈ link imports code ↔ callHook .debugger ∈ code := by
  rw [← mem_callees, callees_link, List.mem_map]
  simp only [index_eq_debugger_iff, exists_eq_right, mem_callees]
  rfl

namespace Chunk

variable {c : Chunk} {o : AssemblyOptions} {index : Nat} {i : Instruction}

/-- The debugger is not for instructions. -/
private theorem hook?_ne_debugger (i : Instruction) : i.hook? ≠ some .debugger := by
  unfold X86.Instruction.hook?
  split <;> simp

private theorem call_not_mem_lowering (h : (c.lowering index i).outcome = .ok ()) :
    callHook .debugger ∉ (c.lowering index i).code := by
  have hcallees : callees (c.lowering index i).code = (i.callee? c.id).toList := Lowering.calls_instruction () h
  rw [callHook, ← mem_callees, hcallees, Option.mem_toList, X86.Instruction.callee?]
  cases i.importedCallee? c.id with
  | some f => simp
  | none => simpa using hook?_ne_debugger i

private theorem call_not_mem_head (targets : List UInt32) : callHook .debugger ∉ DispatchLoop.head targets := by
  rw [callHook, ← mem_callees, callees_head]
  exact List.not_mem_nil

private theorem call_not_mem_landing (targets : List UInt32) (index : Nat) :
    callHook .debugger ∉ DispatchLoop.landing targets index := by
  rw [callHook, ← mem_callees, callees_landing]
  exact List.not_mem_nil

private theorem call_not_mem_tail (targets : List UInt32) (count : Nat) :
    callHook .debugger ∉ DispatchLoop.tail targets count := by
  rw [callHook, ← mem_callees, callees_tail]
  exact List.not_mem_nil

/-- The body of a chunk that is assembled without reports, seen as the code that is left of it with reports. -/
private theorem withoutReports_emitFrom {hooked plain : AssemblyOptions} (hhooked : hooked.debugHooks = true)
    (hplain : plain.debugHooks = false) (imports : List FunctionImport) {instructions : List Instruction}
    (h : ∀ k i, instructions[k]? = some i → (c.lowering (index + k) i).outcome = .ok ()) {front : Code}
    (hfront : callHook .debugger ∉ front) :
    withoutReports (link imports (front ++ c.emitFrom hooked index instructions)) =
      link imports (front ++ c.emitFrom plain index instructions) := by
  induction instructions generalizing index front with
  | nil =>
    refine withoutReports_eq_self fun hcall => ?_
    rcases List.mem_append.1 (call_mem_link_iff.1 hcall) with hcall | hcall
    · exact hfront hcall
    · exact call_not_mem_tail _ _ hcall
  | cons i rest ih =>
    have hrest : ∀ k j, rest[k]? = some j → (c.lowering (index + 1 + k) j).outcome = .ok () := by
      intro k j hk
      rw [Nat.add_assoc, Nat.add_comm 1 k]
      exact h (k + 1) j hk
    have hlanded : callHook .debugger ∉ front ++ DispatchLoop.landing c.targets.toList index := by
      rw [List.mem_append, not_or]
      exact ⟨hfront, call_not_mem_landing _ _⟩
    have hreport : link imports (front ++ c.emitFrom hooked index (i :: rest)) =
        link imports (front ++ DispatchLoop.landing c.targets.toList index) ++ (reportOf (UInt32.ofNat index) ++
          link imports ((c.lowering index i).code ++ c.emitFrom hooked (index + 1) rest)) := by
      simp [emitFrom, ownCode, report, hhooked, debugHook, link, reportOf, setSlot, callHook, Instr.mapCallee,
        Callee.index]
    have hlowering : callHook .debugger ∉ (c.lowering index i).code := call_not_mem_lowering (h 0 i rfl)
    rw [hreport, withoutReports_append (call_mem_link_iff.not.2 hlanded), ih hrest hlowering]
    simp [emitFrom, ownCode, report, hplain, link]

/-- Without its reports, the body with hooks is the body without. -/
theorem withoutReports_body {hooked plain : AssemblyOptions} (hhooked : hooked.debugHooks = true)
    (hplain : plain.debugHooks = false) (imports : List FunctionImport)
    (h : ∀ k i, c.instructions[k]? = some i → (c.lowering k i).outcome = .ok ()) :
    withoutReports (link imports (c.body hooked)) = link imports (c.body plain) :=
  withoutReports_emitFrom hhooked hplain imports (by simpa using h) (call_not_mem_head _)

/-! ### The places of reports -/

/-- Every call of the debugger is that of a report. -/
theorem report_of_call (hhooks : o.debugHooks = true)
    (h : ∀ k i, c.instructions[k]? = some i → (c.lowering k i).outcome = .ok ()) {instructions : List Instruction}
    (hrest : c.instructions.drop index = instructions) {before after : Code}
    (hcall : c.emitFrom o index instructions = before ++ callHook .debugger :: after) :
    ∃ k i, c.instructions[k]? = some i ∧
      c.codeBefore o index ++ before = c.codeBefore o k ++ DispatchLoop.landing c.targets.toList k ++
        [.i32Const (UInt32.ofNat k), setSlot .t2] ∧
      after = (c.lowering k i).code ++ c.arrival o (k + 1) := by
  induction instructions generalizing index before with
  | nil =>
    rw [emitFrom] at hcall
    exact absurd (by rw [hcall]; simp) (call_not_mem_tail c.targets.toList c.instructions.length)
  | cons i rest ih =>
    have hget : c.instructions[index]? = some i := by
      rw [← List.head?_drop, hrest]
      rfl
    have hdrop : c.instructions.drop (index + 1) = rest := by
      rw [← List.tail_drop, hrest]
      rfl
    have hown : c.ownCode o index i ++ c.emitFrom o (index + 1) rest =
        [.i32Const (UInt32.ofNat index), setSlot .t2] ++
          callHook .debugger :: ((c.lowering index i).code ++ c.emitFrom o (index + 1) rest) := by
      simp [ownCode, report, hhooks, debugHook]
    have hword : callHook .debugger ∉ ([.i32Const (UInt32.ofNat index), setSlot .t2] : Code) := by
      simp [callHook, setSlot]
    rw [emitFrom] at hcall
    obtain ⟨landed, rfl, hbehind⟩ := Lowering.split_append_of_not_mem (call_not_mem_landing _ index) hcall
    rw [hown] at hbehind
    obtain ⟨front, rfl, hfront⟩ := Lowering.split_append_of_not_mem hword hbehind
    -- The call is the one of this report or behind it.
    cases front with
    | nil =>
      obtain ⟨-, hafter⟩ := List.cons.inj hfront
      exact ⟨index, i, hget, by simp only [List.append_assoc, List.append_nil], by rw [← hafter, arrival, hdrop]⟩
    | cons _ front =>
      obtain ⟨rfl, hlast⟩ := List.cons.inj hfront
      obtain ⟨later, rfl, hlater⟩ := Lowering.split_append_of_not_mem (call_not_mem_lowering (h index i hget)) hlast
      obtain ⟨k, j, hk, hbefore, hafter⟩ := ih hdrop hlater
      refine ⟨k, j, hk, ?_, hafter⟩
      rw [← hbefore, codeBefore_succ hget, ownCode, report, if_pos hhooks, debugHook]
      simp only [List.append_assoc, List.cons_append, List.nil_append]

/-- In the linked body, the reports are where the code of an instruction begins. -/
private theorem body_eq_report_iff (hhooks : o.debugHooks = true)
    (h : ∀ k i, c.instructions[k]? = some i → (c.lowering k i).outcome = .ok ()) (imports : List FunctionImport)
    (before : List (Instr Nat)) (word : UInt32) (after : List (Instr Nat)) :
    link imports (c.body o) = before ++ reportOf word ++ after ↔
      ∃ index i, c.instructions[index]? = some i ∧ word = UInt32.ofNat index ∧
        before = link imports (c.codeBefore o index ++ DispatchLoop.landing c.targets.toList index) ∧
        after = link imports ((c.lowering index i).code ++ c.arrival o (index + 1)) := by
  constructor
  · intro hbody
    rw [List.append_assoc] at hbody
    obtain ⟨before', callee, after', hsplit, rfl, hcallee, rfl⟩ := split_of_link hbody
    obtain rfl : callee = .hook .debugger := index_eq_debugger_iff.1 hcallee.symm
    have hcall : c.body o = (before' ++ [.i32Const word, setSlot .t2]) ++ callHook .debugger :: after' := by
      rw [hsplit]
      simp [setSlot, callHook]
    obtain ⟨front, hfront, harrival⟩ := Lowering.split_append_of_not_mem (call_not_mem_head _) hcall
    obtain ⟨k, i, hk, hbefore, rfl⟩ := report_of_call hhooks h rfl harrival
    have hhead : c.codeBefore o 0 = DispatchLoop.head c.targets.toList := by simp [codeBefore]
    rw [hhead, ← hfront] at hbefore
    obtain ⟨rfl, hword⟩ := List.append_inj' hbefore rfl
    cases hword
    exact ⟨k, i, hk, rfl, rfl, rfl⟩
  · rintro ⟨index, i, hi, rfl, rfl, rfl⟩
    have hlt : index < c.instructions.length := (List.getElem?_eq_some_iff.1 hi).1
    rw [body_eq_codeBefore (Nat.le_of_lt hlt), arrival_of_getElem? hi]
    simp [ownCode, report, hhooks, debugHook, link, reportOf, setSlot, callHook, Instr.mapCallee, Callee.index]

/-! ### Reads -/

private theorem overlooks_emitFrom {instructions : List Instruction}
    (h : ∀ i ∈ instructions, ∀ op ∈ i.operands, op.Numbered) :
    Lowering.Emits Lowering.Overlooks (Lowering.emit (c.emitFrom o index instructions)) := by
  induction instructions generalizing index with
  | nil => exact DispatchLoop.forall_mem_tail _ _ rfl
  | cons i rest ih =>
    obtain ⟨hi, hrest⟩ := List.forall_mem_cons.1 h
    have hlanding : Lowering.Emits Lowering.Overlooks (Lowering.emit (DispatchLoop.landing c.targets.toList index)) :=
      DispatchLoop.forall_mem_landing _ _ rfl
    have hreport : Lowering.Emits Lowering.Overlooks (Lowering.emit (report o index)) := by
      unfold report
      split
      · exact Lowering.overlooks_emit rfl
      · simp
    have hlowering : Lowering.Emits Lowering.Overlooks (Lowering.emit (c.lowering index i).code) :=
      Lowering.overlooks_instruction hi _ _
    simp [emitFrom, ownCode, hlanding, hreport, hlowering, ih hrest]

/-- No code of a chunk with numbered operands reads `t2`, where reports are put. -/
theorem ne_globalGet_of_mem_link (h : ∀ i ∈ c.instructions, ∀ op ∈ i.operands, op.Numbered) (o : AssemblyOptions)
    (imports : List FunctionImport) : ∀ instr ∈ link imports (c.body o), instr ≠ .globalGet Slot.t2.index := by
  rintro _ hinstr rfl
  obtain ⟨instr, hinstr, hmap⟩ := List.mem_map.1 hinstr
  have hbody : Lowering.Emits Lowering.Overlooks (Lowering.emit (c.body o)) :=
    Lowering.emits_emit_append_iff.2
      ⟨DispatchLoop.forall_mem_head _ rfl rfl rfl (fun _ => rfl) rfl fun _ => rfl, overlooks_emitFrom h⟩
  have hunread := hbody instr hinstr
  cases instr <;> cases hmap
  cases hunread

/-! ### Outcomes -/

/-- The module of a chunk with reports is the one without them and a report of each instruction in front of its own
code, and the chunk cannot be assembled with reports exactly if it cannot without them, for the same reason. -/
theorem reports_of_numbered {c : Chunk} (h : ∀ i ∈ c.instructions, ∀ op ∈ i.operands, op.Numbered)
    (o : AssemblyOptions) :
    (∃ e, c.assemble { o with debugHooks := true } = .error e ∧
      c.assemble { o with debugHooks := false } = .error e) ∨
      ∃ hooked plain, c.assemble { o with debugHooks := true } = .ok hooked ∧
        c.assemble { o with debugHooks := false } = .ok plain ∧
        c.Reports { o with debugHooks := true } hooked plain := by
  -- Neither the bounds on memory nor the lowerings depend on whether there are reports.
  rcases assemble_cases c { o with debugHooks := true } with
    ⟨hmemory, hhooked⟩ | ⟨hmemory, index, i, obstacle, hi, hlowering, hbefore, hhooked⟩ | ⟨hmemory, hlowered, hhooked⟩
  · refine .inl ⟨_, hhooked, ?_⟩
    rw [assemble, if_neg (Bool.not_eq_true _ ▸ hmemory)]
  · have hplain : ({ o with debugHooks := false } : AssemblyOptions).validMemory = true := hmemory
    exact .inl ⟨_, hhooked, assemble_of_obstacle hplain hi hlowering hbefore⟩
  · have himports : addImports [] (c.body { o with debugHooks := true }) =
        addImports [] (c.body { o with debugHooks := false }) :=
      (addImports_body hlowered).trans (addImports_body hlowered).symm
    have hbody : ∀ imports, withoutReports (link imports (c.body { o with debugHooks := true })) =
        link imports (c.body { o with debugHooks := false }) :=
      fun imports => withoutReports_body rfl rfl imports hlowered
    refine .inr ⟨_, _, hhooked, assemble_of_lowered hmemory hlowered, himports, ?_, ?_, ?_⟩
    · simp only [assembleCode, Assembled.ofBody, himports, hbody]
      rfl
    · exact body_eq_report_iff rfl hlowered _
    · intro instr hinstr
      rcases List.mem_append.1 hinstr with hinstr | hinstr
      · exact ne_globalGet_of_mem_link h _ _ instr hinstr
      · exact ne_globalGet_of_mem_link h _ _ instr hinstr

/-- A report takes three instructions for each one of the chunk. -/
theorem reports_sociable : ∃ hooked plain, sociable.assemble ⟨true, 1, none⟩ = .ok hooked ∧
    sociable.assemble ⟨false, 1, none⟩ = .ok plain ∧ sociable.Reports ⟨true, 1, none⟩ hooked plain ∧
    hooked.wasm.body.length = plain.wasm.body.length + 3 * sociable.instructions.length := by
  have hnumbered : ∀ i ∈ sociable.instructions, ∀ op ∈ i.operands, op.Numbered := by
    simp [sociable, X86.Instruction.destinationOperands, X86.Instruction.indexOperand, X86.Operand.imm,
      X86.Operand.reg,
      X86.Operand.Numbered]
  rcases reports_of_numbered hnumbered ⟨false, 1, none⟩ with ⟨e, hhooked, -⟩ |
    ⟨hooked, plain, hhooked, hplain, hreports⟩
  · cases hhooked
  · cases hhooked
    cases hplain
    exact ⟨_, _, rfl, rfl, hreports, by decide +kernel⟩

end Chunk

end Ia32Wasm
