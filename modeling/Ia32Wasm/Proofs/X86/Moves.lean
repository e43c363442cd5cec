import Ia32Wasm.Proofs.X86.Widths

/-!
# The operands of moves

The instructions that move data have few forms.  The table of opcodes gives the kinds and widths of their operands
(`Mnemonic.moveForms`), up to moves of segment registers.  Exchanges and string instructions have few shapes
(`Mnemonic.moveShapes`): the last operand of an exchange is a register, and those of a string instruction are fixed.
-/

namespace Ia32Wasm.X86

/-- The operand is a segment register. -/
def Operand.isSegmentRegister : Operand → Bool
  | .segment _ _ indirect _ => !indirect
  | _ => false

namespace Opcode

/-- An operand of the shape is a segment register. -/
def Shape.takesSegment : Shape → Bool
  | .rmSegment | .segmentRm => true
  | _ => false

end Opcode

private theorem Fetch.reads_takesSegment (prefixes : Prefixes) (opcode : UInt16) {shape : Opcode.Shape}
    (h : shape.takesSegment = true) :
    Reads (operands prefixes opcode shape) fun ops => ∃ op ∈ ops, op.isSegmentRegister = true := by
  refine (reads_kinds prefixes opcode shape).imp fun ops hops => ?_
  cases shape <;> cases h
  case rmSegment =>
    obtain ⟨place, _, rfl, -, index, rfl, -⟩ := Kind.eq_two hops
    exact ⟨_, List.mem_cons_of_mem _ (List.mem_singleton_self _), rfl⟩
  case segmentRm =>
    obtain ⟨_, place, rfl, ⟨index, rfl, -⟩, -⟩ := Kind.eq_two hops
    exact ⟨_, List.mem_cons_self, rfl⟩

/-! ### Forms -/

/-- The forms that an instruction that moves data is encoded in, by the kinds and widths of its operands. -/
def Mnemonic.moveForms : Mnemonic → List (List (Kind × Opcode.Width))
  | .mov => scalarWidths.map fun w => [(.place, w), (.value, w)]
  | .widen _ => [.byte, .word].map fun w => [(.place, .full), (.place, w)]
  | .xchg => scalarWidths.map fun w => [(.place, w), (.place, w)]
  | .set _ => [[(.place, .byte)]]
  | .push => [[(.value, .full)]]
  | .pop => [[(.place, .full)]]
  | .ret => [[], [(.constant, .word)]]
  | .cdq | .pushad | .popad | .leave => [[]]
  | _ => []

/-- The shapes of exchanges and string instructions. -/
def Mnemonic.moveShapes : Mnemonic → List Opcode.Shape
  | .xchg => [.rmReg .byte, .rmReg .full, .opRegAcc .full]
  | .movs => [.move .byte, .move .full]
  | .stos => [.fill .byte, .fill .full]
  | _ => []

namespace Opcode

private theorem fitsMove_of_mem_table {entry : Entry} (h : entry ∈ table) (hforms : entry.mnemonic.moveForms ≠ []) :
    entry.readsFirst = false ∧ (entry.mnemonic = .mov ∧ entry.shape.takesSegment = true ∨
      ∃ form ∈ entry.mnemonic.moveForms, entry.fitsSized ⟨false, form⟩ = true) := by
  have hall : table.all (fun e => e.mnemonic.moveForms.isEmpty || !e.readsFirst &&
      (e.mnemonic == .mov && e.shape.takesSegment ||
        e.mnemonic.moveForms.any fun form => e.fitsSized ⟨false, form⟩)) = true := by decide +kernel
  have hentry := List.all_eq_true.1 hall entry h
  rw [Bool.or_eq_true, List.isEmpty_iff, Bool.and_eq_true, Bool.not_eq_true', Bool.or_eq_true, Bool.and_eq_true,
    beq_iff_eq, List.any_eq_true] at hentry
  exact hentry.resolve_left hforms

private theorem shape_mem_of_mem_table {entry : Entry} (h : entry ∈ table)
    (hshapes : entry.mnemonic.moveShapes ≠ []) :
    entry.readsFirst = false ∧ entry.shape ∈ entry.mnemonic.moveShapes := by
  have hall : table.all (fun e => e.mnemonic.moveShapes.isEmpty || !e.readsFirst &&
      e.mnemonic.moveShapes.contains e.shape) = true := by decide +kernel
  have hentry := List.all_eq_true.1 hall entry h
  rw [Bool.or_eq_true, List.isEmpty_iff, Bool.and_eq_true, Bool.not_eq_true', List.contains_iff_mem] at hentry
  exact hentry.resolve_left hshapes

end Opcode

/-! ### Decoded instructions -/

section Decoded

variable {bytes : List UInt8} {address : UInt32} {i : Instruction} {n : Nat} {mnemonic : Mnemonic}

/-- A decoded instruction has the operands of an entry of the table, unless the entry repeats the first one. -/
private theorem exists_entry_of_decode (h : decode bytes address = .ok (i, n)) (hm : i.mnemonic = mnemonic) :
    ∃ entry ∈ Opcode.table, entry.mnemonic = mnemonic ∧ (entry.readsFirst = false → ∃ opcode behind rest,
      Fetch.operands i.prefixes opcode entry.shape behind = .ok (i.operands, rest)) := by
  obtain ⟨rest, hread⟩ := instruction_of_decode h
  obtain ⟨entry, hentry, behind, ops, -, hread, hmnemonic, hoperands⟩ := Fetch.exists_entry_of_instruction hread
  refine ⟨entry, hentry, hmnemonic.symm.trans hm, fun hfirst => ⟨i.opcode, behind, rest, ?_⟩⟩
  rw [hfirst, if_neg Bool.false_ne_true] at hoperands
  rwa [hoperands]

/-- The operands of a decoded instruction that moves data are in one of its forms, unless it moves a segment
register. -/
private theorem movesSized_of_decode (h : decode bytes address = .ok (i, n)) (hm : i.mnemonic = mnemonic)
    (hforms : mnemonic.moveForms ≠ [])
    (hsegment : mnemonic = .mov → ∀ op ∈ i.operands, op.isSegmentRegister = false) :
    ∃ form ∈ mnemonic.moveForms, AreSized i.prefixes form i.operands := by
  obtain ⟨entry, hentry, rfl, hread⟩ := exists_entry_of_decode h hm
  obtain ⟨hfirst, hcase⟩ := Opcode.fitsMove_of_mem_table hentry hforms
  obtain ⟨opcode, behind, rest, hread⟩ := hread hfirst
  rcases hcase with ⟨hmov, htakes⟩ | ⟨form, hform, hfits⟩
  · obtain ⟨-, op, hop, htrue⟩ := Fetch.reads_takesSegment _ _ htakes _ _ _ hread
    rw [hsegment hmov op hop] at htrue
    cases htrue
  · exact ⟨form, hform, (areSized_of_fitsSized hfits hread).2⟩

/-- The operands of a decoded exchange or string instruction are read in one of its shapes. -/
private theorem reads_of_decode (h : decode bytes address = .ok (i, n)) (hm : i.mnemonic = mnemonic)
    (hshapes : mnemonic.moveShapes ≠ []) :
    ∃ shape ∈ mnemonic.moveShapes, ∃ opcode behind rest,
      Fetch.operands i.prefixes opcode shape behind = .ok (i.operands, rest) := by
  obtain ⟨entry, hentry, rfl, hread⟩ := exists_entry_of_decode h hm
  obtain ⟨hfirst, hshape⟩ := Opcode.shape_mem_of_mem_table hentry hshapes
  exact ⟨entry.shape, hshape, hread hfirst⟩

/-- A move is between operands of one size, the first of which can be written. -/
theorem operands_of_mov (h : decode bytes address = .ok (i, n)) (hm : i.mnemonic = .mov)
    (hsegment : ∀ op ∈ i.operands, op.isSegmentRegister = false) :
    ∃ size destination source, destination.Writable size ∧ source.Readable size ∧
      i.operands = [destination, source] := by
  obtain ⟨form, hform, hops⟩ := movesSized_of_decode h hm (List.cons_ne_nil _ _) fun _ => hsegment
  obtain ⟨w, -, rfl⟩ := List.mem_map.1 hform
  obtain ⟨destination, rest, hoperands, hdestination, hrest⟩ := areSized_cons hops
  obtain ⟨source, rfl, hsource⟩ := areSized_one hrest
  exact ⟨_, destination, source, hdestination.writable, hsource.readable, hoperands⟩

/-- A number is widened from 8 or 16 bits to 16 or 32. -/
theorem operands_of_widen {signed : Bool} (h : decode bytes address = .ok (i, n)) (hm : i.mnemonic = .widen signed) :
    ∃ size size' destination source, size.bits ∈ [16, 32] ∧ size'.bits ∈ [8, 16] ∧ destination.Writable size ∧
      source.Writable size' ∧ i.operands = [destination, source] := by
  obtain ⟨form, hform, hops⟩ := movesSized_of_decode h hm (List.cons_ne_nil _ _) nofun
  obtain ⟨w, hw, rfl⟩ := List.mem_map.1 hform
  obtain ⟨destination, rest, hoperands, hdestination, hrest⟩ := areSized_cons hops
  obtain ⟨source, rfl, hsource⟩ := areSized_one hrest
  have hsize : (Fetch.width i.prefixes .full).bits ∈ [16, 32] := by
    simp only [Fetch.width]
    split <;> decide
  have hsize' : (Fetch.width i.prefixes w).bits ∈ [8, 16] := by
    rcases List.mem_pair.1 hw with rfl | rfl <;> simp only [Fetch.width] <;> decide
  exact ⟨_, _, destination, source, hsize, hsize', hdestination.writable, hsource.writable, hoperands⟩

/-- An exchange is with a register. -/
theorem operands_of_xchg (h : decode bytes address = .ok (i, n)) (hm : i.mnemonic = .xchg) :
    ∃ size first index, first.Writable size ∧ (Operand.reg index size).Writable size ∧
      i.operands = [first, .reg index size] := by
  obtain ⟨form, hform, hops⟩ := movesSized_of_decode h hm (List.cons_ne_nil _ _) nofun
  obtain ⟨w, -, rfl⟩ := List.mem_map.1 hform
  obtain ⟨first, rest, hoperands, hfirst, hrest⟩ := areSized_cons hops
  obtain ⟨second, rfl, hsecond⟩ := areSized_one hrest
  have hregister : ∃ index size, second = .reg index size := by
    obtain ⟨shape, hshape, opcode, behind, rest, hread⟩ := reads_of_decode h hm (List.cons_ne_nil _ _)
    have hlast : Fetch.Reads (Fetch.operands i.prefixes opcode shape) fun ops =>
        ∃ first index size, ops = [first, .reg index size] := by
      simp only [Mnemonic.moveShapes, List.mem_cons, List.not_mem_nil, or_false] at hshape
      rcases hshape with rfl | rfl | rfl
      · exact Fetch.reads_bind Fetch.reads_modRM fun m _ =>
          Fetch.reads_bind (Fetch.reads_sizeRm _ m _) fun op _ => Fetch.reads_pure ⟨_, _, _, rfl⟩
      · exact Fetch.reads_bind Fetch.reads_modRM fun m _ =>
          Fetch.reads_bind (Fetch.reads_sizeRm _ m _) fun op _ => Fetch.reads_pure ⟨_, _, _, rfl⟩
      · exact Fetch.reads_pure ⟨_, _, _, rfl⟩
    obtain ⟨-, first', index, size, heq⟩ := hlast _ _ _ hread
    rw [hoperands] at heq
    cases heq
    exact ⟨index, size, rfl⟩
  obtain ⟨index, size, rfl⟩ := hregister
  cases hsecond.size?_eq
  exact ⟨_, first, index, hfirst.writable, hsecond.writable, hoperands⟩

/-- A condition is stored to a byte. -/
theorem operands_of_set {c : Condition} (h : decode bytes address = .ok (i, n)) (hm : i.mnemonic = .set c) :
    ∃ destination, destination.Writable .bits8 ∧ i.operands = [destination] := by
  obtain ⟨form, hform, hops⟩ := movesSized_of_decode h hm (List.cons_ne_nil _ _) nofun
  obtain rfl := List.mem_singleton.1 hform
  obtain ⟨destination, hoperands, hdestination⟩ := areSized_one hops
  exact ⟨destination, hdestination.writable, hoperands⟩

/-- What is pushed or popped has 16 or 32 bits. -/
private theorem full_mem (prefixes : Prefixes) : Fetch.width prefixes .full ∈ [OperandSize.bits16, .bits32] := by
  simp only [Fetch.width]
  split <;> decide

theorem operands_of_push (h : decode bytes address = .ok (i, n)) (hm : i.mnemonic = .push) :
    ∃ size source, size ∈ [OperandSize.bits16, .bits32] ∧ source.Readable size ∧ i.operands = [source] := by
  obtain ⟨form, hform, hops⟩ := movesSized_of_decode h hm (List.cons_ne_nil _ _) nofun
  obtain rfl := List.mem_singleton.1 hform
  obtain ⟨source, hoperands, hsource⟩ := areSized_one hops
  exact ⟨_, source, full_mem _, hsource.readable, hoperands⟩

theorem operands_of_pop (h : decode bytes address = .ok (i, n)) (hm : i.mnemonic = .pop) :
    ∃ size destination, size ∈ [OperandSize.bits16, .bits32] ∧ destination.Writable size ∧
      i.operands = [destination] := by
  obtain ⟨form, hform, hops⟩ := movesSized_of_decode h hm (List.cons_ne_nil _ _) nofun
  obtain rfl := List.mem_singleton.1 hform
  obtain ⟨destination, hoperands, hdestination⟩ := areSized_one hops
  exact ⟨_, destination, full_mem _, hdestination.writable, hoperands⟩

/-- A return names nothing or the number of bytes to take from the stack. -/
theorem operands_of_ret (h : decode bytes address = .ok (i, n)) (hm : i.mnemonic = .ret) :
    i.operands = [] ∨ ∃ value, i.operands = [.imm value .bits16] := by
  obtain ⟨form, hform, hops⟩ := movesSized_of_decode h hm (List.cons_ne_nil _ _) nofun
  rcases List.mem_pair.1 hform with rfl | rfl
  · exact .inl (List.forall₂_nil_left_iff.1 hops)
  · obtain ⟨op, hoperands, hop⟩ := areSized_one hops
    obtain ⟨value, size, rfl, -⟩ := hop.is
    cases hop.size?_eq
    exact .inr ⟨value, hoperands⟩

/-- An instruction that names no operand has none. -/
theorem operands_of_moveForms (h : decode bytes address = .ok (i, n)) (hm : i.mnemonic = mnemonic)
    (hforms : mnemonic.moveForms = [[]]) : i.operands = [] := by
  have hmov : mnemonic ≠ .mov := by
    rintro rfl
    cases hforms
  obtain ⟨form, hform, hops⟩ := movesSized_of_decode h hm (by rw [hforms]; exact List.cons_ne_nil _ _)
    fun heq => absurd heq hmov
  rw [hforms] at hform
  obtain rfl := List.mem_singleton.1 hform
  exact List.forall₂_nil_left_iff.1 hops

/-- The elements of a string have 8, 16 or 32 bits. -/
private theorem scalar_mem (prefixes : Prefixes) {w : Opcode.Width} (hw : w = .byte ∨ w = .full) :
    Fetch.width prefixes w ≠ .bits128 := by
  rcases hw with rfl | rfl <;> simp only [Fetch.width] <;> (try split) <;> decide

/-- A string instruction whose shapes differ only in the width has the element at `edi` and another operand of that
width. -/
theorem operands_of_string (shape : Opcode.Width → Opcode.Shape) (source : OperandSize → Operand)
    (hshapes : mnemonic.moveShapes = [shape .byte, shape .full])
    (hoperands : ∀ prefixes opcode w, Fetch.operands prefixes opcode (shape w) =
      pure [.pointer 7 (Fetch.width prefixes w), source (Fetch.width prefixes w)])
    (h : decode bytes address = .ok (i, n)) (hm : i.mnemonic = mnemonic) :
    ∃ size, size ≠ OperandSize.bits128 ∧ i.operands = [.pointer 7 size, source size] := by
  obtain ⟨s, hs, opcode, behind, rest, hread⟩ := reads_of_decode h hm (by rw [hshapes]; exact List.cons_ne_nil _ _)
  obtain ⟨w, hw, rfl⟩ : ∃ w, (w = .byte ∨ w = .full) ∧ s = shape w := by
    rw [hshapes] at hs
    rcases List.mem_pair.1 hs with rfl | rfl
    · exact ⟨.byte, .inl rfl, rfl⟩
    · exact ⟨.full, .inr rfl, rfl⟩
  rw [hoperands] at hread
  obtain ⟨heq, -⟩ := Prod.mk.inj (Except.ok.inj hread)
  exact ⟨_, scalar_mem i.prefixes hw, heq.symm⟩

end Decoded

end Ia32Wasm.X86
