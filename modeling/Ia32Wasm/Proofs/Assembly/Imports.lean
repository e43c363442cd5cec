import Ia32Wasm.Image.Basic
import Ia32Wasm.Proofs.Assembly.Transfers
import Ia32Wasm.Proofs.Lowering.Calls
import Mathlib.Data.List.Infix

/-!
# Imported functions

The functions that an assembled chunk imports besides the hooks are those that its instructions transfer control to,
each once and in the order of first use.  The index of a call is written when the list of imports ends with the
functions called so far, and it belongs to the final list too: a function keeps the place that it gets at its first
call (`idxOf_of_isPrefix`), and what has been written stays (`prefix_of_write_take`).

* Collecting imports keeps the first of equal callees (`addImports_eq`).
* The calls of the body are those of the instructions, one after the other (`callees_body`).
* A symbol is divided by its first double colon (`splitSymbol?_eq_some_iff`).  That gives back the library and the
  name of an imported function exactly if the colons of the symbol are the first ones that stand together, and for
  that the name of the library must not end in a colon (`splitSymbol?_symbol_iff`).
-/

namespace Ia32Wasm

open Wasm (Instr callees)
open X86 (Instruction)

/-! ### Symbols -/

namespace Lowering

/-- The characters in front of the first double colon, with one colon behind them, have no double colon. -/
private theorem go_eq_some_iff {read symbol : List Char} {library name : String} :
    splitSymbol?.go read symbol = some (library, name) ↔
      ∃ front, library.toList = read.reverse ++ front ∧ symbol = front ++ ':' :: ':' :: name.toList ∧
        ¬ [':', ':'] <:+: front ++ [':'] := by
  fun_induction splitSymbol?.go read symbol with
  | case1 read rest =>
    constructor
    · intro h
      cases h
      exact ⟨[], by simp, by simp, by decide⟩
    · rintro ⟨front, hlibrary, hsymbol, hfirst⟩
      -- A longer front would begin with the double colon that the symbol begins with.
      obtain rfl : front = [] := by
        rcases front with _ | ⟨x, _ | ⟨y, front⟩⟩
        · rfl
        · cases hsymbol
          exact absurd (List.infix_refl _) hfirst
        · cases hsymbol
          exact absurd (List.prefix_append [':', ':'] _).isInfix hfirst
      cases hsymbol
      rw [List.append_nil] at hlibrary
      rw [← hlibrary, String.ofList_toList, String.ofList_toList]
  | case2 read c rest hcolons ih =>
    rw [ih]
    constructor
    · rintro ⟨front, hlibrary, rfl, hfirst⟩
      refine ⟨c :: front, by simp [hlibrary], rfl, fun hinfix => ?_⟩
      rcases List.infix_cons_iff.1 hinfix with hbegin | hlater
      · rw [List.cons_prefix_cons] at hbegin
        obtain ⟨rfl, hbegin⟩ := hbegin
        cases front with
        | nil => exact hcolons _ rfl rfl
        | cons x front =>
          obtain ⟨rfl, -⟩ := List.cons_prefix_cons.1 hbegin
          exact hcolons _ rfl rfl
      · exact hfirst hlater
    · rintro ⟨front, hlibrary, hsymbol, hfirst⟩
      cases front with
      | nil =>
        cases hsymbol
        exact absurd rfl (hcolons _ rfl)
      | cons x front =>
        obtain ⟨rfl, rfl⟩ := List.cons.inj hsymbol
        exact ⟨front, by simp [hlibrary], rfl, fun hinfix => hfirst (List.infix_cons hinfix)⟩
  | case3 read => simp

/-- The library and the name of a symbol are what is in front of its first double colon and behind it. -/
theorem splitSymbol?_eq_some_iff {symbol library name : String} :
    splitSymbol? symbol = some (library, name) ↔
      symbol = library ++ "::" ++ name ∧ ¬ [':', ':'] <:+: library.toList ++ [':'] := by
  rw [splitSymbol?, go_eq_some_iff]
  constructor
  · rintro ⟨front, hlibrary, hsymbol, hfirst⟩
    obtain rfl : library.toList = front := hlibrary
    refine ⟨String.toList_injective ?_, hfirst⟩
    simp [hsymbol]
  · rintro ⟨rfl, hfirst⟩
    exact ⟨library.toList, rfl, by simp, hfirst⟩

/-- The symbol of an imported function is divided into the name of its library and its own name or ordinal exactly if
the name of the library has no double colon and does not end in a colon. -/
theorem splitSymbol?_symbol_iff (library : ImportLibrary) (entry : ImportEntry) :
    splitSymbol? (library.symbol entry) =
        some (library.name, entry.name.getD ("#" ++ toString entry.ordinal.toNat)) ↔
      ¬ [':', ':'] <:+: library.name.toList ∧ ¬ [':'] <:+ library.name.toList := by
  have hcolons : [':', ':'] <:+: library.name.toList ++ [':'] ↔
      [':'] <:+ library.name.toList ∨ [':', ':'] <:+: library.name.toList := by
    rw [List.infix_concat_iff]
    refine or_congr_left ⟨fun h => ?_, fun h => List.suffix_concat_iff.2 (.inr ⟨_, rfl, h⟩)⟩
    obtain h | ⟨front, heq, h⟩ := List.suffix_concat_iff.1 h
    · cases h
    · obtain rfl : [':'] = front := List.append_cancel_right (heq : [':'] ++ [':'] = front ++ [':'])
      exact h
  rw [splitSymbol?_eq_some_iff, hcolons, not_or, ImportLibrary.symbol, and_iff_right rfl, and_comm]

end Lowering

/-! ### Collecting imports -/

/-- The imported functions that some code calls, in the order of the calls. -/
def importedCallees (code : Code) : List FunctionImport :=
  (callees code).filterMap fun
    | .imported f => some f
    | .hook _ => none

private theorem removeAll_concat {α : Type} [BEq α] [LawfulBEq α] (l known : List α) (x : α) :
    l.removeAll (known ++ [x]) = (l.removeAll known).filter fun y => !y == x := by
  unfold List.removeAll
  rw [List.filter_filter]
  refine List.filter_congr fun y _ => ?_
  rw [List.elem_eq_contains, List.elem_eq_contains, List.contains_append, Bool.not_or, Bool.and_comm]
  simp

/-- To put those members of a list behind another list that it does not have yet is to erase duplicates. -/
private theorem foldl_append_new {α : Type} [BEq α] [LawfulBEq α] (l known : List α) :
    l.foldl (fun known x => if known.contains x then known else known ++ [x]) known =
      known ++ (l.removeAll known).eraseDups := by
  induction l generalizing known with
  | nil => simp
  | cons x l ih =>
    rw [List.foldl_cons, ih, List.cons_removeAll]
    cases hknown : known.contains x with
    | true => simp
    | false => simp [List.eraseDups_cons, removeAll_concat]

/-- Behind the functions that are known come those that are called and not known, each at the place of its first
call. -/
theorem addImports_eq (known : List FunctionImport) (code : Code) :
    addImports known code = known ++ ((importedCallees code).removeAll known).eraseDups := by
  rw [← foldl_append_new]
  unfold addImports
  induction code generalizing known with
  | nil => rfl
  | cons instr code ih =>
    rw [List.foldl_cons, ih]
    cases instr with
    | call callee => cases callee <;> rfl
    | _ => rfl

/-- Linking replaces callees by their indices. -/
theorem callees_link (imports : List FunctionImport) (code : Code) :
    callees (link imports code) = (callees code).map (Callee.index imports) := by
  unfold callees link
  rw [List.filterMap_map, List.map_filterMap]
  congr
  funext instr
  cases instr <;> rfl

/-! ### Chunks -/

namespace Chunk

variable {c : Chunk} {o : AssemblyOptions} {a : Assembled} {index : Nat} {i : Instruction}

/-- What the code of an instruction calls, the report to the debugger included. -/
def called (c : Chunk) (o : AssemblyOptions) (i : Instruction) : List Callee :=
  (if o.debugHooks then [.hook .debugger] else []) ++ (i.callee? c.id).toList

/-- The function indices of the calls of an instruction: the hooks have the first three, and the imported functions
follow. -/
def calledIndices (c : Chunk) (o : AssemblyOptions) (imports : List FunctionImport) (i : Instruction) : List Nat :=
  (if o.debugHooks then [0] else []) ++
    match i.importedCallee? c.id with
    | some f => [3 + imports.idxOf f]
    | none => (i.hook?.map Hook.index).toList

/-- The functions that the instructions of the chunk transfer control to, in the order of the instructions. -/
def transferred (c : Chunk) : List FunctionImport := c.instructions.filterMap (·.importedCallee? c.id)

/-- The module `a` of the chunk `c` imports the functions that the instructions transfer control to, each once and in
the order of first use.  Its body calls them and the hooks in the order of the instructions, each instruction in its
own code, and the index in a call is that of the function in the module.  What the first instructions have written,
with the indices of the functions that had been imported by then, stays as it is, and these functions stay in their
places. -/
structure LinksTransfers (c : Chunk) (o : AssemblyOptions) (a : Assembled) : Prop where
  imports : a.imports = c.transferred.eraseDups
  kept : ∀ count b, c.write o (Body.openDispatch {} c.targets) (c.instructions.zipIdx.take count) = .ok b →
    b.imports <+: a.imports ∧ b.code <+: a.wasm.body
  calls : callees a.wasm.body = c.instructions.flatMap (c.calledIndices o a.imports)
  own : ∀ index i, c.instructions[index]? = some i →
    callees (link a.imports (c.ownCode o index i)) = c.calledIndices o a.imports i ∧
      link a.imports (c.ownCode o index i ++ c.arrival o (index + 1)) <:+ a.wasm.body
  functions : ∀ f ∈ c.transferred, a.imports[a.imports.idxOf f]? = some f ∧
    a.wasm.function? (3 + a.imports.idxOf f) = some f.toImport

private theorem callees_ownCode (h : (c.lowering index i).outcome = .ok ()) :
    callees (c.ownCode o index i) = c.called o i := by
  have hreport : callees (report o index) = if o.debugHooks then [.hook .debugger] else [] := by
    unfold report
    split <;> rfl
  have hlowering : callees (c.lowering index i).code = (i.callee? c.id).toList := Lowering.calls_instruction () h
  rw [ownCode, Wasm.callees_append, hreport, hlowering, called]

theorem callees_landing (targets : List UInt32) (index : Nat) : callees (DispatchLoop.landing targets index) = [] :=
  Lowering.callees_of_silent (DispatchLoop.forall_mem_landing targets index trivial)

theorem callees_tail (targets : List UInt32) (count : Nat) : callees (DispatchLoop.tail targets count) = [] :=
  Lowering.callees_of_silent (DispatchLoop.forall_mem_tail targets count trivial)

theorem callees_head (targets : List UInt32) : callees (DispatchLoop.head targets) = [] :=
  Lowering.callees_of_silent (DispatchLoop.forall_mem_head targets trivial trivial trivial (fun _ => trivial) trivial
    fun _ => trivial)

/-- A rest of the instructions calls what each of them calls, one after the other. -/
private theorem callees_emitFrom {instructions : List Instruction}
    (h : ∀ k i, instructions[k]? = some i → (c.lowering (index + k) i).outcome = .ok ()) :
    callees (c.emitFrom o index instructions) = instructions.flatMap (c.called o) := by
  induction instructions generalizing index with
  | nil => exact callees_tail _ _
  | cons i rest ih =>
    have hrest : ∀ k j, rest[k]? = some j → (c.lowering (index + 1 + k) j).outcome = .ok () := by
      intro k j hk
      rw [Nat.add_assoc, Nat.add_comm 1 k]
      exact h (k + 1) j hk
    have hown : callees (c.ownCode o index i) = c.called o i := callees_ownCode (h 0 i rfl)
    rw [emitFrom, Wasm.callees_append, Wasm.callees_append, callees_landing, hown, ih hrest]
    rfl

/-- The callees of a body are those of its instructions, in order; the dispatch loop has none. -/
theorem callees_body (h : ∀ k i, c.instructions[k]? = some i → (c.lowering k i).outcome = .ok ()) :
    callees (c.body o) = c.instructions.flatMap (c.called o) := by
  have hall : ∀ k i, c.instructions[k]? = some i → (c.lowering (0 + k) i).outcome = .ok () := by
    simpa using h
  rw [body, Wasm.callees_append, callees_head, arrival, List.drop_zero, callees_emitFrom hall, List.nil_append]

private theorem importedCallees_body (h : ∀ k i, c.instructions[k]? = some i → (c.lowering k i).outcome = .ok ()) :
    importedCallees (c.body o) = c.transferred := by
  rw [importedCallees, callees_body h, List.filterMap_flatMap, transferred, List.filterMap_eq_flatMap_toList]
  congr
  funext i
  unfold called X86.Instruction.callee?
  cases i.importedCallee? c.id with
  | some f => cases o.debugHooks <;> rfl
  | none => cases o.debugHooks <;> cases i.hook? <;> rfl

/-- The imports of a chunk do not depend on how it is assembled. -/
theorem addImports_body (h : ∀ k i, c.instructions[k]? = some i → (c.lowering k i).outcome = .ok ()) :
    addImports [] (c.body o) = c.transferred.eraseDups := by
  rw [addImports_eq, importedCallees_body h]
  simp

private theorem map_index_called (imports : List FunctionImport) (i : Instruction) :
    (c.called o i).map (Callee.index imports) = c.calledIndices o imports i := by
  unfold called calledIndices X86.Instruction.callee?
  cases i.importedCallee? c.id with
  | some f => cases o.debugHooks <;> rfl
  | none => cases o.debugHooks <;> cases i.hook? <;> rfl

private theorem linksTransfers_of_assemble (h : c.assemble o = .ok a) : c.LinksTransfers o a := by
  obtain ⟨-, hlowered, rfl⟩ := of_assemble h
  have himports : (assembleCode o (c.body o)).imports = c.transferred.eraseDups := addImports_body hlowered
  constructor
  case imports => exact himports
  case kept => exact fun count b hb => prefix_of_write_take hlowered hb
  case calls =>
    rw [body_of_assemble h, callees_link, callees_body hlowered, List.map_flatMap]
    simp only [map_index_called]
  case own =>
    intro index i hi
    rw [callees_link, callees_ownCode (hlowered index i hi), map_index_called, body_of_assemble h]
    refine ⟨rfl, ?_⟩
    have hsuffix := codeFrom_suffix_body (c := c) (o := o) index
    rw [codeFrom_of_getElem? hi] at hsuffix
    exact hsuffix.map _
  case functions =>
    intro f hf
    have hmem : f ∈ (assembleCode o (c.body o)).imports := by
      rw [himports]
      exact List.mem_eraseDups.2 hf
    refine ⟨?_, function?_of_mem_imports o hmem⟩
    rw [List.getElem?_eq_getElem (List.idxOf_lt_length_of_mem hmem), List.getElem_idxOf]

/-- The module of a chunk imports exactly the functions that the instructions of the chunk transfer control to, each
once and in the order of first use, and every transfer calls its own function, by the place of that function in the
final list behind the three hooks, although the index is written while the list grows.  The function of a symbol is
what its first double colon divides: the library and the name or ordinal of an import if the name of the library has
no double colon and no colon at its end, and not of any other import. -/
theorem imports_of_assemble {c : Chunk} {o : AssemblyOptions} {a : Assembled} (h : c.assemble o = .ok a) :
    c.LinksTransfers o a ∧
      (∀ symbol library name, Lowering.splitSymbol? symbol = some (library, name) ↔
        symbol = library ++ "::" ++ name ∧ ¬ [':', ':'] <:+: library.toList ++ [':']) ∧
      ∀ (library : ImportLibrary) (entry : ImportEntry),
        Lowering.splitSymbol? (library.symbol entry) =
            some (library.name, entry.name.getD ("#" ++ toString entry.ordinal.toNat)) ↔
          ¬ [':', ':'] <:+: library.name.toList ∧ ¬ [':'] <:+ library.name.toList :=
  ⟨linksTransfers_of_assemble h, fun _ _ _ => Lowering.splitSymbol?_eq_some_iff, Lowering.splitSymbol?_symbol_iff⟩

/-- A chunk that calls itself, another chunk and imported functions, some of them twice. -/
def sociable : Chunk where
  id := 1
  name := nameOf 0x1000
  entry := 0x1000
  instructions := [
    ⟨{}, 0xff, .importCall, [.symbol "K::f::g"], 0x1000, 0x1006⟩,
    ⟨{}, 0x74, .jumpIf .e, X86.Instruction.destinationOperands (.across 2 5), 0x1006, 0x1008⟩,
    ⟨{}, 0xf7, .divide true, [.reg 1 .bits32], 0x1008, 0x100a⟩,
    ⟨{}, 0xe8, .call, X86.Instruction.destinationOperands (.inside 1), 0x100a, 0x100f⟩,
    ⟨{}, 0xeb, .jump, X86.Instruction.destinationOperands (.inside 1), 0x100f, 0x1011⟩,
    ⟨{}, 0xe8, .call, X86.Instruction.destinationOperands (.across 2 0), 0x1011, 0x1016⟩,
    ⟨{}, 0xff, .importJump, [.symbol "K::f::g"], 0x1016, 0x101c⟩]
  ranges := [⟨0x1000, 0x101c⟩]
  targets := .ofList [1]

/-- A function that is called twice is imported once, and both calls have its index. -/
theorem imports_sociable : ∃ a, sociable.assemble ⟨true, 1, none⟩ = .ok a ∧
    a.imports = [⟨"K", "f::g"⟩, ⟨"chunk2", "entry"⟩, ⟨"chunk1", "entry"⟩] ∧
    callees a.wasm.body = [0, 3, 0, 4, 0, 2, 0, 5, 0, 0, 4, 0, 3] := by
  have hassemble : sociable.assemble ⟨true, 1, none⟩ =
      .ok (assembleCode ⟨true, 1, none⟩ (sociable.body ⟨true, 1, none⟩)) := assemble_of_isOk (by decide +kernel)
  obtain ⟨⟨himports, -, hcalls, -, -⟩, -⟩ := imports_of_assemble hassemble
  have heq : sociable.transferred.eraseDups = [⟨"K", "f::g"⟩, ⟨"chunk2", "entry"⟩, ⟨"chunk1", "entry"⟩] := by
    decide +kernel
  refine ⟨_, hassemble, himports.trans heq, ?_⟩
  rw [hcalls, himports, heq]
  decide +kernel

/-- A library with a colon at the end of its name and no double colon in it. -/
def trailing : ImportLibrary := ⟨"a:", [⟨0, some "f", 0x2000⟩]⟩

/-- A chunk that jumps to the function of that library. -/
def leaving : Chunk where
  id := 0
  name := nameOf 0x1000
  entry := 0x1000
  instructions := [
    ⟨{}, 0xff, .importJump, trailing.entries.map fun entry => .symbol (trailing.symbol entry), 0x1000, 0x1006⟩]
  ranges := [⟨0x1000, 0x1006⟩]
  targets := .ofList []

/-- The colon at the end of the name is part of the first double colon of the symbol, and another function is
imported. -/
theorem imports_leaving : ¬ [':', ':'] <:+: trailing.name.toList ∧ ∃ a, leaving.assemble {} = .ok a ∧
    a.imports = [⟨"a", ":f"⟩] ∧ a.imports ≠ [⟨trailing.name, "f"⟩] :=
  ⟨by decide, _, rfl, by decide +kernel, by decide +kernel⟩

end Chunk

end Ia32Wasm
