import Ia32Wasm.Wasm.Module

/-!
# Validation

A module is valid if its limits are in order and its function body takes from the operand stack only what is there,
with the right types, closes every construct that it opens, and names only labels, locals, globals, functions and
memory that there are.  All constructs and functions here have the type of the function itself, from no operands to
no results.

Code is judged from the first instruction to the last.  There is a frame for every construct that is open, innermost
first, with the types of the operands pushed inside it.  Behind an instruction that control does not pass the operands
are dropped, and up to the end of the construct any operand that is missing has whatever type is asked for.

* `validate` judges a sequence of instructions, `Module.valid` a module.
* Sequences are judged one after the other (`validate_append`), and callees may be renamed (`validate_mapCallee`).
-/

namespace Ia32Wasm.Wasm

/-- The type of an operand, a local or a global. -/
inductive ValueType where
  | i32
  | i64
deriving DecidableEq, Repr

/-- What code can name: locals by their types, 32-bit globals that can be written, memories and functions. -/
structure Context (κ : Type) where
  locals : List ValueType
  globals : Nat
  memories : Nat
  callable : κ → Bool

/-- What a frame is for: the function, a block, a loop, or the first or second part of a conditional. -/
inductive Construct where
  | function
  | block
  | loop
  | first
  | second
deriving DecidableEq, Repr

/-- The operands pushed inside a construct, topmost first; one of unknown type is `none`.  Control can reach the place
if the frame is live. -/
structure Frame where
  construct : Construct
  stack : List (Option ValueType)
  live : Bool
deriving DecidableEq, Repr

/-! ### Operands -/

/-- The types of the operands, topmost first, and of the result. -/
@[simp] def Numeric.type : Numeric → List ValueType × ValueType
  | .i32Eqz | .i32Popcnt | .i32Extend8S | .i32Extend16S => ([.i32], .i32)
  | .i32Eq | .i32Ne | .i32LtU | .i32Add | .i32Sub | .i32And | .i32Or | .i32Xor | .i32Shl | .i32ShrS | .i32ShrU =>
    ([.i32, .i32], .i32)
  | .i64Ne | .i64LtU => ([.i64, .i64], .i32)
  | .i64Add | .i64Mul | .i64DivS | .i64DivU | .i64RemS | .i64RemU | .i64Or | .i64Shl | .i64ShrU =>
    ([.i64, .i64], .i64)
  | .i32WrapI64 => ([.i64], .i32)
  | .i64ExtendI32S | .i64ExtendI32U => ([.i32], .i64)

namespace Frame

/-- The frame of a construct that has just been opened. -/
def opened (construct : Construct) : Frame := ⟨construct, [], true⟩

/-- The frame with one more operand. -/
def push (f : Frame) (type : ValueType) : Frame := { f with stack := some type :: f.stack }

/-- The frame without its topmost operand, and the type of that. -/
def pop? (f : Frame) : Option (Option ValueType × Frame) :=
  match f.stack with
  | type :: rest => some (type, { f with stack := rest })
  | [] => if f.live then none else some (none, f)

/-- The frame without its topmost operand, which has to be of the type. -/
def take? (f : Frame) (type : ValueType) : Option Frame :=
  f.pop?.bind fun (found, f) => if found = none ∨ found = some type then some f else none

/-- The frame without some operands, topmost first. -/
def takeAll? (f : Frame) (types : List ValueType) : Option Frame := types.foldlM take? f

/-- The frame behind an instruction that control does not pass. -/
def cut (f : Frame) : Frame := { f with stack := [], live := false }

@[simp] theorem take?_push (f : Frame) (type : ValueType) : (f.push type).take? type = some f := by
  simp [take?, pop?, push]

@[simp] theorem takeAll?_nil (f : Frame) : f.takeAll? [] = some f := rfl

@[simp] theorem takeAll?_cons (f : Frame) (type : ValueType) (types : List ValueType) :
    f.takeAll? (type :: types) = (f.take? type).bind (·.takeAll? types) := rfl

end Frame

/-! ### Instructions -/

variable {κ κ' : Type}

/-- What an instruction makes of the innermost frame, if it neither opens nor closes a construct; there are labels for
`outer` constructs around it. -/
def Instr.effect (C : Context κ) (outer : Nat) (f : Frame) : Instr κ → Option Frame
  | .unreachable | .ret => some f.cut
  | .br depth => if depth ≤ outer then some f.cut else none
  | .brIf depth => if depth ≤ outer then f.take? .i32 else none
  | .call callee => if C.callable callee then some f else none
  | .select => do
    let f ← f.take? .i32
    let (type, f) ← f.pop?
    let (type', f) ← f.pop?
    if type = none ∨ type' = none ∨ type = type' then some { f with stack := type.or type' :: f.stack } else none
  | .localGet index => (C.locals[index]?).map f.push
  | .localSet index => (C.locals[index]?).bind f.take?
  | .globalGet index => if index < C.globals then some (f.push .i32) else none
  | .globalSet index => if index < C.globals then f.take? .i32 else none
  | .load _ => if 0 < C.memories then (f.take? .i32).map (·.push .i32) else none
  | .store _ => if 0 < C.memories then f.takeAll? [.i32, .i32] else none
  | .i32Const _ => some (f.push .i32)
  | .i64Const _ => some (f.push .i64)
  | .op o => (f.takeAll? o.type.1).map (·.push o.type.2)
  | .block | .loop | .ifThen | .orElse | .close => none

/-- The frames behind an instruction. -/
def Instr.check (C : Context κ) : Instr κ → List Frame → Option (List Frame)
  | _, [] => none
  | .block, f :: outer => some (.opened .block :: f :: outer)
  | .loop, f :: outer => some (.opened .loop :: f :: outer)
  | .ifThen, f :: outer => (f.take? .i32).map fun f => .opened .first :: f :: outer
  | .orElse, f :: outer => if f.construct = .first ∧ f.stack = [] then some (.opened .second :: outer) else none
  | .close, f :: outer => if f.stack = [] then some outer else none
  | instr, f :: outer => (instr.effect C outer.length f).map (· :: outer)

/-- The frames behind a sequence of instructions. -/
def validate (C : Context κ) : List (Instr κ) → List Frame → Option (List Frame)
  | [], frames => some frames
  | instr :: rest, frames => (instr.check C frames).bind (validate C rest)

@[simp] theorem validate_nil (C : Context κ) (frames : List Frame) : validate C [] frames = some frames := by
  rw [validate]

@[simp] theorem validate_cons (C : Context κ) (instr : Instr κ) (rest : List (Instr κ)) (frames : List Frame) :
    validate C (instr :: rest) frames = (instr.check C frames).bind (validate C rest) := by
  rw [validate]

/-- Code in sequence is validated part by part. -/
theorem validate_append (C : Context κ) (first second : List (Instr κ)) (frames : List Frame) :
    validate C (first ++ second) frames = (validate C first frames).bind (validate C second) := by
  induction first generalizing frames with
  | nil => rfl
  | cons instr rest ih =>
    rw [List.cons_append, validate_cons, validate_cons, Option.bind_assoc]
    exact Option.bind_congr fun frames' _ => ih frames'

/-- Sequences that each leave the frames as they are do so together. -/
theorem validate_flatten {C : Context κ} {codes : List (List (Instr κ))} {frames : List Frame}
    (h : ∀ code ∈ codes, validate C code frames = some frames) : validate C codes.flatten frames = some frames := by
  induction codes with
  | nil => rfl
  | cons code rest ih =>
    obtain ⟨hcode, hrest⟩ := List.forall_mem_cons.1 h
    rw [List.flatten_cons, validate_append, hcode]
    exact ih hrest

-- An operand that is missing is an error, but not where control does not come.
example : validate (⟨[], 0, 0, fun _ : Nat => true⟩) [.i32Const 1, .op .i32Add] [.opened .function] = none := rfl
example : validate (⟨[], 0, 0, fun _ : Nat => true⟩) [.ret, .i32Const 1, .op .i32Add] [.opened .function] =
    some [⟨.function, [some .i32], false⟩] := rfl

section Check

variable (C : Context κ) (f : Frame) (outer : List Frame)

@[simp] theorem check_i32Const (value : UInt32) :
    (Instr.i32Const value).check C (f :: outer) = some (f.push .i32 :: outer) := rfl

@[simp] theorem check_i64Const (value : UInt64) :
    (Instr.i64Const value).check C (f :: outer) = some (f.push .i64 :: outer) := rfl

@[simp] theorem check_localGet (index : Nat) :
    (Instr.localGet index).check C (f :: outer) = (C.locals[index]?).map (f.push · :: outer) := by
  simp [Instr.check, Instr.effect, Function.comp_def]

@[simp] theorem check_localSet (index : Nat) :
    (Instr.localSet index).check C (f :: outer) =
      (C.locals[index]?).bind fun type => (f.take? type).map (· :: outer) :=
  Option.map_bind

@[simp] theorem check_op (o : Numeric) :
    (Instr.op o).check C (f :: outer) = (f.takeAll? o.type.1).map (·.push o.type.2 :: outer) := by
  simp [Instr.check, Instr.effect, Function.comp_def]

@[simp] theorem check_select (type : ValueType) :
    (Instr.select : Instr κ).check C (((f.push type).push type).push .i32 :: outer) =
    some (f.push type :: outer) := by
  simp [Instr.check, Instr.effect, Frame.pop?, Frame.push, Frame.take?]

@[simp] theorem check_brIf {depth : Nat} (h : depth ≤ outer.length) :
    (Instr.brIf depth : Instr κ).check C (f.push .i32 :: outer) = some (f :: outer) := by
  simp [Instr.check, Instr.effect, h]

@[simp] theorem check_br {depth : Nat} (h : depth ≤ outer.length) :
    (Instr.br depth : Instr κ).check C (f :: outer) = some (f.cut :: outer) := by
  simp [Instr.check, Instr.effect, h]

@[simp] theorem check_block : (Instr.block : Instr κ).check C (f :: outer) = some (.opened .block :: f :: outer) :=
  rfl

@[simp] theorem check_loop : (Instr.loop : Instr κ).check C (f :: outer) = some (.opened .loop :: f :: outer) := rfl

@[simp] theorem check_ifThen :
    (Instr.ifThen : Instr κ).check C (f.push .i32 :: outer) = some (.opened .first :: f :: outer) := by
  simp [Instr.check]

@[simp] theorem check_orElse :
    (Instr.orElse : Instr κ).check C (.opened .first :: outer) = some (.opened .second :: outer) := rfl

@[simp] theorem check_close (h : f.stack = []) : (Instr.close : Instr κ).check C (f :: outer) = some outer := by
  simp [Instr.check, h]

@[simp] theorem check_unreachable : (Instr.unreachable : Instr κ).check C (f :: outer) = some (f.cut :: outer) := rfl

@[simp] theorem check_ret : (Instr.ret : Instr κ).check C (f :: outer) = some (f.cut :: outer) := rfl

end Check

/-! ### Renamed callees -/

/-- The context with other functions. -/
def Context.withCallable (C : Context κ) (callable : κ' → Bool) : Context κ' := { C with callable }

private theorem check_mapCallee {C : Context κ} {callable : κ' → Bool} {rename : κ → κ'} {instr : Instr κ}
    {frames frames' : List Frame} (hcall : ∀ callee, instr = .call callee → callable (rename callee) = true)
    (h : instr.check C frames = some frames') :
    (instr.mapCallee rename).check (C.withCallable callable) frames = some frames' := by
  cases frames with
  | nil => cases instr <;> cases h
  | cons f outer =>
    cases instr with
    | call callee =>
      simp only [Instr.check, Instr.effect, Option.map_eq_some_iff] at h
      obtain ⟨f', hf', rfl⟩ := h
      split at hf'
      · cases hf'
        simp [Instr.mapCallee, Instr.check, Instr.effect, Context.withCallable, hcall callee rfl]
      · cases hf'
    | _ => exact h

/-- Valid code stays valid with its callees renamed, as long as the new ones are functions. -/
theorem validate_mapCallee {C : Context κ} {callable : κ' → Bool} {rename : κ → κ'} {code : List (Instr κ)}
    {frames frames' : List Frame} (hcalls : ∀ callee, .call callee ∈ code → callable (rename callee) = true)
    (h : validate C code frames = some frames') :
    validate (C.withCallable callable) (code.map (·.mapCallee rename)) frames = some frames' := by
  induction code generalizing frames with
  | nil => exact h
  | cons instr rest ih =>
    rw [validate_cons] at h
    obtain ⟨middle, hinstr, hrest⟩ := Option.bind_eq_some_iff.1 h
    have hfirst := check_mapCallee (fun callee heq => hcalls callee (heq ▸ List.mem_cons_self)) hinstr
    rw [List.map_cons, validate_cons, hfirst]
    exact ih (fun callee hmem => hcalls callee (List.mem_cons_of_mem instr hmem)) hrest

/-! ### Modules -/

/-- The largest number of memory pages that a module can ask for. -/
def largestMemory : UInt32 := 65536

/-- The bounds on memory are in order. -/
def ImportKind.valid : ImportKind → Bool
  | .memory minPages maxPages =>
    minPages ≤ largestMemory && maxPages.all fun bound => bound ≤ largestMemory && minPages ≤ bound
  | .global | .function => true

/-- The import is memory. -/
def ImportKind.isMemory : ImportKind → Bool
  | .memory _ _ => true
  | .global | .function => false

/-- What the function of a module can name: its four 32-bit locals and one of 64 bits, the imports, and itself. -/
def Module.context (m : Module) : Context Nat where
  locals := [.i32, .i32, .i32, .i32, .i64]
  globals := m.imports.countP (·.kind == .global)
  memories := m.imports.countP (·.kind.isMemory)
  callable index := index ≤ m.functionIndex

/-- The module is valid: its imports are, there is at most one memory, and its function body, with its end, is
valid. -/
def Module.valid (m : Module) : Bool :=
  m.imports.all (·.kind.valid) && m.context.memories ≤ 1 &&
    validate m.context (m.body ++ [.close]) [.opened .function] == some []

end Ia32Wasm.Wasm
