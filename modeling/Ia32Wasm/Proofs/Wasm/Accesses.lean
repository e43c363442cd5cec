import Ia32Wasm.Proofs.Wasm.Sequence

/-!
# Accesses to memory

A configuration that stands before a load or a store accesses memory at the address on its stack.

* `Guarded A code` says that the code is made of instructions that leave memory alone, and of probes: straight code
  that comes to an access for which `A` holds.
* Branches and conditionals lead from guarded code to guarded code (`guarded_of_move`), so `A` holds for every access
  that guarded code ever makes (`holds_of_reaches`).
-/

namespace Ia32Wasm.Wasm

variable {κ ω : Type}

/-- A load or a store, with its address. -/
structure MemoryAccess where
  isStore : Bool
  address : UInt32
deriving DecidableEq, Repr

/-- The instruction is a load or a store. -/
def Instr.isAccess : Instr κ → Bool
  | .load _ | .store _ => true
  | _ => false

/-- The access that an instruction makes with some operands. -/
def Instr.access? (stack : List Value) : Instr κ → Option MemoryAccess
  | .load _ =>
    match stack with
    | .i32 address :: _ => some ⟨false, address⟩
    | _ => none
  | .store _ =>
    match stack with
    | _ :: .i32 address :: _ => some ⟨true, address⟩
    | _ => none
  | _ => none

/-- The access that a function makes next. -/
def Config.access? (c : Config κ ω) : Option MemoryAccess := c.code.head?.bind (Instr.access? c.machine.stack)

/-- The function stores to memory next, or loads from it. -/
def Config.Accesses (isStore : Bool) (c : Config κ ω) : Prop := ∃ address, c.access? = some ⟨isStore, address⟩

private theorem Instr.access?_eq_none {instr : Instr κ} (h : instr.isAccess = false) (stack : List Value) :
    instr.access? stack = none := by
  cases instr <;> first | rfl | cases h

/-! ### Guarded code -/

/-- Straight code without an access of its own. -/
def Straight (code : List (Instr κ)) : Prop := ∀ instr ∈ code, instr.isData = true ∧ instr.isAccess = false

/-- The straight code `front` and then the access `instr`, for which `A` holds on every machine. -/
structure Probe (A : Store ω → MemoryAccess → Prop) (front : List (Instr κ)) (instr : Instr κ) : Prop where
  straight : Straight front
  holds : ∀ m : Machine ω, ∃ m', exec front m = .ok m' ∧ ∀ x, instr.access? m'.stack = some x → A m'.store x

/-- Code in which every access is the end of a probe. -/
inductive Guarded (A : Store ω → MemoryAccess → Prop) : List (Instr κ) → Prop
  | nil : Guarded A []
  | quiet {instr rest} (h : instr.isAccess = false) (hrest : Guarded A rest) : Guarded A (instr :: rest)
  | probe {front instr rest} (h : Probe A front instr) (hrest : Guarded A rest) : Guarded A (front ++ instr :: rest)

variable {A : Store ω → MemoryAccess → Prop} {code first second front rest : List (Instr κ)} {instr : Instr κ}

/-- Code in sequence is guarded if its parts are. -/
theorem guarded_append (hfirst : Guarded A first) (hsecond : Guarded A second) : Guarded A (first ++ second) := by
  induction hfirst with
  | nil => exact hsecond
  | quiet h _ ih => exact .quiet h ih
  | probe h _ ih =>
    rw [List.append_assoc]
    exact .probe h ih

/-- Code without accesses is guarded. -/
theorem guarded_of_all (h : (code.all fun instr => !instr.isAccess) = true) : Guarded A code := by
  induction code with
  | nil => exact .nil
  | cons instr code ih =>
    rw [List.all_cons, Bool.and_eq_true, Bool.not_eq_true'] at h
    exact .quiet h.1 (ih h.2)

/-- Code that does not access memory is guarded. -/
theorem guarded_of_straight (h : Straight code) : Guarded A code :=
  guarded_of_all (List.all_eq_true.2 fun instr hinstr => by rw [(h instr hinstr).2]; rfl)

private theorem nest_of_straight (h : Straight front) (depth : Nat) : nest 0 depth front = some depth := by
  induction front with
  | nil => rfl
  | cons instr front ih =>
    obtain ⟨hinstr, hfront⟩ := List.forall_mem_cons.1 h
    have hstep : nestStep 0 depth instr = some depth := by
      cases instr <;> first | rfl | cases hinstr.1
    rw [nest_cons, hstep]
    exact ih hfront

/-- The search for the end of a construct takes one instruction after the other. -/
private theorem afterClose_cons (depth : Nat) (instr : Instr κ) (rest : List (Instr κ)) :
    afterClose depth (instr :: rest) = rest ∨
    ∃ depth', afterClose depth (instr :: rest) = afterClose depth' rest := by
  cases instr with
  | close =>
    cases depth with
    | zero => exact .inl rfl
    | succ depth => exact .inr ⟨depth, rfl⟩
  | block | loop | ifThen => exact .inr ⟨depth + 1, by rw [afterClose]⟩
  | _ => exact .inr ⟨depth, by cases depth <;> rfl⟩

/-- The search for the second part of a conditional takes one instruction after the other; the end of the conditional
is kept. -/
private theorem afterThen_cons (depth : Nat) (instr : Instr κ) (rest : List (Instr κ)) :
    afterThen depth (instr :: rest) = rest ∨ afterThen depth (instr :: rest) = .close :: rest ∨
      ∃ depth', afterThen depth (instr :: rest) = afterThen depth' rest := by
  cases instr with
  | close =>
    cases depth with
    | zero => exact .inr (.inl rfl)
    | succ depth => exact .inr (.inr ⟨depth, rfl⟩)
  | orElse =>
    cases depth with
    | zero => exact .inl rfl
    | succ depth => exact .inr (.inr ⟨depth + 1, rfl⟩)
  | block | loop | ifThen => exact .inr (.inr ⟨depth + 1, by rw [afterThen]⟩)
  | _ => exact .inr (.inr ⟨depth, by cases depth <;> rfl⟩)

/-- What comes behind the end of a construct is guarded. -/
private theorem guarded_afterClose (h : Guarded A code) (depth : Nat) : Guarded A (afterClose depth code) := by
  induction h generalizing depth with
  | nil => exact .nil
  | @quiet instr rest _ hrest ih =>
    rcases afterClose_cons depth instr rest with heq | ⟨depth', heq⟩ <;> rw [heq]
    · exact hrest
    · exact ih depth'
  | @probe front instr rest h hrest ih =>
    -- straight code opens and closes nothing, so the end is not inside the probe
    rw [afterClose_append _ (nest_of_straight h.straight depth)]
    rcases afterClose_cons depth instr rest with heq | ⟨depth', heq⟩ <;> rw [heq]
    · exact hrest
    · exact ih depth'

/-- The second part of a conditional is guarded. -/
private theorem guarded_afterThen (h : Guarded A code) (depth : Nat) : Guarded A (afterThen depth code) := by
  induction h generalizing depth with
  | nil => exact .nil
  | @quiet instr rest _ hrest ih =>
    rcases afterThen_cons depth instr rest with heq | heq | ⟨depth', heq⟩ <;> rw [heq]
    · exact hrest
    · exact .quiet rfl hrest
    · exact ih depth'
  | @probe front instr rest h hrest ih =>
    rw [afterThen_append _ (nest_of_straight h.straight depth)]
    rcases afterThen_cons depth instr rest with heq | heq | ⟨depth', heq⟩ <;> rw [heq]
    · exact hrest
    · exact .quiet rfl hrest
    · exact ih depth'

/-! ### Executions -/

namespace Config

variable {host : Host κ ω} {c d : Config κ ω} {labels : List (Label κ)}

/-- The code at which every branch goes on is guarded. -/
def LabelsGuarded (A : Store ω → MemoryAccess → Prop) (labels : List (Label κ)) : Prop :=
  ∀ l ∈ labels, Guarded A l.continuation

/-- A step from an instruction before guarded code leads to guarded code. -/
theorem guarded_of_move {code' : List (Instr κ)} {labels' : List (Label κ)} (hrest : Guarded A rest)
    (hlabels : LabelsGuarded A labels) (h : Move (instr :: rest) labels code' labels') :
    Guarded A code' ∧ LabelsGuarded A labels' := by
  cases h with
  | next => exact ⟨hrest, hlabels⟩
  | enter => exact ⟨hrest, List.forall_mem_cons.2 ⟨guarded_afterClose hrest 0, hlabels⟩⟩
  | enterElse =>
    exact ⟨guarded_afterThen hrest 0, List.forall_mem_cons.2 ⟨guarded_afterClose hrest 0, hlabels⟩⟩
  | enterLoop => exact ⟨hrest, List.forall_mem_cons.2 ⟨.quiet rfl hrest, hlabels⟩⟩
  | leave => exact ⟨hrest, (List.forall_mem_cons.1 hlabels).2⟩
  | leaveThen => exact ⟨guarded_afterClose hrest 0, (List.forall_mem_cons.1 hlabels).2⟩
  | branch hl => exact ⟨hlabels _ (List.mem_of_getElem? hl), fun l hl => hlabels l (List.mem_of_mem_drop hl)⟩

/-- The code that is left is guarded, or it is the rest of a probe and then guarded code. -/
inductive Awaits (A : Store ω → MemoryAccess → Prop) : List (Instr κ) → Machine ω → Prop
  | guarded {code m} (h : Guarded A code) : Awaits A code m
  | probe {front instr rest m m'} (hfront : Straight front) (hexec : exec front m = .ok m')
    (h : ∀ x, instr.access? m'.stack = some x → A m'.store x) (hrest : Guarded A rest) :
    Awaits A (front ++ instr :: rest) m

/-- Every access from here on is one for which `A` holds. -/
structure Watched (A : Store ω → MemoryAccess → Prop) (c : Config κ ω) : Prop where
  code : Awaits A c.code c.machine
  labels : LabelsGuarded A c.labels

/-- A machine before guarded code stands before a quiet instruction or before what is left of a probe. -/
theorem Awaits.cases {m : Machine ω} (h : Awaits A code m) :
    code = [] ∨ (∃ instr rest, code = instr :: rest ∧ instr.isAccess = false ∧ Guarded A rest) ∨
      ∃ front instr rest m', code = front ++ instr :: rest ∧ Straight front ∧ exec front m = .ok m' ∧
        (∀ x, instr.access? m'.stack = some x → A m'.store x) ∧ Guarded A rest := by
  cases h with
  | guarded h =>
    cases h with
    | nil => exact .inl rfl
    | quiet h hrest => exact .inr (.inl ⟨_, _, rfl, h, hrest⟩)
    | probe h hrest =>
      obtain ⟨m', hexec, hholds⟩ := h.holds m
      exact .inr (.inr ⟨_, _, _, m', rfl, h.straight, hexec, hholds, hrest⟩)
  | probe hfront hexec h hrest => exact .inr (.inr ⟨_, _, _, _, rfl, hfront, hexec, h, hrest⟩)

private theorem watched_of_step (hc : c.Watched A) (h : c.step host = .running d) : d.Watched A := by
  obtain ⟨code, labels, m⟩ := c
  obtain ⟨hcode, hlabels⟩ := hc
  have hmove := move_of_step h
  have hguarded : ∀ {instr rest}, code = instr :: rest → Guarded A rest → d.Watched A := by
    rintro instr rest rfl hrest
    obtain ⟨hcode', hlabels'⟩ := guarded_of_move hrest hlabels hmove
    exact ⟨.guarded hcode', hlabels'⟩
  -- outside a probe, and at its end, one instruction goes and guarded code is left
  rcases hcode.cases with heq | ⟨instr, rest, heq, -, hrest⟩ |
    ⟨front, instr, rest, m', heq, hfront, hexec, hholds, hrest⟩
  · obtain rfl : code = [] := heq
    cases hmove
  · exact hguarded heq hrest
  · cases front with
    | nil => exact hguarded heq hrest
    | cons j front =>
      -- the machine takes one instruction of the probe, and the rest of the probe is still before it
      obtain ⟨hj, hfront⟩ := List.forall_mem_cons.1 hfront
      cases happly : j.apply m with
      | error fault =>
        rw [exec, List.foldlM_cons, happly] at hexec
        cases hexec
      | ok m₁ =>
        rw [exec_cons happly] at hexec
        obtain rfl : code = j :: (front ++ instr :: rest) := heq
        rw [step_of_isData hj.1 happly] at h
        cases h
        exact ⟨.probe hfront hexec hholds hrest, hlabels⟩

private theorem watched_of_reaches (hc : c.Watched A) (h : Reaches host c d) : d.Watched A := by
  induction h with
  | refl => exact hc
  | tail _ hstep ih => exact watched_of_step ih hstep

/-- The accesses of a watched configuration are allowed. -/
theorem Watched.holds {x : MemoryAccess} (hc : c.Watched A) (hx : c.access? = some x) : A c.machine.store x := by
  obtain ⟨code, labels, m⟩ := c
  have hquiet : ∀ {instr rest}, code = instr :: rest → instr.isAccess = false → False := by
    rintro instr rest rfl hinstr
    have hnone : access? ⟨instr :: rest, labels, m⟩ = none := Instr.access?_eq_none hinstr m.stack
    rw [hnone] at hx
    cases hx
  -- only the end of a probe can be an access
  rcases hc.code.cases with heq | ⟨instr, rest, heq, hinstr, -⟩ |
    ⟨front, instr, rest, m', heq, hfront, hexec, hholds, -⟩
  · obtain rfl : code = [] := heq
    cases hx
  · exact (hquiet heq hinstr).elim
  · cases front with
    | nil =>
      cases hexec
      obtain rfl : code = instr :: rest := heq
      exact hholds x hx
    | cons j front => exact (hquiet heq (hfront j List.mem_cons_self).2).elim

end Config

/-- Guarded code makes no other accesses. -/
theorem holds_of_reaches {host : Host κ ω} {c : Config κ ω} {m : Machine ω} {x : MemoryAccess} (h : Guarded A code)
    (hreaches : Config.Reaches host ⟨code, [], m⟩ c) (hx : c.access? = some x) : A c.machine.store x :=
  (Config.watched_of_reaches ⟨.guarded h, fun _ hl => absurd hl List.not_mem_nil⟩ hreaches).holds hx

end Ia32Wasm.Wasm
