import Ia32Wasm.Proofs.Wasm.Trace

/-!
# Execution of linked code

Code that calls functions by other names, under a host that knows them by these, executes as before: it passes the
same marks and returns the same store (`passes_mapCallee_iff`).
-/

namespace Ia32Wasm.Wasm

variable {κ κ' ω : Type} (f : κ → κ')

/-- The label with the callees of its continuation replaced. -/
def Label.mapCallee (l : Label κ) : Label κ' := ⟨l.continuation.map (Instr.mapCallee f), l.height⟩

/-- The configuration with its callees replaced. -/
def Config.mapCallee (c : Config κ ω) : Config κ' ω :=
  ⟨c.code.map (Instr.mapCallee f), c.labels.map (Label.mapCallee f), c.machine⟩

/-- The status with its callees replaced. -/
def Status.mapCallee : Status κ ω → Status κ' ω
  | .running c => .running (c.mapCallee f)
  | .returned store => .returned store
  | .stopped fault => .stopped fault

theorem afterClose_map (depth : Nat) (code : List (Instr κ)) :
    afterClose depth (code.map (Instr.mapCallee f)) = (afterClose depth code).map (Instr.mapCallee f) := by
  induction code generalizing depth with
  | nil => simp [afterClose]
  | cons instr rest ih => cases instr <;> cases depth <;> simp [afterClose, Instr.mapCallee, ih]

private theorem afterThen_map (depth : Nat) (code : List (Instr κ)) :
    afterThen depth (code.map (Instr.mapCallee f)) = (afterThen depth code).map (Instr.mapCallee f) := by
  induction code generalizing depth with
  | nil => simp [afterThen]
  | cons instr rest ih => cases instr <;> cases depth <;> simp [afterThen, Instr.mapCallee, ih]

private theorem leave_mapCallee (c : Config κ ω) (code : List (Instr κ)) :
    (c.mapCallee f).leave (code.map (Instr.mapCallee f)) = (c.leave code).mapCallee f := by
  obtain ⟨own, labels, m⟩ := c
  cases labels <;> rfl

private theorem branch_mapCallee (c : Config κ ω) (stack : List Value) (depth : Nat) :
    (c.mapCallee f).branch stack depth = (c.branch stack depth).mapCallee f := by
  obtain ⟨own, labels, m⟩ := c
  simp only [Config.branch, Config.mapCallee, List.getElem?_map, List.length_map]
  cases hl : labels[depth]? with
  | none =>
    simp only [Option.map_none]
    split <;> rfl
  | some l =>
    simp only [Option.map_some, Status.mapCallee, Config.mapCallee, List.map_drop]
    rfl

/-- A step does not depend on how functions are named. -/
private theorem step_mapCallee (host : Host κ' ω) (c : Config κ ω) :
    (c.mapCallee f).step host = (c.step fun callee => host (f callee)).mapCallee f := by
  obtain ⟨code, labels, m⟩ := c
  cases code with
  | nil => cases labels <;> rfl
  | cons instr rest =>
    have hleave := leave_mapCallee f (⟨instr :: rest, labels, m⟩ : Config κ ω)
    have hbranch := branch_mapCallee f (⟨instr :: rest, labels, m⟩ : Config κ ω)
    have hclose := afterClose_map f 0 rest
    have hthen := afterThen_map f 0 rest
    cases instr with
    | block =>
      simp only [Config.step, Config.mapCallee, List.map_cons, Instr.mapCallee, hclose]
      rfl
    | loop => rfl
    | ifThen =>
      simp only [Config.step, Config.mapCallee, List.map_cons, Instr.mapCallee, hclose, hthen]
      split
      · split <;> rfl
      · rfl
    | orElse =>
      show Config.leave _ (afterClose 0 (rest.map (Instr.mapCallee f))) = _
      rw [hclose]
      exact hleave _
    | close => exact hleave rest
    | br depth => exact hbranch m.stack depth
    | brIf depth =>
      simp only [Config.step, Config.mapCallee, List.map_cons, Instr.mapCallee] at hbranch ⊢
      split
      · split
        · rfl
        · exact hbranch _ _
      · rfl
    | ret | unreachable | localGet | globalGet | i32Const | i64Const => rfl
    | _ =>
      simp only [Config.step, Config.mapCallee, List.map_cons, Instr.mapCallee, Instr.apply]
      split <;> rfl

variable {f} {mark : Nat → List Nat} {host : Host κ' ω} {c : Config κ ω} {seen : List Nat} {result : Option (Store ω)}

private theorem length_code_mapCallee : (c.mapCallee f).code.length = c.code.length := by
  simp [Config.mapCallee]

private theorem step_mapCallee_running {d : Config κ' ω} (h : (c.mapCallee f).step host = .running d) :
    ∃ e, (c.step fun callee => host (f callee)) = .running e ∧ d = e.mapCallee f := by
  rw [step_mapCallee] at h
  cases hs : c.step fun callee => host (f callee) with
  | running e =>
    rw [hs] at h
    exact ⟨e, rfl, (Status.running.inj h).symm⟩
  | returned store => rw [hs] at h; cases h
  | stopped fault => rw [hs] at h; cases h

/-- What an execution passes does not depend on how functions are named. -/
theorem passes_mapCallee_iff : Passes mark host (c.mapCallee f) seen result ↔
    Passes mark (fun callee => host (f callee)) c seen result := by
  constructor
  · intro h
    generalize hx : c.mapCallee f = x at h
    induction h generalizing c with
    | pause => exact .pause
    | glimpse hs hpre =>
      subst hx
      obtain ⟨e, he, rfl⟩ := step_mapCallee_running hs
      rw [length_code_mapCallee] at hpre
      exact .glimpse he hpre
    | finish hs =>
      subst hx
      rw [step_mapCallee] at hs
      cases hs' : c.step fun callee => host (f callee) with
      | running e => rw [hs'] at hs; cases hs
      | returned store =>
        rw [hs'] at hs
        cases hs
        exact .finish hs'
      | stopped fault => rw [hs'] at hs; cases hs
    | step hs hp ih =>
      subst hx
      obtain ⟨e, he, rfl⟩ := step_mapCallee_running hs
      rw [length_code_mapCallee]
      exact .step he (ih rfl)
  · intro h
    induction h with
    | pause => exact .pause
    | @glimpse c d seen hs hpre =>
      have hs' : (c.mapCallee f).step host = .running (d.mapCallee f) := by rw [step_mapCallee, hs]; rfl
      exact .glimpse hs' (by rwa [length_code_mapCallee])
    | @finish c store hs => exact .finish (by rw [step_mapCallee, hs]; rfl)
    | @step c d seen result hs hp ih =>
      have hs' : (c.mapCallee f).step host = .running (d.mapCallee f) := by rw [step_mapCallee, hs]; rfl
      have hpass := Passes.step hs' ih
      rwa [length_code_mapCallee] at hpass

end Ia32Wasm.Wasm
