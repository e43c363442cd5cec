import Ia32Wasm.Proofs.Wasm.Machine

/-!
# Nesting of code

`nest outer depth code` follows the number of open constructs through `code`.  It exists when `code` closes nothing
that was open before it, and its branches go to constructs that it opens itself or to one of the `outer` constructs
around it; only with such constructs can it return.  A loop has to stand inside another construct, so that no branch
leads back to the first instruction.

* The end of a construct is found behind nested code (`afterClose_append`).
* Code that nests without outer constructs runs inside any other code as it runs alone (`step_within`), and
  after its first step it never comes back to its beginning (`below_of_step`).
-/

namespace Ia32Wasm.Wasm

variable {κ κ' ω : Type}

/-- The number of open constructs after an instruction. -/
def nestStep (outer depth : Nat) : Instr κ → Option Nat
  | .block | .ifThen => some (depth + 1)
  | .loop => if depth = 0 then none else some (depth + 1)
  | .close => if depth = 0 then none else some (depth - 1)
  | .orElse => if depth = 0 then none else some depth
  | .br target | .brIf target => if target < outer + depth then some depth else none
  | .ret => if outer = 0 then none else some depth
  | _ => some depth

/-- The number of open constructs after some code. -/
def nest (outer : Nat) : Nat → List (Instr κ) → Option Nat
  | depth, [] => some depth
  | depth, instr :: rest => (nestStep outer depth instr).bind fun depth => nest outer depth rest

@[simp] theorem nest_nil (outer depth : Nat) : nest outer depth ([] : List (Instr κ)) = some depth := rfl

@[simp] theorem nest_cons (outer depth : Nat) (instr : Instr κ) (rest : List (Instr κ)) :
    nest outer depth (instr :: rest) = (nestStep outer depth instr).bind fun depth => nest outer depth rest := rfl

@[simp] theorem nest_append (outer depth : Nat) (first second : List (Instr κ)) :
    nest outer depth (first ++ second) = (nest outer depth first).bind fun depth => nest outer depth second := by
  induction first generalizing depth with
  | nil => rfl
  | cons instr rest ih =>
    rw [List.cons_append, nest_cons, nest_cons, Option.bind_assoc]
    congr 1
    funext depth'
    exact ih depth'

/-- Nested code stays nested inside more constructs. -/
private theorem nest_shift {outer outer' depth depth' : Nat} (k : Nat) {code : List (Instr κ)}
    (h : nest outer depth code = some depth') (houter : outer ≤ outer') :
    nest outer' (depth + k) code = some (depth' + k) := by
  induction code generalizing depth with
  | nil =>
    rw [nest_nil, Option.some.injEq] at h
    rw [nest_nil, h]
  | cons instr rest ih =>
    rw [nest_cons, Option.bind_eq_some_iff] at h
    obtain ⟨d, hd, hrest⟩ := h
    have hstep : nestStep outer' (depth + k) instr = some (d + k) := by
      cases instr <;> simp only [nestStep] at hd ⊢ <;> grind
    rw [nest_cons, hstep]
    exact ih hrest

/-- Code that nests alone nests everywhere. -/
theorem nest_of_zero {code : List (Instr κ)} (h : nest 0 0 code = some 0) (outer depth : Nat) :
    nest outer depth code = some depth := by
  have hshift : nest outer (0 + depth) code = some (0 + depth) := nest_shift depth h (by omega)
  simpa using hshift

/-- Blocks are opened one inside the other. -/
theorem nest_replicate_block (outer depth count : Nat) :
    nest outer depth (List.replicate count (.block : Instr κ)) = some (depth + count) := by
  induction count generalizing depth with
  | zero => rfl
  | succ count ih =>
    rw [List.replicate_succ, nest_cons, nestStep, Option.bind_some, ih, Nat.add_right_comm, Nat.add_assoc]

/-! ### Ends of constructs -/

/-- The end of a construct lies behind nested code. -/
theorem afterClose_append {outer depth depth' : Nat} {code : List (Instr κ)} (rest : List (Instr κ))
    (h : nest outer depth code = some depth') : afterClose depth (code ++ rest) = afterClose depth' rest := by
  induction code generalizing depth with
  | nil =>
    rw [nest_nil, Option.some.injEq] at h
    rw [List.nil_append, h]
  | cons instr tail ih =>
    rw [nest_cons, Option.bind_eq_some_iff] at h
    obtain ⟨d, hd, htail⟩ := h
    have := ih htail
    cases instr <;> simp only [nestStep] at hd <;> cases depth <;> grind [afterClose]

/-- Code that closes a construct holds its end. -/
private theorem afterClose_spec {depth k : Nat} {code : List (Instr κ)} (h : nest 0 (k + (depth + 1)) code = some 0) :
    nest 0 k (afterClose depth code) = some 0 ∧ (afterClose depth code).length < code.length ∧
      ∀ rest, afterClose depth (code ++ rest) = afterClose depth code ++ rest := by
  induction code generalizing depth with
  | nil => simp at h
  | cons instr tail ih =>
    rw [nest_cons, Option.bind_eq_some_iff] at h
    obtain ⟨d, hd, htail⟩ := h
    -- whatever the instruction is, either it is the end that is looked for or the search goes on in the tail
    have hcases : (instr = .close ∧ depth = 0 ∧ nest 0 k tail = some 0) ∨
        ∃ e, nest 0 (k + (e + 1)) tail = some 0 ∧
          ∀ rest, afterClose depth (instr :: rest) = afterClose e rest := by
      cases instr with
      | close =>
        cases depth with
        | zero =>
          left
          simp only [nestStep] at hd
          grind
        | succ n =>
          right
          refine ⟨n, ?_, fun rest => rfl⟩
          simp only [nestStep] at hd
          grind
      | block | loop | ifThen =>
        right
        refine ⟨depth + 1, ?_, fun rest => by rw [afterClose]⟩
        simp only [nestStep] at hd
        grind
      | _ =>
        right
        refine ⟨depth, ?_, fun rest => by cases depth <;> rw [afterClose] <;> simp⟩
        simp only [nestStep] at hd
        grind
    rcases hcases with ⟨rfl, rfl, hk⟩ | ⟨e, he, hnext⟩
    · exact ⟨hk, by simp [afterClose], fun rest => rfl⟩
    · obtain ⟨h₁, h₂, h₃⟩ := ih he
      rw [hnext]
      refine ⟨h₁, by simp only [List.length_cons]; omega, fun rest => ?_⟩
      rw [List.cons_append, hnext, h₃]

/-- Code that closes a conditional holds its second part or its end. -/
private theorem afterThen_spec {depth k : Nat} {code : List (Instr κ)} (h : nest 0 (k + (depth + 1)) code = some 0) :
    nest 0 (k + 1) (afterThen depth code) = some 0 ∧ (afterThen depth code).length ≤ code.length ∧
      ∀ rest, afterThen depth (code ++ rest) = afterThen depth code ++ rest := by
  induction code generalizing depth with
  | nil => simp at h
  | cons instr tail ih =>
    have hall := h
    rw [nest_cons, Option.bind_eq_some_iff] at h
    obtain ⟨d, hd, htail⟩ := h
    have hcases : (instr = .close ∧ depth = 0) ∨ (instr = .orElse ∧ depth = 0 ∧ nest 0 (k + 1) tail = some 0) ∨
        ∃ e, nest 0 (k + (e + 1)) tail = some 0 ∧
          ∀ rest, afterThen depth (instr :: rest) = afterThen e rest := by
      cases instr with
      | close =>
        cases depth with
        | zero => exact .inl ⟨rfl, rfl⟩
        | succ n =>
          refine .inr (.inr ⟨n, ?_, fun rest => rfl⟩)
          simp only [nestStep] at hd
          grind
      | orElse =>
        cases depth with
        | zero =>
          refine .inr (.inl ⟨rfl, rfl, ?_⟩)
          simp only [nestStep] at hd
          grind
        | succ n =>
          refine .inr (.inr ⟨n + 1, ?_, fun rest => rfl⟩)
          simp only [nestStep] at hd
          grind
      | block | loop | ifThen =>
        refine .inr (.inr ⟨depth + 1, ?_, fun rest => by rw [afterThen]⟩)
        simp only [nestStep] at hd
        grind
      | _ =>
        refine .inr (.inr ⟨depth, ?_, fun rest => by cases depth <;> rw [afterThen] <;> simp⟩)
        simp only [nestStep] at hd
        grind
    rcases hcases with ⟨rfl, rfl⟩ | ⟨rfl, rfl, hk⟩ | ⟨e, he, hnext⟩
    · exact ⟨hall, by simp [afterThen], fun rest => rfl⟩
    · exact ⟨hk, by simp [afterThen], fun rest => rfl⟩
    · obtain ⟨h₁, h₂, h₃⟩ := ih he
      rw [hnext]
      refine ⟨h₁, by simp only [List.length_cons]; omega, fun rest => ?_⟩
      rw [List.cons_append, hnext, h₃]

/-! ### Code inside other code -/

/-- A label with more code after its continuation. -/
def Label.extend (rest : List (Instr κ)) (l : Label κ) : Label κ := ⟨l.continuation ++ rest, l.height⟩

/-- The continuation of each label nests in the constructs around it. -/
def LabelsEnclosed : List (Label κ) → Prop
  | [] => True
  | l :: labels => nest 0 labels.length l.continuation = some 0 ∧ LabelsEnclosed labels

namespace Config

/-- The configuration with more code after it and more constructs around it. -/
def within (c : Config κ ω) (rest : List (Instr κ)) (outer : List (Label κ)) : Config κ ω :=
  ⟨c.code ++ rest, c.labels.map (Label.extend rest) ++ outer, c.machine⟩

/-- The code that is left closes what is open, and branches go to no construct around it. -/
def Enclosed (c : Config κ ω) : Prop := nest 0 c.labels.length c.code = some 0 ∧ LabelsEnclosed c.labels

/-- Less than `bound` instructions are left, also after any branch. -/
def Below (c : Config κ ω) (bound : Nat) : Prop :=
  c.code.length < bound ∧ ∀ l ∈ c.labels, l.continuation.length < bound

end Config

/-- The status with more code after it and more constructs around it. -/
def Status.within (rest : List (Instr κ)) (outer : List (Label κ)) : Status κ ω → Status κ ω
  | .running c => .running (c.within rest outer)
  | .returned store => .returned store
  | .stopped fault => .stopped fault

private theorem labelsEnclosed_get {labels : List (Label κ)} (h : LabelsEnclosed labels) {depth : Nat} {l : Label κ}
    (hl : labels[depth]? = some l) :
    nest 0 (labels.drop (depth + 1)).length l.continuation = some 0 ∧ LabelsEnclosed (labels.drop (depth + 1)) := by
  induction labels generalizing depth with
  | nil => simp at hl
  | cons first labels ih =>
    cases depth with
    | zero =>
      rw [List.getElem?_cons_zero, Option.some.injEq] at hl
      subst hl
      exact h
    | succ n =>
      rw [List.getElem?_cons_succ] at hl
      exact ih h.2 hl

namespace Config

variable {c d : Config κ ω} {rest : List (Instr κ)} {outer : List (Label κ)} {host : Host κ ω}

/-- At the end of the code no construct is open. -/
theorem labels_eq_nil_of_enclosed (hc : c.Enclosed) (h : c.code = []) : c.labels = [] := by
  have := hc.1
  rw [h, nest_nil, Option.some.injEq] at this
  exact List.length_eq_zero_iff.1 this

private theorem branch_within (stack : List Value) {depth : Nat} (h : depth < c.labels.length) :
    (c.within rest outer).branch stack depth = (c.branch stack depth).within rest outer := by
  have hget : (c.within rest outer).labels[depth]? = some (c.labels[depth].extend rest) := by
    simp [within, List.getElem?_append_left, h]
  have hdrop : (c.within rest outer).labels.drop (depth + 1) =
      (c.labels.drop (depth + 1)).map (Label.extend rest) ++ outer := by
    rw [within, List.drop_append_of_le_length (by simp; omega), List.map_drop]
  rw [branch, branch, hget, List.getElem?_eq_getElem h, hdrop]
  rfl

private theorem leave_within {code : List (Instr κ)} (h : 0 < c.labels.length) :
    (c.within rest outer).leave (code ++ rest) = (c.leave code).within rest outer := by
  obtain ⟨first, labels, heq⟩ := List.exists_cons_of_length_pos h
  rw [leave, leave, within, heq]
  rfl

/-- The ways in which code and labels change in a step: on to the next instruction, into a construct, out of the
innermost one, or by a branch. -/
inductive Move : List (Instr κ) → List (Label κ) → List (Instr κ) → List (Label κ) → Prop
  | next {instr tail labels} (h : ∀ depth, nestStep 0 depth instr = some depth ∨ nestStep 0 depth instr = none) :
    Move (instr :: tail) labels tail labels
  | enter {instr tail labels height} (h : instr = .block ∨ instr = .ifThen) :
    Move (instr :: tail) labels tail (⟨afterClose 0 tail, height⟩ :: labels)
  | enterElse {tail labels height} :
    Move (.ifThen :: tail) labels (afterThen 0 tail) (⟨afterClose 0 tail, height⟩ :: labels)
  | enterLoop {tail labels height} : Move (.loop :: tail) labels tail (⟨.loop :: tail, height⟩ :: labels)
  | leave {tail l labels} : Move (.close :: tail) (l :: labels) tail labels
  | leaveThen {tail l labels} : Move (.orElse :: tail) (l :: labels) (afterClose 0 tail) labels
  | branch {instr tail labels depth l} (h : labels[depth]? = some l) :
    Move (instr :: tail) labels l.continuation (labels.drop (depth + 1))

private theorem branch_eq_running {stack : List Value} {depth : Nat} (h : c.branch stack depth = .running d) :
    ∃ l, c.labels[depth]? = some l ∧ d.code = l.continuation ∧ d.labels = c.labels.drop (depth + 1) := by
  unfold branch at h
  split at h
  · rename_i l hl
    rw [Status.running.injEq] at h
    subst h
    exact ⟨l, hl, rfl, rfl⟩
  · split at h <;> cases h

private theorem leave_eq_running {code : List (Instr κ)} (h : c.leave code = .running d) :
    ∃ l, c.labels = l :: d.labels ∧ d.code = code := by
  unfold leave at h
  split at h
  · rename_i l labels hl
    rw [Status.running.injEq] at h
    subst h
    exact ⟨l, hl, rfl⟩
  · cases h

/-- A step goes on in the code or branches to a label. -/
theorem move_of_step (h : c.step host = .running d) : Move c.code c.labels d.code d.labels := by
  obtain ⟨code, labels, m⟩ := c
  cases code with
  | nil =>
    simp only [step] at h
    split at h <;> cases h
  | cons instr tail =>
    cases instr with
    | block | loop =>
      simp only [step, Status.running.injEq] at h
      subst h
      first
        | exact .enter (.inl rfl)
        | exact .enterLoop
    | ifThen =>
      simp only [step] at h
      split at h
      · rw [Status.running.injEq] at h
        subst h
        simp only [enter]
        split
        · exact .enterElse
        · exact .enter (.inr rfl)
      · cases h
    | orElse =>
      obtain ⟨l, hl, hcode⟩ := leave_eq_running h
      simp only at hl ⊢
      rw [hl, hcode]
      exact .leaveThen
    | close =>
      obtain ⟨l, hl, hcode⟩ := leave_eq_running h
      simp only at hl ⊢
      rw [hl, hcode]
      exact .leave
    | br depth =>
      obtain ⟨l, hl, hcode, hlabels⟩ := branch_eq_running h
      rw [hcode, hlabels]
      exact .branch hl
    | brIf depth =>
      simp only [step] at h
      split at h
      · split at h
        · rw [Status.running.injEq] at h
          subst h
          refine .next fun n => ?_
          simp only [nestStep]
          split <;> simp
        · obtain ⟨l, hl, hcode, hlabels⟩ := branch_eq_running h
          rw [hcode, hlabels]
          exact .branch hl
      · cases h
    | ret => simp [step] at h
    | _ =>
      simp only [step] at h
      split at h
      · rw [Status.running.injEq] at h
        subst h
        exact .next fun n => .inl rfl
      · cases h

/-- Enclosed code stays enclosed. -/
theorem enclosed_of_step (hc : c.Enclosed) (h : c.step host = .running d) : d.Enclosed := by
  obtain ⟨hcode, hlabels⟩ := hc
  have hmove := move_of_step h
  obtain ⟨code, labels, m⟩ := c
  obtain ⟨code', labels', m'⟩ := d
  simp only [Enclosed] at hcode hlabels hmove ⊢
  cases hmove with
  | next hinstr =>
    rw [nest_cons, Option.bind_eq_some_iff] at hcode
    obtain ⟨depth, hdepth, htail⟩ := hcode
    refine ⟨?_, hlabels⟩
    rcases hinstr labels.length with hi | hi <;> grind
  | enter hinstr =>
    have htail : nest 0 (labels.length + 1) code' = some 0 := by
      rcases hinstr with rfl | rfl <;> exact hcode
    exact ⟨htail, (afterClose_spec htail).1, hlabels⟩
  | enterElse => exact ⟨(afterThen_spec hcode).1, (afterClose_spec hcode).1, hlabels⟩
  | enterLoop =>
    refine ⟨?_, hcode, hlabels⟩
    rw [nest_cons, Option.bind_eq_some_iff] at hcode
    obtain ⟨depth, hdepth, htail⟩ := hcode
    simp only [nestStep] at hdepth
    split at hdepth
    · cases hdepth
    · cases hdepth
      exact htail
  | leave => exact ⟨hcode, hlabels.2⟩
  | leaveThen => exact ⟨(afterClose_spec hcode).1, hlabels.2⟩
  | branch hl => exact labelsEnclosed_get hlabels hl

/-- Execution of enclosed code stays below a bound. -/
theorem below_of_below {bound : Nat} (hc : c.Enclosed) (hb : c.Below bound) (h : c.step host = .running d) :
    d.Below bound := by
  obtain ⟨hcode, hlabels⟩ := hb
  have hnest := hc.1
  have hmove := move_of_step h
  obtain ⟨code, labels, m⟩ := c
  obtain ⟨code', labels', m'⟩ := d
  simp only [Below] at hcode hlabels hnest hmove ⊢
  cases hmove with
  | next => exact ⟨by simp only [List.length_cons] at hcode; omega, hlabels⟩
  | enter hinstr =>
    have htail : nest 0 (labels.length + 1) code' = some 0 := by
      rcases hinstr with rfl | rfl <;> exact hnest
    have := (afterClose_spec htail).2.1
    simp only [List.length_cons] at hcode
    refine ⟨by omega, fun l hl => ?_⟩
    rcases List.mem_cons.1 hl with rfl | hl
    · show (afterClose 0 code').length < bound
      omega
    · exact hlabels l hl
  | @enterElse tail _ height =>
    have h₁ := (afterThen_spec hnest).2.1
    have h₂ := (afterClose_spec hnest).2.1
    simp only [List.length_cons] at hcode
    refine ⟨by omega, fun l hl => ?_⟩
    rcases List.mem_cons.1 hl with rfl | hl
    · show (afterClose 0 tail).length < bound
      omega
    · exact hlabels l hl
  | enterLoop =>
    refine ⟨by simp only [List.length_cons] at hcode; omega, fun l hl => ?_⟩
    rcases List.mem_cons.1 hl with rfl | hl
    · exact hcode
    · exact hlabels l hl
  | leave =>
    exact ⟨by simp only [List.length_cons] at hcode; omega, fun l hl => hlabels l (List.mem_cons_of_mem _ hl)⟩
  | @leaveThen tail l =>
    have htail : nest 0 (labels'.length + 1) tail = some 0 := hnest
    have := (afterClose_spec htail).2.1
    simp only [List.length_cons] at hcode
    exact ⟨by omega, fun l hl => hlabels l (List.mem_cons_of_mem _ hl)⟩
  | branch hl =>
    exact ⟨hlabels _ (List.mem_of_getElem? hl), fun l hl => hlabels l (List.mem_of_mem_drop hl)⟩

/-- After its first step, enclosed code never comes back to its beginning: what could lead back is a loop at the
beginning, and such a loop does not nest. -/
theorem below_of_step (hc : c.Enclosed) (hl : c.labels = []) (h : c.step host = .running d) :
    d.Below c.code.length := by
  have hnest := hc.1
  have hmove := move_of_step h
  obtain ⟨code, labels, m⟩ := c
  obtain ⟨code', labels', m'⟩ := d
  simp only at hl hnest hmove
  subst hl
  simp only [Below]
  cases hmove with
  | next => simp
  | enter hinstr =>
    have htail : nest 0 (0 + 1) code' = some 0 := by
      rcases hinstr with rfl | rfl <;> exact hnest
    have := (afterClose_spec htail).2.1
    simp only [List.length_cons, List.mem_singleton, forall_eq]
    omega
  | enterElse =>
    have h₁ := (afterThen_spec hnest).2.1
    have h₂ := (afterClose_spec hnest).2.1
    simp only [List.length_cons, List.mem_singleton, forall_eq]
    omega
  | enterLoop => simp [nestStep] at hnest
  | branch hl => simp at hl

/-- Enclosed code makes the same steps inside other code as alone. -/
theorem step_within (hc : c.Enclosed) (hne : c.code ≠ []) :
    (c.within rest outer).step host = (c.step host).within rest outer := by
  obtain ⟨code, labels, m⟩ := c
  have hnest := hc.1
  simp only at hne hnest
  cases code with
  | nil => exact absurd rfl hne
  | cons instr tail =>
    rw [nest_cons, Option.bind_eq_some_iff] at hnest
    obtain ⟨depth, hdepth, htail⟩ := hnest
    cases instr with
    | block =>
      cases hdepth
      show Status.running (Config.enter _ m.stack (tail ++ rest) (afterClose 0 (tail ++ rest))) = _
      rw [(afterClose_spec htail).2.2]
      rfl
    | loop => rfl
    | ifThen =>
      cases hdepth
      have hthen := (afterThen_spec htail).2.2 rest
      have hclose := (afterClose_spec htail).2.2 rest
      simp only [step, within, List.cons_append, hclose, hthen]
      split
      · split <;> rfl
      · rfl
    | orElse =>
      simp only [nestStep] at hdepth
      split at hdepth
      · cases hdepth
      · cases hdepth
        rename_i hpos
        obtain ⟨k, hk⟩ : ∃ k, labels.length = k + 1 := ⟨labels.length - 1, by omega⟩
        rw [hk] at htail
        show Config.leave _ (afterClose 0 (tail ++ rest)) = _
        rw [(afterClose_spec htail).2.2]
        exact leave_within (by show 0 < labels.length; omega)
    | close =>
      simp only [nestStep] at hdepth
      split at hdepth
      · cases hdepth
      · exact leave_within (by show 0 < labels.length; omega)
    | br target =>
      simp only [nestStep] at hdepth
      split at hdepth
      · exact branch_within m.stack (by show target < labels.length; omega)
      · cases hdepth
    | brIf target =>
      simp only [nestStep] at hdepth
      split at hdepth
      · rename_i ht
        have hbranch : ∀ stack, Config.branch
          (Config.within ⟨.brIf target :: tail, labels, m⟩ rest outer) stack target =
            (Config.branch ⟨.brIf target :: tail, labels, m⟩ stack target).within rest outer :=
          fun stack => branch_within stack (by show target < labels.length; omega)
        simp only [step, within, List.cons_append] at hbranch ⊢
        split
        · split
          · rfl
          · exact hbranch _
        · rfl
      · cases hdepth
    | ret => rfl
    | _ =>
      simp only [step, within, List.cons_append]
      split <;> rfl

/-- Enclosed code does not return before its end. -/
theorem step_ne_returned (hc : c.Enclosed) (hne : c.code ≠ []) (store : Store ω) : c.step host ≠ .returned store := by
  obtain ⟨code, labels, m⟩ := c
  have hnest := hc.1
  simp only at hne hnest
  have hbranch : ∀ (c : Config κ ω) (stack : List Value) (depth : Nat), depth < c.labels.length →
      c.branch stack depth ≠ .returned store := by
    intro c stack depth hd
    rw [branch, List.getElem?_eq_getElem hd]
    simp
  cases code with
  | nil => exact absurd rfl hne
  | cons instr tail =>
    rw [nest_cons, Option.bind_eq_some_iff] at hnest
    obtain ⟨depth, hdepth, -⟩ := hnest
    cases instr with
    | br target =>
      simp only [nestStep] at hdepth
      split at hdepth
      · exact hbranch _ _ _ (by show target < labels.length; omega)
      · cases hdepth
    | brIf target =>
      simp only [nestStep] at hdepth
      split at hdepth
      · simp only [step]
        split
        · split
          · simp
          · exact hbranch _ _ _ (by show target < labels.length; omega)
        · simp
      · cases hdepth
    | ret => simp [nestStep] at hdepth
    | orElse | close =>
      simp only [step, leave]
      split <;> simp
    | block | loop => simp [step]
    | _ =>
      simp only [step]
      split <;> simp

end Config

end Ia32Wasm.Wasm
