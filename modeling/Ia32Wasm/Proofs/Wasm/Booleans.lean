import Ia32Wasm.Proofs.Wasm.Trace

/-!
# Boolean globals

Some globals are to hold nothing but truth values.  A check of the code alone can tell that they do: it follows which
operands are known to be truth values, forgets them wherever control may come from somewhere else, and asks for such
an operand in front of each write to one of these globals.

* `keeps` is the check.  It goes through pieces one after the other (`keeps_append`), and what is known about operands
  can only help (`keeps_mono`).
* What it knows is so: `Instr.sound_of_apply` for one instruction and `Config.sound_of_step` for one step, whatever
  the step, provided that a call leaves the globals boolean.
* Then the globals are boolean in all of an execution (`Config.boolean_of_reaches`), and up to its first call they are
  so whatever the imported functions do (`Config.boolean_of_reachesAlone`).
-/

namespace Ia32Wasm.Wasm

variable {κ κ' ω : Type} {bools : Nat → Bool}

/-! ### Truth values -/

/-- The word is a truth value. -/
def IsTruth (w : UInt32) : Prop := w = 0 ∨ w = 1

/-- The operand is a truth value. -/
def Value.IsTruth : Value → Prop
  | .i32 w => Wasm.IsTruth w
  | .i64 _ => False

private theorem isTruth_ofBool (b : Bool) : (Value.ofBool b).IsTruth := by
  cases b
  · exact .inl rfl
  · exact .inr rfl

private theorem IsTruth.and_right (a : UInt32) {b : UInt32} (hb : IsTruth b) : IsTruth (a &&& b) := by
  rcases hb with rfl | rfl
  · exact .inl UInt32.and_zero
  · have hbit : (a &&& 1).toNat = a.toNat % 2 := by
      rw [UInt32.toNat_and]
      exact Nat.and_one_is_mod a.toNat
    rcases Nat.mod_two_eq_zero_or_one a.toNat with h | h
    · exact .inl (UInt32.toNat_inj.1 (hbit.trans h))
    · exact .inr (UInt32.toNat_inj.1 (hbit.trans h))

private theorem IsTruth.and_left {a : UInt32} (ha : IsTruth a) (b : UInt32) : IsTruth (a &&& b) := by
  rw [UInt32.and_comm]
  exact ha.and_right b

theorem IsTruth.or {a b : UInt32} (ha : IsTruth a) (hb : IsTruth b) : IsTruth (a ||| b) := by
  rcases ha with rfl | rfl <;> rcases hb with rfl | rfl
  · exact .inl rfl
  all_goals exact .inr rfl

theorem IsTruth.xor {a b : UInt32} (ha : IsTruth a) (hb : IsTruth b) : IsTruth (a ^^^ b) := by
  rcases ha with rfl | rfl <;> rcases hb with rfl | rfl
  · exact .inl rfl
  · exact .inr rfl
  · exact .inr rfl
  · exact .inl rfl

/-- The chosen globals hold truth values. -/
def Store.Boolean (bools : Nat → Bool) (s : Store ω) : Prop := ∀ index, bools index = true → IsTruth (s.globals index)

/-! ### The check -/

/-- The number of operands of a numeric instruction. -/
def Numeric.arity : Numeric → Nat
  | .i32Eqz | .i32Popcnt | .i32WrapI64 | .i64ExtendI32S | .i64ExtendI32U | .i32Extend8S | .i32Extend16S => 1
  | _ => 2

/-- The result is a truth value when the operands that are said to be truth values are. -/
def Numeric.yieldsTruth (top below : Bool) : Numeric → Bool
  | .i32Eqz | .i32Eq | .i32Ne | .i32LtU | .i64Ne | .i64LtU => true
  | .i32And => top || below
  | .i32Or | .i32Xor => top && below
  | _ => false

/-- What is known about operands, by their distance from the top, with one more on top. -/
def onTop (b : Bool) (known : Nat → Bool) : Nat → Bool
  | 0 => b
  | n + 1 => known n

/-- What is known about operands after an instruction that neither branches nor calls. -/
def Instr.truths (bools known : Nat → Bool) : Instr κ → Nat → Bool
  | .i32Const v => onTop (v == 0 || v == 1) known
  | .i64Const _ | .localGet _ => onTop false known
  | .globalGet index => onTop (bools index) known
  | .localSet _ | .globalSet _ => fun n => known (n + 1)
  | .load _ => onTop false fun n => known (n + 1)
  | .store _ => fun n => known (n + 2)
  | .select => onTop false fun n => known (n + 3)
  | .op o => onTop (o.yieldsTruth (known 0) (known 1)) fun n => known (n + o.arity)
  | _ => fun _ => false

/-- A write to one of the chosen globals writes an operand that is known to be a truth value. -/
def Instr.writesTruth (bools known : Nat → Bool) : Instr κ → Bool
  | .globalSet index => !bools index || known 0
  | _ => true

/-- The code writes nothing but truth values to the chosen globals, given what is known about operands before it. -/
def keeps (bools : Nat → Bool) : (Nat → Bool) → List (Instr κ) → Bool
  | _, [] => true
  | known, instr :: rest =>
    instr.writesTruth bools known &&
      keeps bools (if instr.isData then instr.truths bools known else fun _ => false) rest

/-- The code keeps the chosen globals boolean wherever it stands. -/
def Keeps (bools : Nat → Bool) (code : List (Instr κ)) : Prop := keeps bools (fun _ => false) code = true

instance (code : List (Instr κ)) : Decidable (Keeps bools code) :=
  inferInstanceAs (Decidable (keeps bools (fun _ => false) code = true))

variable {known known' : Nat → Bool} {code first second rest : List (Instr κ)} {instr : Instr κ}

private theorem keeps_cons_iff : keeps bools known (instr :: rest) = true ↔ instr.writesTruth bools known = true ∧
    keeps bools (if instr.isData then instr.truths bools known else fun _ => false) rest = true := by
  rw [keeps, Bool.and_eq_true]

private theorem onTop_mono {b b' : Bool} (hb : b = true → b' = true) (h : ∀ n, known n = true → known' n = true) :
    ∀ n, onTop b known n = true → onTop b' known' n = true
  | 0 => hb
  | n + 1 => h n

private theorem yieldsTruth_mono {top top' below below' : Bool} (o : Numeric) (htop : top = true → top' = true)
    (hbelow : below = true → below' = true) (h : o.yieldsTruth top below = true) :
    o.yieldsTruth top' below' = true := by
  cases o with
  | i32And =>
    rcases Bool.or_eq_true_iff.1 h with h | h
    · exact Bool.or_eq_true_iff.2 (.inl (htop h))
    · exact Bool.or_eq_true_iff.2 (.inr (hbelow h))
  | i32Or | i32Xor =>
    obtain ⟨h, h'⟩ := Bool.and_eq_true_iff.1 h
    exact Bool.and_eq_true_iff.2 ⟨htop h, hbelow h'⟩
  | _ => exact h

private theorem truths_mono (instr : Instr κ) (h : ∀ n, known n = true → known' n = true) :
    ∀ n, instr.truths bools known n = true → instr.truths bools known' n = true := by
  cases instr with
  | i32Const | i64Const | localGet | globalGet => exact onTop_mono id h
  | localSet | globalSet => exact fun n => h (n + 1)
  | load => exact onTop_mono id fun n => h (n + 1)
  | store => exact fun n => h (n + 2)
  | select => exact onTop_mono id fun n => h (n + 3)
  | op o => exact onTop_mono (yieldsTruth_mono o (h 0) (h 1)) fun n => h (n + o.arity)
  | _ => exact fun _ => id

private theorem writesTruth_mono (h : ∀ n, known n = true → known' n = true)
    (hwrites : instr.writesTruth bools known = true) : instr.writesTruth bools known' = true := by
  cases instr with
  | globalSet index =>
    rcases Bool.or_eq_true_iff.1 hwrites with hother | htop
    · exact Bool.or_eq_true_iff.2 (.inl hother)
    · exact Bool.or_eq_true_iff.2 (.inr (h 0 htop))
  | _ => rfl

/-- Code that passes the check passes it also when more is known. -/
theorem keeps_mono (h : ∀ n, known n = true → known' n = true) (hcode : keeps bools known code = true) :
    keeps bools known' code = true := by
  induction code generalizing known known' with
  | nil => rfl
  | cons instr rest ih =>
    obtain ⟨hwrites, hrest⟩ := keeps_cons_iff.1 hcode
    refine keeps_cons_iff.2 ⟨writesTruth_mono h hwrites, ih ?_ hrest⟩
    split
    · exact truths_mono instr h
    · exact fun _ => id

private theorem keeps_of_keeps (h : Keeps bools code) : keeps bools known code = true :=
  keeps_mono (fun _ hn => by cases hn) h

/-- Code behind other code keeps truth values if both do. -/
theorem keeps_append (hfirst : keeps bools known first = true) (hsecond : Keeps bools second) :
    keeps bools known (first ++ second) = true := by
  induction first generalizing known with
  | nil => exact keeps_of_keeps hsecond
  | cons instr rest ih =>
    obtain ⟨hwrites, hrest⟩ := keeps_cons_iff.1 hfirst
    exact keeps_cons_iff.2 ⟨hwrites, ih hrest⟩

/-- Code that passes the check passes it also when its calls go elsewhere. -/
theorem keeps_map (f : κ → κ') (known : Nat → Bool) (code : List (Instr κ)) :
    keeps bools known (code.map (Instr.mapCallee f)) = keeps bools known code := by
  induction code generalizing known with
  | nil => rfl
  | cons instr rest ih =>
    rw [List.map_cons, keeps, keeps, ih]
    cases instr <;> rfl

/-- Code that does not write the chosen globals passes the check. -/
theorem keeps_of_spares (h : ∀ index, .globalSet index ∈ code → bools index = false) :
    keeps bools known code = true := by
  induction code generalizing known with
  | nil => rfl
  | cons instr rest ih =>
    refine keeps_cons_iff.2 ⟨?_, ih fun index hi => h index (List.mem_cons_of_mem _ hi)⟩
    cases instr with
    | globalSet index => exact Bool.or_eq_true_iff.2 (.inl (by rw [h index List.mem_cons_self]; rfl))
    | _ => rfl

/-! ### Continuations -/

/-- After the end of a construct nothing is known, and so the code there passes the check by itself. -/
private theorem keeps_afterClose (depth : Nat) (h : keeps bools known code = true) :
    Keeps bools (afterClose depth code) := by
  fun_induction afterClose depth code generalizing known with
  | case1 => rfl
  | case5 rest => exact (keeps_cons_iff.1 h).2
  | _ =>
    rename_i ih
    exact ih (keeps_cons_iff.1 h).2

private theorem keeps_afterThen (depth : Nat) (h : keeps bools known code = true) :
    Keeps bools (afterThen depth code) := by
  fun_induction afterThen depth code generalizing known with
  | case1 => rfl
  | case5 rest => exact keeps_cons_iff.2 (keeps_cons_iff.1 h)
  | case7 rest => exact (keeps_cons_iff.1 h).2
  | _ =>
    rename_i ih
    exact ih (keeps_cons_iff.1 h).2

/-! ### Operands -/

variable {stack stack' : List Value} {m m' : Machine ω}

/-- The operands that are known to be truth values are. -/
def Describes (known : Nat → Bool) (stack : List Value) : Prop :=
  ∀ n v, known n = true → stack[n]? = some v → v.IsTruth

private theorem describes_nothing (stack : List Value) : Describes (fun _ => false) stack := fun _ _ h => by cases h

private theorem Describes.onTop {b : Bool} {v : Value} (h : Describes known stack) (hv : b = true → v.IsTruth) :
    Describes (onTop b known) (v :: stack) := by
  intro n w hn hw
  cases n with
  | zero =>
    obtain rfl := Option.some.inj hw
    exact hv hn
  | succ n => exact h n w hn hw

theorem Describes.unknown (h : Describes known stack) (v : Value) : Describes (Wasm.onTop false known) (v :: stack) :=
  h.onTop fun hfalse => by cases hfalse

/-- What is known of a stack is known of its rest. -/
theorem Describes.drop (h : Describes known stack) (k : Nat) :
    Describes (fun n => known (n + k)) (stack.drop k) := by
  intro n v hn hv
  rw [List.getElem?_drop, Nat.add_comm] at hv
  exact h (n + k) v hn hv

section Numeric

private theorem unary32_ok {f : UInt32 → Value} (h : unary32 f stack = .ok stack') :
    ∃ a rest, stack = .i32 a :: rest ∧ stack' = f a :: rest := by
  unfold unary32 at h
  split at h
  · cases h
    exact ⟨_, _, rfl, rfl⟩
  · cases h

private theorem unary64_ok {f : UInt64 → Value} (h : unary64 f stack = .ok stack') :
    ∃ a rest, stack = .i64 a :: rest ∧ stack' = f a :: rest := by
  unfold unary64 at h
  split at h
  · cases h
    exact ⟨_, _, rfl, rfl⟩
  · cases h

private theorem binary32_ok {f : UInt32 → UInt32 → Value} (h : binary32 f stack = .ok stack') :
    ∃ a b rest, stack = .i32 b :: .i32 a :: rest ∧ stack' = f a b :: rest := by
  unfold binary32 at h
  split at h
  · cases h
    exact ⟨_, _, _, rfl, rfl⟩
  · cases h

private theorem binary64_ok {f : UInt64 → UInt64 → Value} (h : binary64 f stack = .ok stack') :
    ∃ a b rest, stack = .i64 b :: .i64 a :: rest ∧ stack' = f a b :: rest := by
  unfold binary64 at h
  split at h
  · cases h
    exact ⟨_, _, _, rfl, rfl⟩
  · cases h

private theorem partial64_ok {f : UInt64 → UInt64 → Option UInt64} (h : partial64 f stack = .ok stack') :
    ∃ a b rest v, stack = .i64 b :: .i64 a :: rest ∧ stack' = v :: rest := by
  unfold partial64 at h
  split at h
  · split at h
    · cases h
      exact ⟨_, _, _, _, rfl, rfl⟩
    · cases h
  · cases h

/-- A numeric instruction replaces its operands by its result. -/
private theorem Numeric.exists_of_apply {o : Numeric} (h : o.apply stack = .ok stack')
    (hknown : Describes known stack) :
    ∃ v, stack' = v :: stack.drop o.arity ∧ (o.yieldsTruth (known 0) (known 1) = true → v.IsTruth) := by
  cases o with
  | i32Eqz =>
    obtain ⟨a, rest, rfl, rfl⟩ := unary32_ok h
    exact ⟨_, rfl, fun _ => isTruth_ofBool _⟩
  | i32Eq | i32Ne | i32LtU =>
    obtain ⟨a, b, rest, rfl, rfl⟩ := binary32_ok h
    exact ⟨_, rfl, fun _ => isTruth_ofBool _⟩
  | i64Ne | i64LtU =>
    obtain ⟨a, b, rest, rfl, rfl⟩ := binary64_ok h
    exact ⟨_, rfl, fun _ => isTruth_ofBool _⟩
  | i32And =>
    obtain ⟨a, b, rest, rfl, rfl⟩ := binary32_ok h
    refine ⟨_, rfl, fun hyields => ?_⟩
    rcases Bool.or_eq_true_iff.1 hyields with htop | hbelow
    · have hb : IsTruth b := hknown 0 _ htop rfl
      exact hb.and_right a
    · have ha : IsTruth a := hknown 1 _ hbelow rfl
      exact ha.and_left b
  | i32Or =>
    obtain ⟨a, b, rest, rfl, rfl⟩ := binary32_ok h
    refine ⟨_, rfl, fun hyields => ?_⟩
    obtain ⟨htop, hbelow⟩ := Bool.and_eq_true_iff.1 hyields
    have ha : IsTruth a := hknown 1 _ hbelow rfl
    exact ha.or (hknown 0 _ htop rfl)
  | i32Xor =>
    obtain ⟨a, b, rest, rfl, rfl⟩ := binary32_ok h
    refine ⟨_, rfl, fun hyields => ?_⟩
    obtain ⟨htop, hbelow⟩ := Bool.and_eq_true_iff.1 hyields
    have ha : IsTruth a := hknown 1 _ hbelow rfl
    exact ha.xor (hknown 0 _ htop rfl)
  | i32Popcnt | i64ExtendI32S | i64ExtendI32U | i32Extend8S | i32Extend16S =>
    obtain ⟨a, rest, rfl, rfl⟩ := unary32_ok h
    exact ⟨_, rfl, fun hyields => by cases hyields⟩
  | i32WrapI64 =>
    obtain ⟨a, rest, rfl, rfl⟩ := unary64_ok h
    exact ⟨_, rfl, fun hyields => by cases hyields⟩
  | i32Add | i32Sub | i32Shl | i32ShrS | i32ShrU =>
    obtain ⟨a, b, rest, rfl, rfl⟩ := binary32_ok h
    exact ⟨_, rfl, fun hyields => by cases hyields⟩
  | i64Add | i64Mul | i64Or | i64Shl | i64ShrU =>
    obtain ⟨a, b, rest, rfl, rfl⟩ := binary64_ok h
    exact ⟨_, rfl, fun hyields => by cases hyields⟩
  | i64DivS | i64DivU | i64RemS | i64RemU =>
    obtain ⟨a, b, rest, v, rfl, rfl⟩ := partial64_ok h
    exact ⟨_, rfl, fun hyields => by cases hyields⟩

end Numeric

/-! ### Steps -/

/-- Globals stay truth values if truth values are written to them. -/
theorem Store.Boolean.setGlobal {s : Store ω} {index : Nat} {word : UInt32} (hs : s.Boolean bools)
    (hword : bools index = true → IsTruth word) : (s.setGlobal index word).Boolean bools := by
  intro i hi
  by_cases heq : i = index
  · subst heq
    show IsTruth (if i = i then word else s.globals i)
    rw [if_pos rfl]
    exact hword hi
  · show IsTruth (if i = index then word else s.globals i)
    rw [if_neg heq]
    exact hs i hi

/-- What the check knows after an instruction is so, and the chosen globals stay boolean. -/
theorem Instr.sound_of_apply (hdata : instr.isData = true) (happly : instr.apply m = .ok m')
    (hwrites : instr.writesTruth bools known = true) (hknown : Describes known m.stack)
    (hstore : m.store.Boolean bools) :
    Describes (instr.truths bools known) m'.stack ∧ m'.store.Boolean bools := by
  obtain ⟨stack, locals, store⟩ := m
  cases instr with
  | unreachable => cases happly
  | i32Const v =>
    cases happly
    refine ⟨hknown.onTop fun hv => ?_, hstore⟩
    rcases Bool.or_eq_true_iff.1 hv with hv | hv
    · exact .inl (beq_iff_eq.1 hv)
    · exact .inr (beq_iff_eq.1 hv)
  | i64Const v =>
    cases happly
    exact ⟨hknown.unknown _, hstore⟩
  | localGet index =>
    cases happly
    exact ⟨hknown.unknown _, hstore⟩
  | globalGet index =>
    cases happly
    exact ⟨hknown.onTop (hstore index), hstore⟩
  | localSet index =>
    cases stack with
    | nil => cases happly
    | cons v stack =>
      cases happly
      exact ⟨hknown.drop 1, hstore⟩
  | globalSet index =>
    cases stack with
    | nil => cases happly
    | cons v stack =>
      cases v with
      | i64 w => cases happly
      | i32 w =>
        cases happly
        refine ⟨hknown.drop 1, hstore.setGlobal fun hindex => ?_⟩
        have htop : known 0 = true := by simpa [Instr.writesTruth, hindex] using hwrites
        exact hknown 0 _ htop rfl
  | load a =>
    simp only [Instr.apply, Machine.load] at happly
    split at happly
    · split at happly
      · cases happly
        exact ⟨(hknown.drop 1).unknown _, hstore⟩
      · cases happly
    · cases happly
  | store a =>
    simp only [Instr.apply, Machine.storeTop] at happly
    split at happly
    · split at happly
      · cases happly
        exact ⟨hknown.drop 2, hstore⟩
      · cases happly
    · cases happly
  | select =>
    simp only [Instr.apply] at happly
    split at happly
    · cases happly
      exact ⟨(hknown.drop 3).unknown _, hstore⟩
    · cases happly
  | op o =>
    simp only [Instr.apply] at happly
    cases hop : o.apply stack with
    | error fault =>
      rw [hop] at happly
      cases happly
    | ok stack' =>
      rw [hop] at happly
      cases happly
      obtain ⟨v, rfl, hv⟩ := Numeric.exists_of_apply hop hknown
      exact ⟨(hknown.drop o.arity).onTop hv, hstore⟩
  | _ => cases hdata

/-- The imported functions leave the chosen globals boolean. -/
def Host.KeepsBoolean (bools : Nat → Bool) (host : Host κ ω) : Prop :=
  ∀ callee s s', host callee s = .ok s' → s.Boolean bools → s'.Boolean bools

namespace Config

/-- The chosen globals are boolean, and the code that is left passes the check, also at each label. -/
structure Sound (bools : Nat → Bool) (c : Config κ ω) : Prop where
  code : ∃ known, keeps bools known c.code = true ∧ Describes known c.machine.stack
  labels : ∀ l ∈ c.labels, Keeps bools l.continuation
  store : c.machine.store.Boolean bools

variable {host : Host κ ω} {c d : Config κ ω}

private theorem sound_of_keeps (h : Keeps bools code) (hstore : m.store.Boolean bools) :
    (⟨code, [], m⟩ : Config κ ω).Sound bools where
  code := ⟨_, h, describes_nothing _⟩
  labels := fun _ hl => by cases hl
  store := hstore

private theorem sound_branch (hc : c.Sound bools) {stack : List Value} {depth : Nat}
    (h : c.branch stack depth = .running d) : d.Sound bools := by
  unfold branch at h
  split at h
  · rename_i label hlabel
    cases h
    refine ⟨⟨_, hc.labels label (List.mem_of_getElem? hlabel), describes_nothing _⟩, fun l hl => ?_, hc.store⟩
    exact hc.labels l (List.mem_of_mem_drop hl)
  · split at h <;> cases h

private theorem sound_leave (hc : c.Sound bools) (hcode : Keeps bools code) (h : c.leave code = .running d) :
    d.Sound bools := by
  unfold leave at h
  split at h
  · rename_i label labels hlabels
    cases h
    refine ⟨⟨_, hcode, describes_nothing _⟩, fun l hl => ?_, hc.store⟩
    exact hc.labels l (hlabels ▸ List.mem_cons_of_mem _ hl)
  · cases h

private theorem step_of_apply_error {labels : List (Label κ)} {fault : Fault} (hdata : instr.isData = true)
    (h : instr.apply m = .error fault) :
    (⟨instr :: rest, labels, m⟩ : Config κ ω).step host = .stopped fault := by
  cases instr <;> simp_all [step]

/-- A step keeps the check satisfied, if it is not a call that spoils the globals. -/
theorem sound_of_step (hc : c.Sound bools) (h : c.step host = .running d)
    (hcall : ∀ callee rest store, c.code = .call callee :: rest → host callee c.machine.store = .ok store →
      store.Boolean bools) : d.Sound bools := by
  have hcode := hc.code
  have hlabels := hc.labels
  have hstore := hc.store
  obtain ⟨code, labels, m⟩ := c
  obtain ⟨known, hkeeps, hknown⟩ := hcode
  cases code with
  | nil =>
    simp only [step] at h
    split at h <;> cases h
  | cons instr rest =>
    obtain ⟨hwrites, hrest⟩ := keeps_cons_iff.1 hkeeps
    by_cases hdata : instr.isData = true
    · cases happly : instr.apply m with
      | error fault =>
        rw [step_of_apply_error hdata happly] at h
        cases h
      | ok m' =>
        rw [step_of_isData hdata happly] at h
        cases h
        rw [if_pos hdata] at hrest
        obtain ⟨hknown', hstore'⟩ := instr.sound_of_apply hdata happly hwrites hknown hstore
        exact ⟨⟨_, hrest, hknown'⟩, hlabels, hstore'⟩
    · -- Where control may come from somewhere else, nothing is known about operands.
      rw [if_neg hdata] at hrest
      have hnext : ∀ (stack : List Value) (code : List (Instr κ)), Keeps bools code → ∀ continuation,
          Keeps bools continuation → Sound bools
            ((⟨instr :: rest, labels, m⟩ : Config κ ω).enter stack code continuation) := by
        intro stack code hcode continuation hcontinuation
        refine ⟨⟨_, hcode, describes_nothing _⟩, List.forall_mem_cons.2 ⟨hcontinuation, hlabels⟩, hstore⟩
      have hafter := keeps_afterClose 0 hrest
      cases instr with
      | block =>
        cases h
        exact hnext _ _ hrest _ hafter
      | loop =>
        cases h
        exact hnext _ _ hrest _ (keeps_cons_iff.2 ⟨rfl, hrest⟩)
      | ifThen =>
        simp only [step] at h
        split at h
        · cases h
          refine hnext _ _ ?_ _ hafter
          split
          · exact keeps_afterThen 0 hrest
          · exact hrest
        · cases h
      | orElse => exact sound_leave hc hafter h
      | close => exact sound_leave hc hrest h
      | br depth => exact sound_branch hc h
      | brIf depth =>
        simp only [step] at h
        split at h
        · split at h
          · cases h
            exact ⟨⟨_, hrest, describes_nothing _⟩, hlabels, hstore⟩
          · exact sound_branch hc h
        · cases h
      | ret => cases h
      | call callee =>
        simp only [step] at h
        split at h
        · rename_i store hok
          cases h
          exact ⟨⟨_, hrest, describes_nothing _⟩, hlabels, hcall callee rest store rfl hok⟩
        · cases h
      | _ => exact absurd rfl hdata

private theorem store_of_branch {stack : List Value} {depth : Nat} {store : Store ω}
    (h : c.branch stack depth = .returned store) : store = c.machine.store := by
  unfold branch at h
  split at h
  · cases h
  · split at h
    · cases h
      rfl
    · cases h

/-- A function returns with the store that it has come to. -/
private theorem store_of_returned {store : Store ω} (h : c.step host = .returned store) :
    store = c.machine.store := by
  obtain ⟨code, labels, m⟩ := c
  cases code with
  | nil =>
    simp only [step] at h
    split at h
    · cases h
      rfl
    · cases h
  | cons instr rest =>
    by_cases hdata : instr.isData = true
    · cases happly : instr.apply m with
      | error fault =>
        rw [step_of_apply_error hdata happly] at h
        cases h
      | ok m' =>
        rw [step_of_isData hdata happly] at h
        cases h
    · cases instr with
      | ret =>
        cases h
        rfl
      | br depth => exact store_of_branch h
      | brIf depth =>
        simp only [step] at h
        split at h
        · split at h
          · cases h
          · exact store_of_branch h
        · cases h
      | block | loop => cases h
      | orElse | close =>
        simp only [step, leave] at h
        split at h <;> cases h
      | ifThen | call =>
        simp only [step] at h
        split at h <;> cases h
      | _ => exact absurd rfl hdata

/-- The chosen globals are boolean, and so they are in the store with which the function returns, if it does so
next. -/
def Boolean (bools : Nat → Bool) (host : Host κ ω) (c : Config κ ω) : Prop :=
  c.machine.store.Boolean bools ∧ ∀ store, c.step host = .returned store → store.Boolean bools

private theorem Sound.boolean (hc : c.Sound bools) : c.Boolean bools host := by
  refine ⟨hc.store, fun store hreturned => ?_⟩
  rw [store_of_returned hreturned]
  exact hc.store

/-- Code that passes the check keeps the chosen globals boolean in all of its execution. -/
theorem boolean_of_reaches (hhost : host.KeepsBoolean bools) (hcode : Keeps bools code)
    (hstore : m.store.Boolean bools) (h : Reaches host ⟨code, [], m⟩ d) : d.Boolean bools host := by
  suffices hsound : d.Sound bools from hsound.boolean
  induction h with
  | refl => exact sound_of_keeps hcode hstore
  | tail _ hstep ih => exact sound_of_step ih hstep fun callee _ store _ hok => hhost callee _ store hok ih.store

/-- The next configuration, where the step is not a call. -/
def StepsAlone (host : Host κ ω) (c d : Config κ ω) : Prop :=
  Steps host c d ∧ ∀ callee rest, c.code ≠ .call callee :: rest

/-- A configuration that comes later with no call on the way, or the same one. -/
def ReachesAlone (host : Host κ ω) : Config κ ω → Config κ ω → Prop := Relation.ReflTransGen (StepsAlone host)

/-- Up to its first call, code that passes the check keeps the chosen globals boolean whatever calls do. -/
theorem boolean_of_reachesAlone (hcode : Keeps bools code) (hstore : m.store.Boolean bools)
    (h : ReachesAlone host ⟨code, [], m⟩ d) : d.Boolean bools host := by
  suffices hsound : d.Sound bools from hsound.boolean
  induction h with
  | refl => exact sound_of_keeps hcode hstore
  | tail _ hstep ih => exact sound_of_step ih hstep.1 fun callee rest _ hcall _ => absurd hcall (hstep.2 callee rest)

/-- The chosen globals are boolean in all that follows the configuration: up to the first call whatever the imported
functions do, and beyond it if these leave the globals boolean. -/
structure StaysBoolean (bools : Nat → Bool) (host : Host κ ω) (c : Config κ ω) : Prop where
  alone : ∀ d, c.ReachesAlone host d → d.Boolean bools host
  throughout : host.KeepsBoolean bools → ∀ d, c.Reaches host d → d.Boolean bools host

/-- Code that writes truth values keeps the store Boolean all the way. -/
theorem staysBoolean_of_keeps (host : Host κ ω) (hcode : Keeps bools code) (hstore : m.store.Boolean bools) :
    StaysBoolean bools host ⟨code, [], m⟩ where
  alone _ hd := boolean_of_reachesAlone hcode hstore hd
  throughout hhost _ hd := boolean_of_reaches hhost hcode hstore hd

end Config

end Ia32Wasm.Wasm
