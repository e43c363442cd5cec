import Ia32Wasm.Json.Reading
import Mathlib.Algebra.Group.Int.Defs
import Mathlib.Algebra.Group.Nat.Defs

/-!
# Scalars, lists and records read back

The JSON forms of numbers in their ranges, of lists and of values that may be missing give back what they were made
of.  An object with distinct keys gives each field of a record as the member with its name, if there is one.
-/

namespace Ia32Wasm.Json

/-! ### Scalars -/

@[simp] theorem string?_str (s : String) : string? (.str s) = some s := rfl

@[simp] theorem bool?_bool (b : Bool) : bool? (.bool b) = some b := rfl

private theorem unsigned?_nat {bits n : Nat} (h : n < 2 ^ bits) : unsigned? bits (.nat n) = some n := by
  have hrange : 0 ≤ (n : Int) ∧ (n : Int).toNat < 1 <<< bits := by
    rw [Int.toNat_natCast, Nat.one_shiftLeft]
    exact ⟨Int.natCast_nonneg n, h⟩
  exact if_pos hrange

private theorem signed?_int {bits : Nat} {n : Int} (hge : -2 ^ (bits - 1) ≤ n) (hlt : n < 2 ^ (bits - 1)) :
    signed? bits (.int n) = some n := by
  have hbound : Int.ofNat (1 <<< (bits - 1)) = 2 ^ (bits - 1) := by
    rw [Nat.one_shiftLeft]
    exact Int.natCast_pow 2 _
  have hint : int? (.int n) = some n := rfl
  simp only [signed?, hint, hbound, Option.filter_some, hge, hlt, and_self, decide_true, if_true]

@[simp] theorem uint8?_nat (b : UInt8) : uint8? (.nat b.toNat) = some b := by
  simp [uint8?, unsigned?_nat b.toNat_lt]

@[simp] theorem uint16?_nat (w : UInt16) : uint16? (.nat w.toNat) = some w := by
  simp [uint16?, unsigned?_nat w.toNat_lt]

@[simp] theorem uint32?_nat (w : UInt32) : uint32? (.nat w.toNat) = some w := by
  simp [uint32?, unsigned?_nat w.toNat_lt]

@[simp] theorem uint64?_nat (w : UInt64) : uint64? (.nat w.toNat) = some w := by
  simp [uint64?, unsigned?_nat w.toNat_lt]

@[simp] theorem int32?_int (d : Int32) : int32? (.int d.toInt) = some d := by
  rw [int32?, signed?_int d.le_toInt d.toInt_lt, Option.map_some, Int32.ofInt_toInt]

@[simp] theorem int64?_int (d : Int64) : int64? (.int d.toInt) = some d := by
  rw [int64?, signed?_int d.le_toInt d.toInt_lt, Option.map_some, Int64.ofInt_toInt]

/-! ### Lists and missing values -/

variable {α : Type} {toJson : α → Json} {ofJson? : Json → Option α}

/-- A list is read back if its members are. -/
theorem list?_list (h : ∀ a, ofJson? (toJson a) = some a) (as : List α) :
    list? ofJson? (.list toJson as) = some as := by
  show (as.map toJson).mapM ofJson? = some as
  induction as with
  | nil => rfl
  | cons a as ih =>
    rw [List.map_cons, List.mapM_cons, h, ih]
    rfl

/-- A value that may be missing, when the form of a value is not that of a missing one. -/
theorem nullable?_opt (h : ∀ a, ofJson? (toJson a) = some a) (hnull : ∀ a, toJson a ≠ .null) (a : Option α) :
    nullable? ofJson? (.opt toJson a) = some a := by
  cases a with
  | none => rfl
  | some a =>
    show nullable? ofJson? (toJson a) = _
    rw [nullable?, h]
    · rfl
    · exact hnull a

/-! ### Records -/

/-- The names of members are read as they are written. -/
theorem members?_map (members : List (String × Json)) :
    members? (members.map fun (k, v) => (some k, v)) = some members := by
  induction members with
  | nil => rfl
  | cons member members ih =>
    rw [members?] at ih ⊢
    rw [List.map_cons, List.mapM_cons, ih]
    rfl

/-- A key that is not repeated is looked up. -/
theorem once?_eq {members : List (String × Json)} (h : (members.map Prod.fst).Nodup) (name : String) :
    once? members name = some (members.lookup name) := by
  induction members with
  | nil => rfl
  | cons member members ih =>
    obtain ⟨hfirst, hrest⟩ := List.nodup_cons.1 h
    by_cases hname : member.1 = name
    · have hothers : members.filter (fun member => member.1 = name) = [] := by
        rw [List.filter_eq_nil_iff]
        intro other hother
        rw [decide_eq_true_eq]
        rintro rfl
        exact hfirst (List.mem_map.2 ⟨other, hother, hname.symm⟩)
      rw [once?, List.filter_cons, if_pos (decide_eq_true hname), hothers, List.lookup_cons, ← hname,
        beq_self_eq_true]
    · rw [once?, List.filter_cons, if_neg (by simp [hname]), List.lookup_cons, beq_false_of_ne (Ne.symm hname)]
      exact ih hrest

/-- The fields of an object with distinct keys are the members with their names. -/
theorem fields?_record {names : List String} {members : List (String × Json)}
    (h : (members.map Prod.fst).Nodup) :
    fields? names (.record members) = some (names.map fun name => members.lookup name) := by
  rw [record, fields?, members?_map]
  show names.mapM (once? members) = _
  rw [funext (once?_eq h)]
  exact List.mapM_pure

/-- Settings are looked up by name in a record whose names differ. -/
theorem settings?_record {names : List String} {members : List (String × Json)}
    (h : (members.map Prod.fst).Nodup) :
    settings? names (.record members) = some (names.map fun name => members.lookup name) :=
  fields?_record h

@[simp] theorem required?_some (f : Json → Option α) (j : Json) : required? f (some j) = f j := rfl

@[simp] theorem optional?_some (f : Json → Option α) (j : Json) : optional? f (some j) = nullable? f j := rfl

@[simp] theorem defaulted?_some (default : α) (f : Json → Option α) (j : Json) :
    defaulted? default f (some j) = f j := rfl

/-! ### Values held whole -/

private theorem roundTo_le (bits n : Nat) : roundTo bits n ≤ 3 * n + 2 := by
  have hpower : 2 ^ n.log2 ≤ n + 1 := by
    rcases Nat.eq_zero_or_pos n with rfl | hpos
    · decide
    · exact Nat.le_succ_of_le (Nat.log2_self_le (Nat.ne_of_gt hpos))
  have hunit : 1 <<< (n.log2 + 1 - bits) ≤ 2 * 2 ^ n.log2 := by
    rw [Nat.one_shiftLeft, Nat.mul_comm, ← Nat.pow_succ]
    exact Nat.pow_le_pow_right (by decide) (Nat.sub_le _ _)
  have hbelow : n / (1 <<< (n.log2 + 1 - bits)) * (1 <<< (n.log2 + 1 - bits)) ≤ n := Nat.div_mul_le_self n _
  unfold roundTo
  simp only
  split
  · omega
  · rw [Nat.add_mul]
    omega

/-- An integer of 64 bits is a finite double. -/
private theorem isFiniteDecimal_zero {n : Nat} (h : n < 2 ^ 64) : isFiniteDecimal n 0 = true := by
  have hlength : (Nat.toDigits 10 n).length ≤ 20 :=
    (Nat.length_toDigits_le_iff (by decide) (by decide)).2 (Nat.lt_trans h (by decide))
  have hleading : leadingDigits n = (n, 0) := by
    rw [leadingDigits, Nat.sub_eq_zero_of_le hlength]
    simp only [Nat.pow_eq, Nat.pow_zero, Nat.div_one]
    exact if_pos h
  have hone : nearestDouble (Nat.pow 10 (0 : Int).toNat) = 1 := by decide
  have hdouble : nearestDouble (nearestDouble n * 1) < 1 <<< 1024 := by
    have hfirst : nearestDouble n ≤ 3 * n + 2 := roundTo_le 53 n
    have hsecond : nearestDouble (nearestDouble n) ≤ 3 * nearestDouble n + 2 := roundTo_le 53 _
    have hpower : ∀ k, 70 ≤ k → 2 ^ 70 ≤ 1 <<< k := by
      intro k hk
      rw [Nat.one_shiftLeft]
      exact Nat.pow_le_pow_right (by decide) hk
    rw [Nat.mul_one]
    exact Nat.lt_of_lt_of_le (by omega) (hpower 1024 (by decide))
  have hsum : (0 : Int) + ((0 : Nat) : Int) = 0 := rfl
  simp only [isFiniteDecimal, hleading, hsum, hone, hdouble, decide_true, Bool.and_true]
  simp [largestExponent]

private theorem isHoldable_int {room : Nat} {n : Int} (h : n.natAbs < 2 ^ 64) : isHoldable room (.int n) = true := by
  rw [Json.int, isHoldable]
  exact isFiniteDecimal_zero h

@[simp] theorem isHoldable_str (room : Nat) (s : String) : isHoldable room (.str s) = true := rfl

@[simp] theorem isHoldable_bool (room : Nat) (b : Bool) : isHoldable room (.bool b) = true := rfl

@[simp] theorem isHoldable_uint8 (room : Nat) (b : UInt8) : isHoldable room (.nat b.toNat) = true :=
  isHoldable_int (Nat.lt_trans b.toNat_lt (by decide))

@[simp] theorem isHoldable_uint32 (room : Nat) (w : UInt32) : isHoldable room (.nat w.toNat) = true :=
  isHoldable_int (Nat.lt_trans w.toNat_lt (by decide))

@[simp] theorem isHoldable_int32 (room : Nat) (d : Int32) : isHoldable room (.int d.toInt) = true := by
  have hge := d.le_toInt
  have hlt := d.toInt_lt
  exact isHoldable_int (by omega)

@[simp] theorem isHoldable_int64 (room : Nat) (d : Int64) : isHoldable room (.int d.toInt) = true := by
  have hge := d.le_toInt
  have hlt := d.toInt_lt
  exact isHoldable_int (by omega)

/-- A value that may be absent can be held if all values can. -/
theorem isHoldable_opt {room : Nat} (h : ∀ a, (toJson a).isHoldable room = true) (a : Option α) :
    isHoldable room (.opt toJson a) = true := by
  cases a with
  | none => rfl
  | some a => exact h a

/-- The members of a record can be held in memory when their values can. -/
theorem areMembersHoldable_map {room : Nat} {members : List (String × Json)} :
    areMembersHoldable room (members.map fun (k, v) => (some k, v)) = members.all fun m => m.2.isHoldable room := by
  induction members with
  | nil => rfl
  | cons member members ih =>
    rw [List.map_cons, areMembersHoldable, ih, List.all_cons]
    rfl

end Ia32Wasm.Json
