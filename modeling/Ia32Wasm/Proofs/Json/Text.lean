import Ia32Wasm.Json.Parser
import Ia32Wasm.Json.Printer
import Ia32Wasm.Proofs.Text.Numerals

/-!
# JSON texts read back

The compact text of a value reads as the value (`parse?_toText`), in two stages.  The scanner takes the text into the
tokens of the value: a mark ends whatever word or number stands in front of it, and a string keeps its characters
through their escapes.  The reader takes these tokens into the value, whatever containers are open around it.
-/

namespace Ia32Wasm.Json

/-! ### The tokens of a value -/

mutual

/-- The tokens of the compact text of a value. -/
def tokens : Json → List Token
  | .null => [.null]
  | .bool b => [.bool b]
  | .number n => [.number n]
  | .text s => [.text s]
  | .array items => .beginArray :: itemTokens items
  | .object members => .beginObject :: memberTokens members

/-- The tokens of the items of an array and of its closing bracket. -/
def itemTokens : List Json → List Token
  | [] => [.endArray]
  | item :: rest => item.tokens ++ moreItemTokens rest

/-- The tokens of the items of an array after the first. -/
def moreItemTokens : List Json → List Token
  | [] => [.endArray]
  | item :: rest => .comma :: (item.tokens ++ moreItemTokens rest)

/-- The tokens of the members of an object and of its closing brace. -/
def memberTokens : List (Option String × Json) → List Token
  | [] => [.endObject]
  | (key, value) :: rest => .text key :: .colon :: (value.tokens ++ moreMemberTokens rest)

/-- The tokens of the members of an object after the first. -/
def moreMemberTokens : List (Option String × Json) → List Token
  | [] => [.endObject]
  | (key, value) :: rest => .comma :: .text key :: .colon :: (value.tokens ++ moreMemberTokens rest)

end

/-! ### Numbers -/

private theorem decimalValue_toDigits (n : Nat) : decimalValue (Nat.toDigits 10 n) = n :=
  Nat.ofDigitChars_toDigits (by decide) (by decide)

private theorem isDigit_of_mem_toDigits {n : Nat} : ∀ c ∈ Nat.toDigits 10 n, c.isDigit = true :=
  fun _ => Nat.isDigit_of_mem_toDigits (by decide) (by decide)

private theorem toDigits_ne_cons {n : Nat} {c : Char} {cs : List Char} (hc : c.isDigit = false) :
    Nat.toDigits 10 n ≠ c :: cs := by
  intro heq
  have hdigit := isDigit_of_mem_toDigits c (heq ▸ List.mem_cons_self)
  rw [hc] at hdigit
  cases hdigit

/-- The whole digits of a number end at the first character that is no digit. -/
private theorem ofUnsigned?_toDigits (negative : Bool) (n : Nat) {rest : List Char}
    (hrest : rest.takeWhile Char.isDigit = []) :
    Number.ofUnsigned? negative (Nat.toDigits 10 n ++ rest) =
      Number.ofParts? negative (Nat.toDigits 10 n) rest := by
  have htake : (Nat.toDigits 10 n ++ rest).takeWhile Char.isDigit = Nat.toDigits 10 n := by
    rw [List.takeWhile_append_of_pos isDigit_of_mem_toDigits, hrest, List.append_nil]
  have hdrop : (Nat.toDigits 10 n ++ rest).dropWhile Char.isDigit = rest := by
    rw [List.dropWhile_append_of_pos isDigit_of_mem_toDigits]
    have hboth := List.takeWhile_append_dropWhile (p := Char.isDigit) (l := rest)
    rwa [hrest, List.nil_append] at hboth
  rw [Number.ofUnsigned?, htake, hdrop]
  split
  · rename_i heq
    exact absurd heq Nat.toDigits_ne_nil
  · rename_i heq
    rcases Nat.eq_zero_or_pos n with rfl | hpos
    · cases heq
    · exact absurd (by rw [heq]; rfl) (head?_toDigits_ne hpos)
  · rfl

private theorem ofChars?_toDigits (n : Nat) (rest : List Char) :
    Number.ofChars? (Nat.toDigits 10 n ++ rest) = Number.ofUnsigned? false (Nat.toDigits 10 n ++ rest) := by
  unfold Number.ofChars?
  split
  · rename_i heq
    obtain ⟨c, cs, hdigits⟩ := List.exists_cons_of_ne_nil (Nat.toDigits_ne_nil : Nat.toDigits 10 n ≠ [])
    rw [hdigits] at heq
    obtain ⟨rfl, -⟩ := List.cons.inj heq
    exact absurd hdigits (toDigits_ne_cons (by decide))
  · rfl

private theorem exponent?_signed (e : Int) : exponent? ('e' :: signed e) = some e := by
  have hdigits : Nat.toDigits 10 e.natAbs ≠ [] ∧ (Nat.toDigits 10 e.natAbs).all Char.isDigit = true :=
    ⟨Nat.toDigits_ne_nil, List.all_eq_true.2 isDigit_of_mem_toDigits⟩
  by_cases hneg : e < 0
  · rw [signed, if_pos hneg]
    show (if _ then some (-(decimalValue (Nat.toDigits 10 e.natAbs) : Int)) else none) = some e
    rw [if_pos hdigits, decimalValue_toDigits]
    congr 1
    omega
  · rw [signed, if_neg hneg, exponent?, if_pos (Or.inl rfl), if_pos hdigits, decimalValue_toDigits]
    · congr 1
      omega
    · exact fun _ => toDigits_ne_cons (by decide)
    · exact fun _ => toDigits_ne_cons (by decide)

/-- A number reads from its text. -/
private theorem ofChars?_render (n : Number) : Number.ofChars? n.render = some n := by
  cases n with
  | int n =>
    have hread : ∀ negative, Number.ofUnsigned? negative (Nat.toDigits 10 n.natAbs ++ []) = _ :=
      fun negative => ofUnsigned?_toDigits negative n.natAbs rfl
    by_cases hneg : n < 0
    · have hzero : ¬ n.natAbs = 0 := by omega
      rw [Number.render, signed, if_pos hneg]
      show Number.ofUnsigned? true (Nat.toDigits 10 n.natAbs) = _
      rw [List.append_nil] at hread
      rw [hread, Number.ofParts?, decimalValue_toDigits, if_neg (by simp [hzero])]
      simp only [if_true]
      congr 2
      omega
    · rw [Number.render, signed, if_neg hneg, ← List.append_nil (Nat.toDigits 10 n.natAbs), ofChars?_toDigits, hread,
        Number.ofParts?, decimalValue_toDigits, if_neg (by simp)]
      simp only [Bool.false_eq_true, if_false]
      congr 2
      omega
  | decimal negative digits exponent =>
    have hread : ∀ negative, Number.ofUnsigned? negative (Nat.toDigits 10 digits ++ 'e' :: signed exponent) =
        some (.decimal negative digits exponent) := by
      intro negative
      rw [ofUnsigned?_toDigits negative digits (by rfl)]
      show (exponent? ('e' :: signed exponent)).map _ = _
      rw [exponent?_signed, decimalValue_toDigits, Option.map_some]
    cases negative with
    | true => exact hread true
    | false =>
      have hplain := ofChars?_toDigits digits ('e' :: signed exponent)
      exact hplain.trans (hread false)

/-! ### The scanner -/

/-- The scanner when the token that it stands in ends there, which only words and numbers can. -/
def Scanner.settle (s : Scanner) : Option Scanner :=
  match s.position with
  | .between => some s
  | .word letters => (word? letters.reverse).map s.emit
  | .number chars => (Number.ofChars? chars.reverse).map fun n => s.emit (.number n)
  | _ => none

private theorem finish_eq_settle (s : Scanner) : s.finish = s.settle.map fun s => s.tokens.reverse := by
  obtain ⟨position, before⟩ := s
  cases position <;> simp [Scanner.finish, Scanner.settle, Scanner.emit, Function.comp_def]

/-- Between tokens the scanner takes the characters into the tokens, the last of which may be left to end. -/
def Scans (cs : List Char) (ts : List Token) : Prop :=
  ∀ before, ∃ s, cs.foldlM Scanner.step ⟨.between, before⟩ = some s ∧
    s.settle = some ⟨.between, ts.reverse ++ before⟩

/-- The characters end the token in front of them and then give the tokens. -/
def Continues (cs : List Char) (ts : List Token) : Prop :=
  ∀ s before, s.settle = some ⟨.between, before⟩ → ∃ s', cs.foldlM Scanner.step s = some s' ∧
    s'.settle = some ⟨.between, ts.reverse ++ before⟩

/-- A mark is none of the characters that go on with a token. -/
private theorem not_of_mark? {c : Char} {t : Token} (h : mark? c = some t) :
    c.isLower = false ∧ inNumber c = false ∧ isSpace c = false := by
  have hcases : c = '[' ∨ c = ']' ∨ c = '\x7b' ∨ c = '\x7d' ∨ c = ',' ∨ c = ':' := by
    unfold mark? at h
    grind
  rcases hcases with rfl | rfl | rfl | rfl | rfl | rfl <;> decide

private theorem step_mark {c : Char} {t : Token} (hmark : mark? c = some t) {s s' : Scanner}
    (h : s.settle = some s') :
    s.step c = some (s'.emit t) := by
  obtain ⟨hlower, hnumber, hspace⟩ := not_of_mark? hmark
  have hstart : ∀ s : Scanner, s.start c = some (s.emit t) := by
    intro s
    rw [Scanner.start, hspace, hmark]
    rfl
  obtain ⟨position, before⟩ := s
  cases position with
  | between =>
    cases h
    exact hstart _
  | word letters =>
    obtain ⟨token, hword, rfl⟩ := Option.map_eq_some_iff.1 h
    simp [Scanner.step, hlower, hword, hstart]
  | number chars =>
    obtain ⟨n, hn, rfl⟩ := Option.map_eq_some_iff.1 h
    simp [Scanner.step, hnumber, hn, hstart]
  | string | escape | unit => cases h

theorem Scans.nil : Scans [] [] := fun _ => ⟨_, rfl, rfl⟩

variable {cs cs' : List Char} {ts ts' : List Token}

/-- Text that can stand behind other text is scanned behind it. -/
theorem Scans.append (h : Scans cs ts) (h' : Continues cs' ts') : Scans (cs ++ cs') (ts ++ ts') := by
  intro before
  obtain ⟨s, hs, hsettle⟩ := h before
  obtain ⟨s', hs', hsettle'⟩ := h' s _ hsettle
  refine ⟨s', ?_, ?_⟩
  · rw [List.foldlM_append, hs]
    exact hs'
  · rw [hsettle', List.reverse_append, List.append_assoc]

private theorem Scans.continues {c : Char} {t : Token} (hmark : mark? c = some t) (h : Scans cs ts) :
    Continues (c :: cs) (t :: ts) := by
  intro s before hs
  obtain ⟨s', hs', hsettle⟩ := h (t :: before)
  refine ⟨s', ?_, ?_⟩
  · rw [List.foldlM_cons, step_mark hmark hs]
    exact hs'
  · rw [hsettle, List.reverse_cons, List.append_assoc]
    rfl

private theorem Continues.scans (h : Continues cs ts) : Scans cs ts := fun before => h _ before rfl

/-! ### Strings -/

/-- Four digits after the escape for a code unit give the unit. -/
private theorem foldlM_unit (q : Quote) (before : List Token) {u : Nat} (h : u < 16 ^ 4) :
    (Hex.padded 4 u).foldlM Scanner.step ⟨.unit q [], before⟩ = some ⟨.string (q.pushUnit u), before⟩ := by
  have hlength := Hex.length_padded (by decide) h
  have hdigits : ∀ c ∈ Hex.padded 4 u, ∃ d, Hex.digit? c = some d := by
    intro c hc
    obtain ⟨d, hd, rfl⟩ := Hex.mem_padded hc
    exact ⟨d, Hex.digit?_digitChar hd⟩
  have hvalue := Hex.ofDigits?_padded 4 u
  match hpadded : Hex.padded 4 u with
  | [a, b, c, d] =>
    rw [hpadded] at hdigits hvalue
    obtain ⟨_, ha⟩ := hdigits a (by simp)
    obtain ⟨_, hb⟩ := hdigits b (by simp)
    obtain ⟨_, hc⟩ := hdigits c (by simp)
    obtain ⟨_, hd⟩ := hdigits d (by simp)
    simp [Scanner.step, ha, hb, hc, hd, hvalue]
  | [] | [_] | [_, _] | [_, _, _] | _ :: _ :: _ :: _ :: _ :: _ => simp [hpadded] at hlength

/-- An escaped character is added to the string. -/
private theorem foldlM_escape (c : Char) (q : Quote) (before : List Token) :
    (escape c).foldlM Scanner.step ⟨.string q, before⟩ = some ⟨.string (q.push c), before⟩ := by
  unfold escape
  -- the seven characters that have an escape of one letter
  iterate 7
    split
    · subst c
      rfl
  split
  · rename_i hcontrol
    have hunit : q.pushUnit c.toNat = q.push c := by
      rw [Quote.pushUnit, if_neg (by omega), if_neg (by omega), Char.ofNat_toNat]
    rw [← hunit]
    exact foldlM_unit q before (by omega)
  · rename_i hquote hbackslash _ _ _ _ _ hcontrol
    simp [Scanner.step, hquote, hbackslash, hcontrol]

private theorem foldlM_flatMap_escape (chars : List Char) (q : Quote) (before : List Token) :
    (chars.flatMap escape).foldlM Scanner.step ⟨.string q, before⟩ =
      some ⟨.string (chars.foldl Quote.push q), before⟩ := by
  induction chars generalizing q with
  | nil => rfl
  | cons c chars ih =>
    rw [List.flatMap_cons, List.foldlM_append, foldlM_escape]
    exact ih (q.push c)

private theorem foldl_push (chars : List Char) {q : Quote} (h : q.high = none) :
    chars.foldl Quote.push q = { q with chars := chars.reverse ++ q.chars } := by
  induction chars generalizing q with
  | nil => rfl
  | cons c chars ih =>
    rw [List.foldl_cons, ih rfl]
    simp [Quote.push, h]

private theorem scans_quoted (s : Option String) : Scans (quoted s) [.text s] := by
  intro before
  cases s with
  | some s =>
    refine ⟨⟨.between, .text (some s) :: before⟩, ?_, rfl⟩
    rw [quoted, List.cons_append, List.foldlM_cons]
    show ((s.toList.flatMap escape ++ ['\x22']).foldlM Scanner.step ⟨.string {}, before⟩) = _
    rw [List.foldlM_append, foldlM_flatMap_escape, foldl_push _ rfl]
    show some (Scanner.emit _ _) = _
    simp [Scanner.emit, Quote.finish]
  | none =>
    refine ⟨⟨.between, .text none :: before⟩, ?_, rfl⟩
    show ((Hex.padded 4 0xd800 ++ ['\x22']).foldlM Scanner.step ⟨.unit {} [], before⟩) = _
    rw [List.foldlM_append, foldlM_unit _ _ (by decide)]
    rfl

/-! ### Numerals and words -/

private theorem foldlM_number {chars : List Char} (h : ∀ c ∈ chars, inNumber c = true) (read : List Char)
    (before : List Token) :
    chars.foldlM Scanner.step ⟨.number read, before⟩ = some ⟨.number (chars.reverse ++ read), before⟩ := by
  induction chars generalizing read with
  | nil => rfl
  | cons c chars ih =>
    obtain ⟨hc, hchars⟩ := List.forall_mem_cons.1 h
    have hstep : Scanner.step ⟨.number read, before⟩ c = some ⟨.number (c :: read), before⟩ := if_pos hc
    rw [List.foldlM_cons, hstep, List.reverse_cons, List.append_assoc]
    exact ih hchars (c :: read)

private theorem isDigit_or_dash_of_ofChars? {c : Char} {n : Number} (h : Number.ofChars? (c :: cs) = some n) :
    c.isDigit = true ∨ c = '-' := by
  by_cases hdash : c = '-'
  · exact .inr hdash
  · left
    cases hdigit : c.isDigit with
    | true => rfl
    | false =>
      unfold Number.ofChars? at h
      split at h
      · rename_i heq
        exact absurd (List.cons.inj heq).1 hdash
      · rw [Number.ofUnsigned?, List.takeWhile_cons_of_neg (by simp [hdigit])] at h
        cases h

/-- What reads as a number is scanned as it. -/
private theorem scans_number {n : Number} (hchars : ∀ c ∈ cs, inNumber c = true) (hn : Number.ofChars? cs = some n) :
    Scans cs [.number n] := by
  cases cs with
  | nil => cases hn
  | cons c cs =>
    intro before
    obtain ⟨hc, hrest⟩ := List.forall_mem_cons.1 hchars
    have hmark : mark? c = none := by
      cases hmark : mark? c with
      | none => rfl
      | some t =>
        rw [(not_of_mark? hmark).2.1] at hc
        cases hc
    have hspace : isSpace c = false := by
      rw [Bool.eq_false_iff]
      intro hspace
      simp only [isSpace, Bool.or_eq_true, decide_eq_true_eq] at hspace
      rcases hspace with ((rfl | rfl) | rfl) | rfl <;> cases hc
    have hquote : c ≠ '\x22' := by
      rintro rfl
      cases hc
    have hstart : Scanner.step ⟨.between, before⟩ c = some ⟨.number [c], before⟩ := by
      show Scanner.start _ c = _
      rw [Scanner.start, hspace, hmark]
      simp [hquote, isDigit_or_dash_of_ofChars? hn]
    refine ⟨⟨.number (cs.reverse ++ [c]), before⟩, ?_, ?_⟩
    · rw [List.foldlM_cons, hstart]
      exact foldlM_number hrest [c] before
    · rw [← List.reverse_cons]
      show (Number.ofChars? (c :: cs).reverse.reverse).map _ = _
      rw [List.reverse_reverse, hn]
      rfl

private theorem inNumber_of_mem_toDigits {n : Nat} : ∀ c ∈ Nat.toDigits 10 n, inNumber c = true := by
  intro c hc
  rw [inNumber, isDigit_of_mem_toDigits c hc]
  rfl

private theorem inNumber_of_mem_signed {n : Int} : ∀ c ∈ signed n, inNumber c = true := by
  unfold signed
  split
  · exact List.forall_mem_cons.2 ⟨rfl, inNumber_of_mem_toDigits⟩
  · exact inNumber_of_mem_toDigits

private theorem scans_render_number (n : Number) : Scans n.render [.number n] := by
  refine scans_number ?_ (ofChars?_render n)
  cases n with
  | int n => exact inNumber_of_mem_signed
  | decimal negative digits exponent =>
    have hmantissa : ∀ c ∈ Nat.toDigits 10 digits ++ 'e' :: signed exponent, inNumber c = true :=
      List.forall_mem_append.2 ⟨inNumber_of_mem_toDigits, List.forall_mem_cons.2 ⟨rfl, inNumber_of_mem_signed⟩⟩
    cases negative with
    | true => exact List.forall_mem_cons.2 ⟨rfl, hmantissa⟩
    | false => exact hmantissa

/-! ### The text of a value -/

/-- A member is a name, a colon and a value. -/
theorem Scans.member (h : Scans cs ts) (key : Option String) :
    Scans (quoted key ++ ':' :: cs) (.text key :: .colon :: ts) :=
  (scans_quoted key).append (h.continues rfl)

mutual

private theorem scans_render : (j : Json) → Scans j.render j.tokens
  | .null => fun _ => ⟨_, rfl, rfl⟩
  | .bool true => fun _ => ⟨_, rfl, rfl⟩
  | .bool false => fun _ => ⟨_, rfl, rfl⟩
  | .number n => by
    rw [render, tokens]
    exact scans_render_number n
  | .text s => by
    rw [render, tokens]
    exact scans_quoted s
  | .array items => by
    rw [render, tokens]
    exact ((scans_renderItems items).continues rfl).scans
  | .object members => by
    rw [render, tokens]
    exact ((scans_renderMembers members).continues rfl).scans

private theorem scans_renderItems : (items : List Json) → Scans (renderItems items) (itemTokens items)
  | [] => (Scans.nil.continues rfl).scans
  | item :: rest => by
    rw [renderItems, itemTokens]
    exact (scans_render item).append (continues_renderMoreItems rest)

private theorem continues_renderMoreItems :
    (items : List Json) → Continues (renderMoreItems items) (moreItemTokens items)
  | [] => Scans.nil.continues rfl
  | item :: rest => by
    rw [renderMoreItems, moreItemTokens]
    exact ((scans_render item).append (continues_renderMoreItems rest)).continues rfl

private theorem scans_renderMembers :
    (members : List (Option String × Json)) → Scans (renderMembers members) (memberTokens members)
  | [] => (Scans.nil.continues rfl).scans
  | (key, value) :: rest => by
    rw [renderMembers, memberTokens, List.append_assoc]
    exact ((scans_render value).append (continues_renderMoreMembers rest)).member key

private theorem continues_renderMoreMembers :
    (members : List (Option String × Json)) → Continues (renderMoreMembers members) (moreMemberTokens members)
  | [] => Scans.nil.continues rfl
  | (key, value) :: rest => by
    rw [renderMoreMembers, moreMemberTokens, List.append_assoc, List.cons_append]
    exact (((scans_render value).append (continues_renderMoreMembers rest)).member key).continues rfl

end

private theorem tokens?_render (j : Json) : tokens? j.render = some j.tokens := by
  obtain ⟨s, hs, hsettle⟩ := scans_render j []
  rw [tokens?, hs]
  show s.finish = _
  rw [finish_eq_settle, hsettle]
  simp

/-! ### The reader -/

/-- In an array without items the tokens of a value are read as anywhere else. -/
private theorem foldlM_firstItem {frames : List Frame} {v : Json}
    (h : ts.foldlM Reader.step ⟨.value, .array [] :: frames⟩ = some ⟨.after v, .array [] :: frames⟩) :
    ts.foldlM Reader.step ⟨.firstItem, frames⟩ = some ⟨.after v, .array [] :: frames⟩ := by
  cases ts with
  | nil => cases h
  | cons t ts =>
    have hstep : Reader.step ⟨.firstItem, frames⟩ t = Reader.step ⟨.value, .array [] :: frames⟩ t := by
      refine if_neg ?_
      rintro rfl
      cases h
    rw [List.foldlM_cons, hstep]
    exact h

mutual

private theorem foldlM_tokens : (j : Json) → (frames : List Frame) →
    j.tokens.foldlM Reader.step ⟨.value, frames⟩ = some ⟨.after j, frames⟩
  | .null, _ | .bool _, _ | .number _, _ | .text _, _ => rfl
  | .array items, frames => by
    rw [tokens, List.foldlM_cons]
    exact foldlM_itemTokens items frames
  | .object members, frames => by
    rw [tokens, List.foldlM_cons]
    exact foldlM_memberTokens members frames

private theorem foldlM_itemTokens : (items : List Json) → (frames : List Frame) →
    (itemTokens items).foldlM Reader.step ⟨.firstItem, frames⟩ = some ⟨.after (.array items), frames⟩
  | [], _ => rfl
  | item :: rest, frames => by
    rw [itemTokens, List.foldlM_append, foldlM_firstItem (foldlM_tokens item _)]
    exact foldlM_moreItemTokens rest [] item frames

/-- The items after the first are added to those that have been read. -/
private theorem foldlM_moreItemTokens : (items read : List Json) → (last : Json) → (frames : List Frame) →
    (moreItemTokens items).foldlM Reader.step ⟨.after last, .array read :: frames⟩ =
      some ⟨.after (.array (read.reverse ++ last :: items)), frames⟩
  | [], read, last, frames => by
    rw [← List.reverse_cons]
    rfl
  | item :: rest, read, last, frames => by
    rw [moreItemTokens]
    show ((item.tokens ++ moreItemTokens rest).foldlM Reader.step ⟨.value, .array (last :: read) :: frames⟩) = _
    rw [List.foldlM_append, foldlM_tokens item]
    have hrest := foldlM_moreItemTokens rest (last :: read) item frames
    rw [List.reverse_cons, List.append_assoc] at hrest
    exact hrest

private theorem foldlM_memberTokens : (members : List (Option String × Json)) → (frames : List Frame) →
    (memberTokens members).foldlM Reader.step ⟨.firstKey, frames⟩ = some ⟨.after (.object members), frames⟩
  | [], _ => rfl
  | (key, value) :: rest, frames => by
    rw [memberTokens]
    show ((value.tokens ++ moreMemberTokens rest).foldlM Reader.step ⟨.value, .object [] key :: frames⟩) = _
    rw [List.foldlM_append, foldlM_tokens value]
    exact foldlM_moreMemberTokens rest [] key value frames

/-- The members after the first are added to those that have been read. -/
private theorem foldlM_moreMemberTokens : (members read : List (Option String × Json)) → (key : Option String) →
    (last : Json) → (frames : List Frame) →
    (moreMemberTokens members).foldlM Reader.step ⟨.after last, .object read key :: frames⟩ =
      some ⟨.after (.object (read.reverse ++ (key, last) :: members)), frames⟩
  | [], read, key, last, frames => by
    rw [← List.reverse_cons]
    rfl
  | (next, value) :: rest, read, key, last, frames => by
    rw [moreMemberTokens]
    show ((value.tokens ++ moreMemberTokens rest).foldlM Reader.step
      ⟨.value, .object ((key, last) :: read) next :: frames⟩) = _
    rw [List.foldlM_append, foldlM_tokens value]
    have hrest := foldlM_moreMemberTokens rest ((key, last) :: read) next value frames
    rw [List.reverse_cons, List.append_assoc] at hrest
    exact hrest

end

/-- The value of its own compact text. -/
theorem parse?_toText (j : Json) : parse? j.toText = some j := by
  rw [parse?, toText, String.toList_ofList, tokens?_render]
  show (j.tokens.foldlM Reader.step {}).bind Reader.finish = some j
  rw [foldlM_tokens j []]
  rfl

end Ia32Wasm.Json
