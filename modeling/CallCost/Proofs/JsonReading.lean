import CallCost.Json.Reader
import CallCost.Proofs.DecimalValues
import CallCost.Proofs.JsonWriting
import CallCost.Proofs.Numerals
import Mathlib.Tactic.SplitIfs

/-!
The compact text of a JSON value is read back as the value if all its numbers are safe whole
numbers. So the JSON text of a forest of such numbers is JSON, and it loses nothing.
-/

namespace CallCost
namespace Json

/-! ### Strings -/

theorem unit?_control {n : Nat} (h : n < 0x20) :
    unit? '0' '0' (Nat.digitChar (n / 16)) (Nat.digitChar (n % 16)) = some n := by
  decide +revert

/-- The characters that stand for a character are read as that character. -/
theorem readString_escape (c : Char) (done rest : List Char) :
    readString none done (escape c ++ rest) = readString none (c :: done) rest := by
  unfold escape
  split_ifs with quote backslash h h h h h control
  any_goals subst h; rfl
  · subst quote
    rfl
  · subst backslash
    rfl
  · have basic : addUnit none done c.toNat = (none, c :: done) := by
      rw [addUnit, if_neg (by omega), if_neg (by omega), Char.ofNat_toNat]
      rfl
    simp only [List.cons_append, List.nil_append, readString, unit?_control control, basic]
  · rw [List.singleton_append, readString]
    · rw [if_neg (not_or.2 ⟨backslash, control⟩)]
      rfl
    · exact quote
    · exact fun _ _ _ _ _ h => absurd h backslash
    · exact fun _ _ h => absurd h backslash

theorem readString_quote (s : List Char) (done rest : List Char) :
    readString none done (s.flatMap escape ++ '"' :: rest) =
      .ok (String.ofList (done.reverse ++ s), rest) := by
  induction s generalizing done with
  | nil => simp [readString, settle]
  | cons c s ih => simp [readString_escape, ih]

/-! ### Numerals -/

/-- What may stand behind a value: nothing, or a character that separates or closes. -/
def Delimited : List Char → Prop
  | [] => True
  | c :: _ => c = ',' ∨ c = ']' ∨ c = '\x7d'

theorem Delimited.takeWhile_isDigit {rest : List Char} (h : Delimited rest) :
    rest.takeWhile Char.isDigit = [] := by
  cases rest with
  | nil => rfl
  | cons c rest => obtain rfl | rfl | rfl := h <;> rfl

theorem Delimited.dropWhile_isDigit {rest : List Char} (h : Delimited rest) :
    rest.dropWhile Char.isDigit = rest := by
  cases rest with
  | nil => rfl
  | cons c rest => obtain rfl | rfl | rfl := h <;> rfl

theorem Delimited.readExponent? {rest : List Char} (h : Delimited rest) :
    readExponent? rest = some (0, rest) := by
  cases rest with
  | nil => rfl
  | cons c rest => obtain rfl | rfl | rfl := h <;> rfl

theorem readNumber?_toDigits (n : Nat) {rest : List Char} (after : Delimited rest) :
    readNumber? false (Nat.toDigits 10 n ++ rest) = some (.ofNat n, rest) := by
  have digits : ∀ c ∈ Nat.toDigits 10 n, c.isDigit = true := fun c => isDigit_of_mem_toDigits
  have plain : (Nat.toDigits 10 n).head? = some '0' → (Nat.toDigits 10 n).length = 1 := by
    intro zero
    rw [zero_of_head?_toDigits zero]
    rfl
  have exponent := after.readExponent?
  have value : (Decimal.ofDigits (Nat.toDigits 10 n) [] 0).toBinary64 false = .ofNat n := by
    rw [Decimal.ofDigits_toDigits, Decimal.toBinary64_natural]
  have accepted : guard (Nat.toDigits 10 n ≠ [] ∧
      ((Nat.toDigits 10 n).head? = some '0' → (Nat.toDigits 10 n).length = 1)) = some () :=
    if_pos ⟨Nat.toDigits_ne_nil, plain⟩
  rw [readNumber?, List.takeWhile_append_of_pos digits, List.dropWhile_append_of_pos digits,
    after.takeWhile_isDigit, after.dropWhile_isDigit, List.append_nil]
  dsimp only
  rw [accepted]
  -- What ends the numeral is no point.
  cases rest with
  | nil => simp [exponent, value]
  | cons c rest => obtain rfl | rfl | rfl := after <;> simp [exponent, value]

/-- The character is neither blank nor the end of an array. -/
def Opens (c : Char) : Prop :=
  c ≠ ' ' ∧ c ≠ '\t' ∧ c ≠ '\n' ∧ c ≠ '\r' ∧ c ≠ ']'

instance (c : Char) : Decidable (Opens c) :=
  inferInstanceAs (Decidable (_ ∧ _))

theorem skipBlank_cons {c : Char} (h : Opens c) (rest : List Char) :
    skipBlank (c :: rest) = c :: rest := by
  obtain ⟨space, tab, feed, carriage, _⟩ := h
  simp [skipBlank, space, tab, feed, carriage]

theorem opens_of_isDigit {c : Char} (h : c.isDigit = true) : Opens c := by
  refine ⟨?_, ?_, ?_, ?_, ?_⟩ <;> rintro rfl <;> cases h

/-- A value whose text begins with a digit is a numeral. -/
theorem readValue_digit {c : Char} (digit : c.isDigit = true) (fuel : Nat) (rest : List Char) :
    readValue (fuel + 1) (c :: rest) = readNumber (c :: rest) := by
  rw [readValue, skipBlank_cons (opens_of_isDigit digit)]
  split
  case h_7 => rfl
  all_goals
    rename_i h
    cases h
    cases digit

theorem numberText_eq_toDigits {n : Binary64} (safe : n.IsSafe) :
    numberText n = Nat.toDigits 10 n.whole := by
  rw [numberText_eq safe.isAmount.finite, safe.toList_text]

theorem readValue_numberText {n : Binary64} (safe : n.IsSafe) (fuel : Nat) {rest : List Char}
    (after : Delimited rest) :
    readValue (fuel + 1) (numberText n ++ rest) = .ok (.number n, rest) := by
  obtain ⟨c, digits, text, digit⟩ := exists_toDigits_eq_cons n.whole
  have number := readNumber?_toDigits n.whole after
  rw [← safe.2, text, List.cons_append] at number
  rw [numberText_eq_toDigits safe, text, List.cons_append, readValue_digit digit, readNumber,
    number]
  intro tail same
  cases same
  cases digit

/-! ### Values -/

mutual

/-- Every number in the value is a safe whole number. -/
def HasSafe : Json → Prop
  | number n => n.IsSafe
  | array items => ItemsSafe items
  | object fields => FieldsSafe fields
  | _ => True

def ItemsSafe : List Json → Prop
  | [] => True
  | item :: rest => HasSafe item ∧ ItemsSafe rest

def FieldsSafe : List (String × Json) → Prop
  | [] => True
  | (_, value) :: rest => HasSafe value ∧ FieldsSafe rest

end

theorem exists_render_eq_cons {j : Json} (safe : j.HasSafe) :
    ∃ c rest, render j = c :: rest ∧ Opens c := by
  cases j with
  | null => exact ⟨_, _, rfl, by decide⟩
  | bool b => cases b <;> exact ⟨_, _, rfl, by decide⟩
  | number n =>
      rw [HasSafe] at safe
      obtain ⟨c, digits, text, digit⟩ := exists_toDigits_eq_cons n.whole
      exact ⟨c, digits, by rw [render, numberText_eq_toDigits safe, text], opens_of_isDigit digit⟩
  | string s => exact ⟨_, _, rfl, by decide⟩
  | array items => exact ⟨'[', _, by rw [render], by decide⟩
  | object fields => exact ⟨'\x7b', _, by rw [render], by decide⟩

theorem exists_renderItems_eq_cons {items : List Json} (some_ : items ≠ [])
    (safe : ItemsSafe items) : ∃ c rest, renderItems items = c :: rest ∧ Opens c := by
  obtain ⟨item, items, rfl⟩ := List.exists_cons_of_ne_nil some_
  obtain ⟨c, rest, text, opens⟩ := exists_render_eq_cons safe.1
  cases items with
  | nil => exact ⟨c, rest, text, opens⟩
  | cons next items =>
      exact ⟨c, rest ++ ',' :: renderItems (next :: items), by simp [renderItems, text], opens⟩

theorem exists_renderFields_eq_cons {fields : List (String × Json)} (some_ : fields ≠ []) :
    ∃ rest, renderFields fields = '"' :: rest := by
  obtain ⟨⟨name, value⟩, fields, rfl⟩ := List.exists_cons_of_ne_nil some_
  cases fields with
  | nil => exact ⟨_, rfl⟩
  | cons => exact ⟨_, rfl⟩

theorem renderItems_more (item next : Json) (items : List Json) :
    renderItems (item :: next :: items) = render item ++ ',' :: renderItems (next :: items) :=
  renderItems.eq_3 item (next :: items) (List.cons_ne_nil next items)

theorem renderFields_more (name : String) (value : Json) (next : String × Json)
    (fields : List (String × Json)) :
    renderFields ((name, value) :: next :: fields) =
      quote name ++ ':' :: (render value ++ ',' :: renderFields (next :: fields)) :=
  renderFields.eq_3 name value (next :: fields) (List.cons_ne_nil next fields)

section
variable {fuel : Nat} {rest : List Char}

theorem readValue_array {items : List Json} (some_ : items ≠ []) (safe : ItemsSafe items)
    (read : readItems fuel [] (renderItems items ++ ']' :: rest) = .ok (items, rest)) :
    readValue (fuel + 1) (render (array items) ++ rest) = .ok (array items, rest) := by
  obtain ⟨c, text, front, opens⟩ := exists_renderItems_eq_cons some_ safe
  rw [front, List.cons_append] at read
  rw [render, front, List.cons_append, List.append_assoc, readValue, skipBlank_cons (by decide)]
  simp only [List.cons_append, List.nil_append, skipBlank_cons opens]
  split
  · rename_i h
    cases h
    exact absurd rfl opens.2.2.2.2
  · rw [read]
    rfl

theorem readValue_object {fields : List (String × Json)} (some_ : fields ≠ [])
    (read : readFields fuel [] (renderFields fields ++ '\x7d' :: rest) = .ok (fields, rest)) :
    readValue (fuel + 1) (render (object fields) ++ rest) = .ok (object fields, rest) := by
  obtain ⟨text, front⟩ := exists_renderFields_eq_cons some_
  rw [front, List.cons_append] at read
  rw [render, front, List.cons_append, List.append_assoc, readValue, skipBlank_cons (by decide)]
  simp [skipBlank, read, Except.map]

theorem readFields_last {name : String} {value : Json} {text : List Char}
    (read : readValue fuel (text ++ '\x7d' :: rest) = .ok (value, '\x7d' :: rest))
    (done : List (String × Json)) :
    readFields (fuel + 1) done (quote name ++ ':' :: (text ++ '\x7d' :: rest)) =
      .ok (((name, value) :: done).reverse, rest) := by
  have named := readString_quote name.toList [] (':' :: (text ++ '\x7d' :: rest))
  rw [quote, List.cons_append, List.append_assoc, readFields, skipBlank_cons (by decide)]
  simp [named, read, skipBlank]

theorem readFields_more {name : String} {value : Json} {text : List Char}
    (read : readValue fuel (text ++ ',' :: rest) = .ok (value, ',' :: rest))
    (done : List (String × Json)) :
    readFields (fuel + 1) done (quote name ++ ':' :: (text ++ ',' :: rest)) =
      readFields fuel ((name, value) :: done) rest := by
  have named := readString_quote name.toList [] (':' :: (text ++ ',' :: rest))
  rw [quote, List.cons_append, List.append_assoc, readFields, skipBlank_cons (by decide)]
  simp [named, read, skipBlank]

end

/-- With so much fuel the readers get through what is written with fewer characters. -/
structure ReadsBack (fuel : Nat) : Prop where
  value : ∀ {j : Json}, j.HasSafe → (render j).length ≤ fuel → ∀ (rest : List Char),
    Delimited rest → readValue fuel (render j ++ rest) = .ok (j, rest)
  items : ∀ {items : List Json}, items ≠ [] → ItemsSafe items →
    (renderItems items).length < fuel → ∀ (done : List Json) (rest : List Char),
      readItems fuel done (renderItems items ++ ']' :: rest) = .ok (done.reverse ++ items, rest)
  fields : ∀ {fields : List (String × Json)}, fields ≠ [] → FieldsSafe fields →
    (renderFields fields).length < fuel → ∀ (done : List (String × Json)) (rest : List Char),
      readFields fuel done (renderFields fields ++ '\x7d' :: rest) =
        .ok (done.reverse ++ fields, rest)

theorem readsBack_zero : ReadsBack 0 where
  value := by
    intro j safe enough
    obtain ⟨c, rest, text, _⟩ := exists_render_eq_cons safe
    rw [text] at enough
    cases enough
  items := fun _ _ enough => absurd enough (Nat.not_lt_zero _)
  fields := fun _ _ enough => absurd enough (Nat.not_lt_zero _)

theorem ReadsBack.succ {fuel : Nat} (h : ReadsBack fuel) : ReadsBack (fuel + 1) where
  value := by
    intro j safe enough rest after
    cases j with
    | null => rfl
    | bool b => cases b <;> rfl
    | number n =>
        rw [HasSafe] at safe
        rw [render, readValue_numberText safe fuel after]
    | string s =>
        have body := readString_quote s.toList [] rest
        rw [render, quote, List.cons_append, List.append_assoc, readValue,
          skipBlank_cons (by decide)]
        simp [body, Except.map]
    | array items =>
        by_cases some_ : items = []
        · subst some_
          rfl
        · rw [HasSafe] at safe
          apply readValue_array some_ safe
          apply h.items some_ safe
          simp only [render, List.length_cons, List.length_append, List.length_nil] at enough
          omega
    | object fields =>
        by_cases some_ : fields = []
        · subst some_
          rfl
        · rw [HasSafe] at safe
          apply readValue_object some_
          apply h.fields some_ safe
          simp only [render, List.length_cons, List.length_append, List.length_nil] at enough
          omega
  items := by
    intro items some_ safe enough done rest
    obtain ⟨item, items, rfl⟩ := List.exists_cons_of_ne_nil some_
    obtain ⟨own, beside⟩ := safe
    cases items with
    | nil =>
        rw [renderItems] at enough ⊢
        have value := h.value own (by omega) (']' :: rest) (.inr (.inl rfl))
        simp [readItems, value, skipBlank]
    | cons next items =>
        rw [renderItems_more, List.length_append, List.length_cons] at enough
        have value := h.value own (by omega)
          (',' :: (renderItems (next :: items) ++ ']' :: rest)) (.inl rfl)
        have others := h.items (List.cons_ne_nil next items) beside (by omega) (item :: done) rest
        rw [renderItems_more, List.append_assoc, List.cons_append, readItems, value]
        simp [skipBlank, others]
  fields := by
    intro fields some_ safe enough done rest
    obtain ⟨⟨name, value⟩, fields, rfl⟩ := List.exists_cons_of_ne_nil some_
    obtain ⟨own, beside⟩ := safe
    cases fields with
    | nil =>
        rw [renderFields, List.length_append, List.length_cons] at enough
        have read := h.value own (by omega) ('\x7d' :: rest) (.inr (.inr rfl))
        rw [renderFields, List.append_assoc, List.cons_append, readFields_last read,
          List.reverse_cons]
    | cons next fields =>
        rw [renderFields_more, List.length_append, List.length_cons, List.length_append,
          List.length_cons] at enough
        have read := h.value own (by omega)
          (',' :: (renderFields (next :: fields) ++ '\x7d' :: rest)) (.inl rfl)
        have others := h.fields (List.cons_ne_nil next fields) beside (by omega)
          ((name, value) :: done) rest
        rw [renderFields_more, List.append_assoc, List.cons_append, List.append_assoc,
          List.cons_append, readFields_more read, others, List.reverse_cons, List.append_assoc]
        rfl

theorem readsBack (fuel : Nat) : ReadsBack fuel := by
  induction fuel with
  | zero => exact readsBack_zero
  | succ fuel ih => exact ih.succ

/-- A value is read back from its text. -/
theorem read_text {j : Json} (safe : j.HasSafe) : read j.text = .ok j := by
  have text : j.text.toList = render j := String.toList_ofList
  have whole := (readsBack (2 * j.text.length + 2)).value safe
    (by rw [← text, String.length_toList]; omega) [] trivial
  rw [List.append_nil, ← text] at whole
  simp [read, whole, skipBlank]

end Json

namespace Forest

theorem itemsSafe_toJsonList {f : Forest} (safe : f.Each Node.HasSafe) :
    Json.ItemsSafe f.toJsonList := by
  induction f with
  | nil => exact trivial
  | cons label calls cycles children siblings ihc ihs =>
      obtain ⟨own, below, beside⟩ := safe
      have selfCycles := Node.isSafe_selfCycles own.cycles fun child hc =>
        (below.mem_nodes child hc).cycles
      have fields := And.intro own.calls (And.intro own.cycles (And.intro selfCycles (ihc below)))
      exact ⟨by simpa [Json.HasSafe, Json.FieldsSafe] using fields, ihs beside⟩

/-- The JSON items show everything that the forest has. -/
theorem toJsonList_injective {f g : Forest} (h : f.toJsonList = g.toJsonList) : f = g := by
  induction f generalizing g with
  | nil =>
      cases g with
      | nil => rfl
      | cons => cases h
  | cons label calls cycles children siblings ihc ihs =>
      cases g with
      | nil => cases h
      | cons =>
          simp only [toJsonList, List.cons.injEq, Json.object.injEq, Prod.mk.injEq,
            Json.string.injEq, Json.number.injEq, Json.array.injEq, true_and, and_true] at h
          obtain ⟨⟨rfl, rfl, rfl, _, below⟩, beside⟩ := h
          rw [ihc below, ihs beside]

/-- The JSON text of a forest of safe whole numbers is read as the JSON value of the forest, and
no other such forest has this text. -/
theorem read_jsonText {f : Forest} (safe : f.Each Node.HasSafe) :
    Json.read f.jsonText = .ok f.toJson ∧
      ∀ g : Forest, g.Each Node.HasSafe → g.jsonText = f.jsonText → g = f := by
  have readBack : ∀ g : Forest, g.Each Node.HasSafe → Json.read g.jsonText = .ok g.toJson := by
    intro g safe
    rw [jsonText_eq (safe.imp fun _ => Node.HasSafe.hasAmounts)]
    apply Json.read_text
    rw [toJson, Json.HasSafe]
    exact itemsSafe_toJsonList safe
  refine ⟨readBack f safe, fun g safe' same => ?_⟩
  have values := readBack g safe'
  rw [same, readBack f safe, Except.ok.injEq, toJson, toJson, Json.array.injEq] at values
  exact (toJsonList_injective values).symm

/-- Labels that need every kind of escape, the largest safe number, a root that repeats a label
and children that cost more than their parent. -/
theorem read_jsonText_escapes :
    let n := Binary64.ofNat
    let f : Forest :=
      .cons "a\"\\/" (n 2) (n 7)
        (.cons "\n\t\x01" (n 1) (n 9007199254740991) .nil
          (.cons "" (n 0) (n 1) (.cons "é" (n 0) (n 0) .nil .nil) .nil))
        (.cons "a\"\\/" (n 10) (n 0) .nil .nil)
    f.Each Node.HasSafe ∧ Json.read f.jsonText = .ok f.toJson := by
  intro n f
  have safe : f.Each Node.HasSafe := by decide +kernel
  exact ⟨safe, (read_jsonText safe).1⟩

end Forest
end CallCost
