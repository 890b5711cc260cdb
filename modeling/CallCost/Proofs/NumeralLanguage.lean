import CallCost.Proofs.DecimalValues
import CallCost.Settings.Numeral
import Mathlib.Data.List.TakeWhile
import Mathlib.Data.Nat.Digits.Defs
import Mathlib.Data.Option.Basic

/-!
The language of numerals in settings and what its words stand for. A numeral has an exact value,
which may be any fraction of a power of ten, and reading gives the number for that value.
-/

namespace CallCost.Settings

open Binary64

/-- An optional sign. -/
inductive SignText : List Char → Bool → Prop where
  | absent : SignText [] false
  | plus : SignText ['+'] false
  | minus : SignText ['-'] true

/-- A point and the digits behind it, or neither. -/
inductive FractionText : List Char → List Char → Prop where
  | absent : FractionText [] []
  | point {digits : List Char} (all_digits : ∀ c ∈ digits, c.isDigit = true) :
      FractionText ('.' :: digits) digits

/-- An integer: an optional sign and one digit or more. -/
inductive IntegerText : List Char → ℤ → Prop where
  | digits {sign digits : List Char} {negative : Bool} (signed : SignText sign negative)
      (some_ : digits ≠ []) (all_digits : ∀ c ∈ digits, c.isDigit = true) :
      IntegerText (sign ++ digits)
        (if negative then -(Nat.ofDigitChars 10 digits 0 : ℤ) else Nat.ofDigitChars 10 digits 0)

/-- An optional power of ten. -/
inductive ExponentText : List Char → ℤ → Prop where
  | absent : ExponentText [] 0
  | marked {mark : Char} {text : List Char} {exponent : ℤ} (mark_eq : mark = 'e' ∨ mark = 'E')
      (spelled : IntegerText text exponent) : ExponentText (mark :: text) exponent

/-- The decimal numerals without a sign and their values. -/
inductive DecimalText : List Char → ℚ → Prop where
  | parts {whole point fraction tail : List Char} {exponent : ℤ}
      (whole_digits : ∀ c ∈ whole, c.isDigit = true) (pointed : FractionText point fraction)
      (some_ : whole ≠ [] ∨ fraction ≠ []) (scaled : ExponentText tail exponent) :
      DecimalText (whole ++ point ++ tail)
        ((Nat.ofDigitChars 10 whole 0 +
          Nat.ofDigitChars 10 fraction 0 / 10 ^ fraction.length) * 10 ^ exponent)

/-- The mark of a base, in either case. -/
def IsBaseMark (mark : Char) (base : ℕ) : Prop :=
  (mark = 'x' ∨ mark = 'X') ∧ base = 16 ∨ (mark = 'o' ∨ mark = 'O') ∧ base = 8 ∨
    (mark = 'b' ∨ mark = 'B') ∧ base = 2

/-- Digits in a base and the number they are written for, the first of them counting most. -/
def IsBaseText (base : ℕ) (digits : List Char) (n : ℕ) : Prop :=
  ∃ values : List ℕ, digits.map digitValue? = values.map some ∧ (∀ v ∈ values, v < base) ∧
    n = Nat.ofDigits base values.reverse

/-- The numerals with an exact value: decimal ones and whole numbers in another base. -/
inductive ExactText : List Char → Bool → ℚ → Prop where
  | decimal {sign text : List Char} {negative : Bool} {magnitude : ℚ}
      (signed : SignText sign negative) (unsigned : DecimalText text magnitude) :
      ExactText (sign ++ text) negative magnitude
  | based {mark : Char} {digits : List Char} {base n : ℕ} (marked : IsBaseMark mark base)
      (some_ : digits ≠ []) (written : IsBaseText base digits n) :
      ExactText ('0' :: mark :: digits) false n

/-- A text without white space around it is read as a number. -/
inductive ReadsAs : List Char → Binary64 → Prop where
  | infinity {sign : List Char} {negative : Bool} (signed : SignText sign negative) :
      ReadsAs (sign ++ "Infinity".toList) (.infinite negative)
  | number {text : List Char} {negative : Bool} {magnitude : ℚ} {x : Binary64}
      (exact_ : ExactText text negative magnitude) (rounded : IsNumberFor negative magnitude x) :
      ReadsAs text x

/-! ### Runs of digits -/

/-- What may stand behind a run of digits. -/
def EndsDigits (rest : List Char) : Prop :=
  ∀ c, rest.head? = some c → c.isDigit = false

theorem endsDigits_nil : EndsDigits [] :=
  fun _ h => by cases h

theorem endsDigits_cons {c : Char} (h : c.isDigit = false) (rest : List Char) :
    EndsDigits (c :: rest) :=
  fun _ same => by cases same; exact h

theorem takeWhile_isDigit_append {digits rest : List Char}
    (all_digits : ∀ c ∈ digits, c.isDigit = true) (ends : EndsDigits rest) :
    (digits ++ rest).takeWhile Char.isDigit = digits := by
  rw [List.takeWhile_append_of_pos all_digits]
  cases rest with
  | nil => rw [List.takeWhile_nil, List.append_nil]
  | cons c rest =>
      rw [List.takeWhile_cons_of_neg (by simp [ends c rfl]), List.append_nil]

theorem dropWhile_isDigit_append {digits rest : List Char}
    (all_digits : ∀ c ∈ digits, c.isDigit = true) (ends : EndsDigits rest) :
    (digits ++ rest).dropWhile Char.isDigit = rest := by
  rw [List.dropWhile_append_of_pos all_digits]
  cases rest with
  | nil => rfl
  | cons c rest => exact List.dropWhile_cons_of_neg (by simp [ends c rfl])

theorem ExponentText.endsDigits {text : List Char} {exponent : ℤ}
    (h : ExponentText text exponent) : EndsDigits text := by
  cases h with
  | absent => exact endsDigits_nil
  | marked mark_eq _ => obtain rfl | rfl := mark_eq <;> exact endsDigits_cons rfl _

theorem FractionText.endsDigits {text digits tail : List Char} (h : FractionText text digits)
    (ends : EndsDigits tail) : EndsDigits (text ++ tail) := by
  cases h with
  | absent => exact ends
  | point _ => exact endsDigits_cons rfl _

/-! ### Signs -/

/-- The text does not begin with a sign. -/
def IsUnsigned (text : List Char) : Prop :=
  ∀ c, text.head? = some c → c ≠ '-' ∧ c ≠ '+'

theorem isUnsigned_of_isDigit {digits : List Char} (all_digits : ∀ c ∈ digits, c.isDigit = true) :
    IsUnsigned digits := by
  intro c first
  have digit := all_digits c (List.mem_of_head? first)
  constructor <;> rintro rfl <;> cases digit

/-- A text is an optional sign and what follows it. -/
theorem exists_signText (text : List Char) :
    ∃ sign rest negative, text = sign ++ rest ∧ SignText sign negative ∧
      (sign = [] → IsUnsigned rest) := by
  cases text with
  | nil => exact ⟨[], [], false, rfl, .absent, fun _ _ first => by cases first⟩
  | cons c rest =>
      by_cases minus : c = '-'
      · subst minus
        exact ⟨['-'], rest, true, rfl, .minus, fun none_ => by cases none_⟩
      by_cases plus : c = '+'
      · subst plus
        exact ⟨['+'], rest, false, rfl, .plus, fun none_ => by cases none_⟩
      · refine ⟨[], c :: rest, false, rfl, .absent, fun _ d first => ?_⟩
        cases first
        exact ⟨minus, plus⟩

/-! ### Exponents -/

theorem readExponent?_marked {mark : Char} {sign rest : List Char} {negative : Bool}
    (mark_eq : mark = 'e' ∨ mark = 'E') (signed : SignText sign negative)
    (plain : sign = [] → IsUnsigned rest) :
    readExponent? (mark :: (sign ++ rest)) =
      if rest.takeWhile Char.isDigit = [] then none
      else some (if negative then -(Nat.ofDigitChars 10 (rest.takeWhile Char.isDigit) 0 : ℤ)
        else Nat.ofDigitChars 10 (rest.takeWhile Char.isDigit) 0, rest.dropWhile Char.isDigit) := by
  rw [readExponent?.eq_def]
  simp only [if_pos mark_eq]
  cases signed with
  | plus => rfl
  | minus => rfl
  | absent =>
      rw [List.nil_append]
      split
      · exact absurd rfl (plain rfl '-' rfl).1
      · exact absurd rfl (plain rfl '+' rfl).2
      · rfl

theorem readExponent?_eq_some_nil_iff {text : List Char} {exponent : ℤ} :
    readExponent? text = some (exponent, []) ↔ ExponentText text exponent := by
  constructor
  · intro h
    cases text with
    | nil =>
        cases h
        exact .absent
    | cons mark rest =>
        by_cases mark_eq : mark = 'e' ∨ mark = 'E'
        · obtain ⟨sign, digits, negative, rfl, signed, plain⟩ := exists_signText rest
          rw [readExponent?_marked mark_eq signed plain] at h
          split at h
          · cases h
          · rename_i some_
            rw [Option.some.injEq, Prod.mk.injEq] at h
            obtain ⟨rfl, none_left⟩ := h
            have split : digits.takeWhile Char.isDigit ++ digits.dropWhile Char.isDigit = digits :=
              List.takeWhile_append_dropWhile
            rw [none_left, List.append_nil] at split
            rw [split] at some_ ⊢
            exact .marked mark_eq (.digits signed some_ (List.dropWhile_eq_nil_iff.1 none_left))
        · rw [readExponent?.eq_def] at h
          simp only [if_neg mark_eq] at h
          cases h
  · intro h
    cases h with
    | absent => rfl
    | marked mark_eq spelled =>
        obtain ⟨signed, some_, all_digits⟩ := spelled
        have run := takeWhile_isDigit_append all_digits endsDigits_nil
        have rest := dropWhile_isDigit_append all_digits endsDigits_nil
        rw [List.append_nil] at run rest
        rw [readExponent?_marked mark_eq signed fun _ => isUnsigned_of_isDigit all_digits, run,
          rest, if_neg some_]

/-! ### Decimal numerals -/

theorem value_ofDigits (whole fraction : List Char) (exponent : ℤ) :
    (Decimal.ofDigits whole fraction exponent).value =
      (Nat.ofDigitChars 10 whole 0 +
        Nat.ofDigitChars 10 fraction 0 / 10 ^ fraction.length) * 10 ^ exponent := by
  have ten_ne : (10 : ℚ) ≠ 0 := by norm_num
  rw [Decimal.value, Decimal.ofDigits, Nat.ofDigitChars_append,
    Nat.ofDigitChars_eq_ofDigitChars_zero, zpow_sub₀ ten_ne, zpow_natCast]
  push_cast
  field_simp

/-- The digits behind a point at the beginning, if there is one, and what follows. -/
def splitFraction : List Char → List Char × List Char
  | '.' :: rest => (rest.takeWhile Char.isDigit, rest.dropWhile Char.isDigit)
  | rest => ([], rest)

theorem splitFraction_append {point fraction tail : List Char} {exponent : ℤ}
    (pointed : FractionText point fraction) (scaled : ExponentText tail exponent) :
    splitFraction (point ++ tail) = (fraction, tail) := by
  cases pointed with
  | absent =>
      cases scaled with
      | absent => rfl
      | marked mark_eq _ => obtain rfl | rfl := mark_eq <;> rfl
  | point all_digits =>
      rw [List.cons_append, splitFraction, takeWhile_isDigit_append all_digits scaled.endsDigits,
        dropWhile_isDigit_append all_digits scaled.endsDigits]

theorem exists_fractionText (text : List Char) :
    ∃ point, text = point ++ (splitFraction text).2 ∧
      FractionText point (splitFraction text).1 := by
  rw [splitFraction.eq_def]
  split
  · rename_i rest
    refine ⟨'.' :: rest.takeWhile Char.isDigit, ?_, .point fun c hc => List.mem_takeWhile_imp hc⟩
    rw [List.cons_append, List.takeWhile_append_dropWhile]
  · exact ⟨[], rfl, .absent⟩

theorem readDecimal?_eq_some_iff {negative : Bool} {text : List Char} {x : Binary64} :
    readDecimal? negative text = some x ↔
      (text.takeWhile Char.isDigit ≠ [] ∨ (splitFraction (text.dropWhile Char.isDigit)).1 ≠ []) ∧
        ∃ exponent,
          readExponent? (splitFraction (text.dropWhile Char.isDigit)).2 = some (exponent, []) ∧
          x = (Decimal.ofDigits (text.takeWhile Char.isDigit)
            (splitFraction (text.dropWhile Char.isDigit)).1 exponent).toBinary64 negative := by
  change (do
    guard (text.takeWhile Char.isDigit ≠ [] ∨ (splitFraction (text.dropWhile Char.isDigit)).1 ≠ [])
    let read ← readExponent? (splitFraction (text.dropWhile Char.isDigit)).2
    guard (read.2 = [])
    some ((Decimal.ofDigits (text.takeWhile Char.isDigit)
      (splitFraction (text.dropWhile Char.isDigit)).1 read.1).toBinary64 negative)) = some x ↔ _
  simp only [Option.bind_eq_bind, Option.bind_eq_some_iff, Prod.exists, Option.guard_eq_some',
    exists_const, Option.some.injEq]
  constructor
  · rintro ⟨some_, exponent, _, read, rfl, rfl⟩
    exact ⟨some_, exponent, read, rfl⟩
  · rintro ⟨some_, exponent, read, rfl⟩
    exact ⟨some_, exponent, [], read, rfl, rfl⟩

/-- Just the decimal numerals are read, and each as the number for its value. -/
theorem readDecimal?_iff {negative : Bool} {text : List Char} {x : Binary64} :
    readDecimal? negative text = some x ↔
      ∃ magnitude, DecimalText text magnitude ∧ IsNumberFor negative magnitude x := by
  rw [readDecimal?_eq_some_iff]
  constructor
  · rintro ⟨some_, exponent, read, number⟩
    obtain ⟨point, behind, pointed⟩ := exists_fractionText (text.dropWhile Char.isDigit)
    have split : text = text.takeWhile Char.isDigit ++ point ++
        (splitFraction (text.dropWhile Char.isDigit)).2 := by
      rw [List.append_assoc, ← behind, List.takeWhile_append_dropWhile]
    have spelled := DecimalText.parts (fun c hc => List.mem_takeWhile_imp hc) pointed some_
      (readExponent?_eq_some_nil_iff.1 read)
    rw [← split, ← value_ofDigits] at spelled
    exact ⟨_, spelled, Decimal.isNumberFor_value_iff.2 number⟩
  · rintro ⟨_, ⟨whole_digits, pointed, some_, scaled⟩, number⟩
    have ends := pointed.endsDigits scaled.endsDigits
    rw [← value_ofDigits, Decimal.isNumberFor_value_iff] at number
    rw [List.append_assoc, takeWhile_isDigit_append whole_digits ends,
      dropWhile_isDigit_append whole_digits ends, splitFraction_append pointed scaled]
    exact ⟨some_, _, readExponent?_eq_some_nil_iff.2 scaled, number⟩

theorem readUnsigned?_iff {negative : Bool} {text : List Char} {x : Binary64} :
    readUnsigned? negative text = some x ↔
      text = "Infinity".toList ∧ x = .infinite negative ∨
        ∃ magnitude, DecimalText text magnitude ∧ IsNumberFor negative magnitude x := by
  rw [readUnsigned?, ← readDecimal?_iff]
  split
  · rename_i word
    have no_decimal : readDecimal? negative text = none := by
      rw [word]
      rfl
    rw [no_decimal, Option.some.injEq]
    exact ⟨fun same => .inl ⟨word, same.symm⟩, fun h => (h.resolve_right (by simp)).2.symm⟩
  · rename_i other
    exact ⟨.inr, fun h => h.resolve_left fun both => other both.1⟩

/-! ### Whole numbers in another base -/

theorem foldl_eq_ofDigits (base : ℕ) (values : List ℕ) :
    values.foldl (fun value digit => value * base + digit) 0 =
      Nat.ofDigits base values.reverse := by
  rw [Nat.ofDigits_eq_foldr, List.foldr_reverse]
  congr 1
  funext value digit
  rw [Nat.cast_id, Nat.mul_comm, Nat.add_comm]

/-- What one more digit makes of a number. -/
def withDigit? (base value : ℕ) (c : Char) : Option ℕ := do
  let digit ← digitValue? c
  guard (digit < base)
  some (value * base + digit)

theorem withDigit?_eq_some_iff {base value next : ℕ} {c : Char} :
    withDigit? base value c = some next ↔
      ∃ digit, digitValue? c = some digit ∧ digit < base ∧ next = value * base + digit := by
  simp only [withDigit?, Option.bind_eq_bind, Option.bind_eq_some_iff, Option.guard_eq_some',
    Option.some.injEq, exists_const, eq_comm (a := next)]

theorem foldlM_withDigit?_iff {base start n : ℕ} {digits : List Char} :
    digits.foldlM (withDigit? base) start = some n ↔
      ∃ values : List ℕ, digits.map digitValue? = values.map some ∧ (∀ v ∈ values, v < base) ∧
        n = values.foldl (fun value digit => value * base + digit) start := by
  induction digits generalizing start with
  | nil =>
      rw [List.foldlM_nil, List.map_nil]
      constructor
      · intro same
        cases same
        exact ⟨[], rfl, by simp, rfl⟩
      · rintro ⟨values, none_, -, rfl⟩
        obtain rfl : values = [] := List.map_eq_nil_iff.1 none_.symm
        rfl
  | cons c digits ih =>
      rw [List.foldlM_cons, Option.bind_eq_bind, Option.bind_eq_some_iff]
      simp only [withDigit?_eq_some_iff, ih]
      constructor
      · rintro ⟨_, ⟨digit, read, below, rfl⟩, values, same, all_below, rfl⟩
        refine ⟨digit :: values, ?_, List.forall_mem_cons.2 ⟨below, all_below⟩, rfl⟩
        rw [List.map_cons, List.map_cons, read, same]
      · rintro ⟨values, same, all_below, rfl⟩
        cases values with
        | nil => cases same
        | cons digit values =>
            rw [List.map_cons, List.map_cons, List.cons.injEq] at same
            obtain ⟨below, all_below⟩ := List.forall_mem_cons.1 all_below
            exact ⟨_, ⟨digit, same.1, below, rfl⟩, values, same.2, all_below, rfl⟩

theorem digitsValue?_iff {base : ℕ} {digits : List Char} {n : ℕ} :
    digitsValue? base digits = some n ↔ IsBaseText base digits n := by
  simp only [IsBaseText, ← foldl_eq_ofDigits]
  exact foldlM_withDigit?_iff

theorem readBase?_iff {base : ℕ} {digits : List Char} {x : Binary64} :
    readBase? base digits = some x ↔
      digits ≠ [] ∧ ∃ n, IsBaseText base digits n ∧ IsNumberFor false n x := by
  simp only [readBase?, Option.bind_eq_bind, Option.bind_eq_some_iff, Option.guard_eq_some',
    Option.some.injEq, digitsValue?_iff, isNumberFor_ofNat_iff, exists_const, eq_comm (a := x)]

/-! ### All numerals -/

theorem readUnsigned?_sign {c : Char} (sign : c = '-' ∨ c = '+') (negative : Bool)
    (rest : List Char) : readUnsigned? negative (c :: rest) = none := by
  obtain rfl | rfl := sign <;> rfl

theorem readUnsigned?_base {mark : Char} {base : ℕ} (marked : IsBaseMark mark base)
    (negative : Bool) (digits : List Char) :
    readUnsigned? negative ('0' :: mark :: digits) = none := by
  obtain ⟨rfl | rfl, rfl⟩ | ⟨rfl | rfl, rfl⟩ | ⟨rfl | rfl, rfl⟩ := marked <;> rfl

/-- A numeral without a sign may get one; without one it is not taken for another base. -/
theorem readNumeral?_append {sign text : List Char} {negative : Bool} {x : Binary64}
    (signed : SignText sign negative) (unsigned : readUnsigned? negative text = some x) :
    readNumeral? (sign ++ text) = some x := by
  cases signed with
  | plus => exact unsigned
  | minus => exact unsigned
  | absent =>
      rw [List.nil_append, readNumeral?.eq_def]
      split
      · rename_i mark digits
        have unmarked {base : ℕ} : ¬IsBaseMark mark base := by
          intro marked
          rw [readUnsigned?_base marked] at unsigned
          cases unsigned
        rw [if_neg fun h => unmarked (.inl ⟨h, rfl⟩),
          if_neg fun h => unmarked (.inr (.inl ⟨h, rfl⟩)),
          if_neg fun h => unmarked (.inr (.inr ⟨h, rfl⟩))]
        exact unsigned
      · rw [readUnsigned?_sign (.inl rfl)] at unsigned
        cases unsigned
      · rw [readUnsigned?_sign (.inr rfl)] at unsigned
        cases unsigned
      · exact unsigned

theorem ReadsAs.of_unsigned {sign text : List Char} {negative : Bool} {x : Binary64}
    (signed : SignText sign negative) (unsigned : readUnsigned? negative text = some x) :
    ReadsAs (sign ++ text) x := by
  rcases readUnsigned?_iff.1 unsigned with ⟨rfl, rfl⟩ | ⟨magnitude, spelled, number⟩
  · exact .infinity signed
  · exact .number (.decimal signed spelled) number

theorem ReadsAs.of_base {mark : Char} {digits : List Char} {base : ℕ} {x : Binary64}
    (marked : IsBaseMark mark base) (read : readBase? base digits = some x) :
    ReadsAs ('0' :: mark :: digits) x := by
  obtain ⟨some_, n, written, number⟩ := readBase?_iff.1 read
  exact .number (.based marked some_ written) number

/-- Just the numerals are read, and each as the number for its value. -/
theorem readNumeral?_iff {text : List Char} {x : Binary64} :
    readNumeral? text = some x ↔ ReadsAs text x := by
  constructor
  · intro read
    rw [readNumeral?.eq_def] at read
    split at read
    · rename_i mark digits
      split at read
      · rename_i hex
        exact .of_base (.inl ⟨hex, rfl⟩) read
      · split at read
        · rename_i octal
          exact .of_base (.inr (.inl ⟨octal, rfl⟩)) read
        · split at read
          · rename_i binary
            exact .of_base (.inr (.inr ⟨binary, rfl⟩)) read
          · exact .of_unsigned .absent read
    · exact .of_unsigned .minus read
    · exact .of_unsigned .plus read
    · exact .of_unsigned .absent read
  · intro reads
    cases reads with
    | infinity signed => exact readNumeral?_append signed (readUnsigned?_iff.2 (.inl ⟨rfl, rfl⟩))
    | number exact_ rounded =>
        cases exact_ with
        | decimal signed spelled =>
            exact readNumeral?_append signed (readUnsigned?_iff.2 (.inr ⟨_, spelled, rounded⟩))
        | based marked some_ written =>
            have read := readBase?_iff.2 ⟨some_, _, written, rounded⟩
            obtain ⟨rfl | rfl, rfl⟩ | ⟨rfl | rfl, rfl⟩ | ⟨rfl | rfl, rfl⟩ := marked <;> exact read

/-! ### Integers -/

/-- An integer is written as it is printed. -/
theorem integerText_toString (k : ℤ) : IntegerText (toString k).toList k := by
  have printed (n : ℕ) : IntegerText (Nat.toDigits 10 n) n ∧
      IntegerText ('-' :: Nat.toDigits 10 n) (-n) := by
    have some_ : Nat.toDigits 10 n ≠ [] := Nat.toDigits_ne_nil
    have all_digits : ∀ c ∈ Nat.toDigits 10 n, c.isDigit = true :=
      fun c hc => Nat.isDigit_of_mem_toDigits (by decide) (by decide) hc
    have plain := IntegerText.digits .absent some_ all_digits
    have negated := IntegerText.digits .minus some_ all_digits
    rw [Nat.ofDigitChars_ten_toDigits] at plain negated
    exact ⟨plain, negated⟩
  rw [Int.toString_eq_repr]
  cases k with
  | ofNat n =>
      change IntegerText n.repr.toList n
      rw [Nat.repr_eq_ofList_toDigits, String.toList_ofList]
      exact (printed n).1
  | negSucc n =>
      change IntegerText ("-" ++ (n + 1).repr).toList (-(n + 1 : ℕ))
      rw [Nat.repr_eq_ofList_toDigits, String.toList_append]
      simp only [String.toList_ofList]
      exact (printed (n + 1)).2

/-- An integer of any size is read as the number for it. -/
theorem IntegerText.readsAs {text : List Char} {k : ℤ} (h : IntegerText text k) :
    ReadsAs text (.ofInt k) := by
  obtain @⟨_, digits, negative, signed, some_, all_digits⟩ := h
  have spelled := DecimalText.parts all_digits .absent (.inl some_) .absent
  have value : ((Nat.ofDigitChars 10 digits 0 : ℚ) +
      (Nat.ofDigitChars 10 [] 0 : ℕ) / 10 ^ ([] : List Char).length) * 10 ^ (0 : ℤ) =
      Nat.ofDigitChars 10 digits 0 := by
    simp
  rw [value, List.append_nil, List.append_nil] at spelled
  exact .number (.decimal signed spelled) (isNumberFor_natCast_iff.2 rfl)

end CallCost.Settings
