import CallCost.Proofs.TextConversion
import CallCost.Settings.Basic
import Mathlib.Data.Rat.Floor

/-!
Numeric settings. Any name and its other spellings select one variable, and whatever that holds, the
setting lies between its bounds: whole numbers are kept, other numbers go down to the next whole
one, and what is no finite number gives the default.
-/

namespace CallCost

/-! ### Names -/

namespace Text

/-- The texts differ at most in the case of ASCII letters. -/
def SameLetters (text other : List Char) : Prop :=
  text.map Char.toLower = other.map Char.toLower

instance (text other : List Char) : Decidable (SameLetters text other) :=
  inferInstanceAs (Decidable (_ = _))

theorem upperChar_toLower (c : Char) : upperChar c.toLower = upperChar c := by
  have capitals : ∀ n ∈ List.range' 65 26,
      upperChar (Char.ofNat n).toLower = upperChar (Char.ofNat n) := by
    decide +kernel
  by_cases capital : 65 ≤ c.toNat ∧ c.toNat ≤ 90
  · have same := capitals c.toNat (List.mem_range'_1.2 (by omega))
    rwa [Char.ofNat_toNat] at same
  · have kept : c.toLower = c := by
      refine dif_neg fun within => capital ?_
      exact ⟨UInt32.le_iff_toNat_le.1 within.1, UInt32.le_iff_toNat_le.1 within.2⟩
    rw [kept]

theorem SameLetters.upper_eq {text other : List Char} (h : SameLetters text other) :
    upper text = upper other := by
  have lowered (text : List Char) : upper (text.map Char.toLower) = upper text := by
    rw [upper, upper, List.flatMap_map]
    simp only [upperChar_toLower]
  rw [← lowered text, h, lowered]

end Text

namespace Settings

open Binary64 Text

theorem upper_variableStart : upper variableStart = variableStart := by
  decide +kernel

theorem variableName_of_not_start {name : String}
    (not_start : ¬variableStart <+: upper name.toList) :
    variableName name = String.ofList (variableStart ++ upper name.toList) := by
  rw [variableName]
  simp only [not_start, List.isPrefixOf_iff_prefix, if_false]

theorem variableName_of_start {name : String} (start : variableStart <+: upper name.toList) :
    variableName name = String.ofList (upper name.toList) := by
  rw [variableName]
  simp only [start, List.isPrefixOf_iff_prefix, if_true]

theorem variableName_eq_of_upper_eq {name other : String}
    (same : upper other.toList = upper name.toList) : variableName other = variableName name := by
  rw [variableName, variableName, same]

/-- A name and the same name behind the common start select one variable. -/
theorem variableName_eq_of_upper_eq_append {name other : String}
    (not_start : ¬variableStart <+: upper name.toList)
    (same : upper other.toList = upper (variableStart ++ name.toList)) :
    variableName other = variableName name := by
  have appended : upper other.toList = variableStart ++ upper name.toList := by
    rw [same, upper, List.flatMap_append]
    exact congrArg (· ++ _) upper_variableStart
  have start : variableStart <+: upper other.toList := appended ▸ List.prefix_append _ _
  rw [variableName_of_not_start not_start, variableName_of_start start, appended]

/-! ### What a variable holds -/

variable {env : Environment} {name text : String}

theorem get?_of_absent (absent : env (variableName name) = none) : get? env name = none := by
  rw [get?, absent]
  rfl

theorem get?_of_blank (held : env (variableName name) = some text)
    (blank : AllBlank text.toList) : get? env name = none := by
  rw [get?, held, Option.bind_eq_bind, Option.bind_some, trim_eq_nil_iff.2 blank]
  rfl

theorem get?_of_not_blank (held : env (variableName name) = some text)
    (not_blank : ¬AllBlank text.toList) :
    get? env name = some (String.ofList (trim text.toList)) := by
  have some_ : trim text.toList ≠ [] := fun none_left => not_blank (trim_eq_nil_iff.1 none_left)
  simp only [get?, held, Option.bind_eq_bind, Option.bind_some, guard, if_pos some_]
  rfl

/-- A number, if it is finite. -/
def finite? : Binary64 → Option Binary64
  | .finite units => some (.finite units)
  | _ => none

theorem finite?_eq_some_iff {x y : Binary64} :
    finite? x = some y ↔ y = x ∧ ∃ units, y = .finite units := by
  cases x with
  | finite units =>
      rw [finite?, Option.some.injEq, eq_comm]
      exact ⟨fun same => ⟨same, units, same⟩, And.left⟩
  | infinite | nan =>
      constructor
      · intro none_
        cases none_
      · rintro ⟨rfl, _, finite_⟩
        cases finite_

theorem whole?_trim {text : List Char} (not_blank : ¬AllBlank text) :
    whole? (String.ofList (trim text)) = (finite? (convert text)).map floor := by
  rw [whole?, String.toList_ofList, convert_of_not_blank not_blank]
  cases readNumeral? (trim text) with
  | none => rfl
  | some x => cases x <;> rfl

/-- A check that accepts just the texts of finite numbers and gives those numbers. -/
def IsFiniteCoercion (coerce : String → Option Binary64) : Prop :=
  ∀ text x, coerce text = some x ↔ ConvertsTo text.toList x ∧ ∃ units, x = .finite units

theorem isFiniteCoercion_iff {coerce : String → Option Binary64} :
    IsFiniteCoercion coerce ↔ ∀ text, coerce text = finite? (convert text.toList) := by
  simp only [IsFiniteCoercion, convertsTo_iff, ← finite?_eq_some_iff]
  exact forall_congr' fun text => Option.ext_iff.symm

/-- The trimmed value is checked and goes down to a whole number. -/
theorem bind_whole?_eq {coerce : String → Option Binary64} (checks : IsFiniteCoercion coerce)
    (env : Environment) (name : String) :
    (get? env name).bind whole? = ((get? env name).bind coerce).map floor := by
  cases held : env (variableName name) with
  | none => rw [get?_of_absent held, Option.bind_none, Option.bind_none, Option.map_none]
  | some text =>
      by_cases blank : AllBlank text.toList
      · rw [get?_of_blank held blank, Option.bind_none, Option.bind_none, Option.map_none]
      · rw [get?_of_not_blank held blank, Option.bind_some, Option.bind_some, whole?_trim blank,
          isFiniteCoercion_iff.1 checks, String.toList_ofList, convert_trim]

/-! ### The setting -/

theorem unitsPerOne_ne_zero : (unitsPerOne : ℤ) ≠ 0 :=
  Int.natCast_ne_zero.2 (twoPow_pos fractionPlaces).ne'

theorem floor_finite (units : ℤ) :
    floor (.finite units) = .finite (⌊(units / unitsPerOne : ℚ)⌋ * unitsPerOne) := by
  rw [floor, Rat.floor_intCast_div_natCast, Int.fdiv_eq_ediv_of_nonneg _ (Int.natCast_nonneg _)]

theorem minimum_finite (a b : ℤ) : minimum (.finite a) (.finite b) = .finite (min a b) := by
  rcases lt_or_ge b a with below | above
  · rw [min_eq_right below.le]
    simp [minimum, lt, below]
  · rw [min_eq_left above]
    simp [minimum, lt, above.not_gt]

theorem maximum_finite (a b : ℤ) : maximum (.finite a) (.finite b) = .finite (max a b) := by
  rcases lt_or_ge a b with below | above
  · rw [max_eq_right below.le]
    simp [maximum, lt, below]
  · rw [max_eq_left above]
    simp [maximum, lt, above.not_gt]

/-- A count of units brought between two bounds. -/
def clamp (low high units : ℤ) : ℤ :=
  max low (min high units)

variable {default low high units : ℤ}

theorem clamp_mem (ordered : low ≤ high) (units : ℤ) :
    low ≤ clamp low high units ∧ clamp low high units ≤ high :=
  ⟨le_max_left _ _, max_le ordered (min_le_left _ _)⟩

theorem clamp_mul (low high units : ℤ) (unit : ℕ) :
    clamp (low * unit) (high * unit) (units * unit) = clamp low high units * unit := by
  rw [clamp, clamp, max_mul_of_nonneg _ _ (Int.natCast_nonneg _),
    min_mul_of_nonneg _ _ (Int.natCast_nonneg _)]

theorem number_eq_of_given
    (given : ((get? env name).bind whole?).getD (.finite default) = .finite units) :
    number env name (.finite default) (.finite low) (.finite high) =
      .finite (clamp low high units) := by
  rw [number, given, minimum_finite, maximum_finite, clamp]

theorem number_of_absent (absent : env (variableName name) = none) :
    number env name (.finite default) (.finite low) (.finite high) =
      .finite (clamp low high default) := by
  apply number_eq_of_given
  rw [get?_of_absent absent, Option.bind_none, Option.getD_none]

theorem number_of_blank (held : env (variableName name) = some text)
    (blank : AllBlank text.toList) :
    number env name (.finite default) (.finite low) (.finite high) =
      .finite (clamp low high default) := by
  apply number_eq_of_given
  rw [get?_of_blank held blank, Option.bind_none, Option.getD_none]

theorem number_of_not_finite {x : Binary64} (held : env (variableName name) = some text)
    (converts : ConvertsTo text.toList x) (not_finite : finite? x = none) :
    number env name (.finite default) (.finite low) (.finite high) =
      .finite (clamp low high default) := by
  by_cases blank : AllBlank text.toList
  · exact number_of_blank held blank
  · apply number_eq_of_given
    rw [get?_of_not_blank held blank, Option.bind_some, whole?_trim blank,
      ← converts.eq_convert, not_finite, Option.map_none, Option.getD_none]

theorem number_of_finite (held : env (variableName name) = some text)
    (not_blank : ¬AllBlank text.toList) (converts : ConvertsTo text.toList (.finite units)) :
    number env name (.finite default) (.finite low) (.finite high) =
      .finite (clamp low high (⌊(units / unitsPerOne : ℚ)⌋ * unitsPerOne)) := by
  apply number_eq_of_given
  rw [get?_of_not_blank held not_blank, Option.bind_some, whole?_trim not_blank,
    ← converts.eq_convert, finite?, Option.map_some, Option.getD_some, floor_finite]

/-- A safe integer is kept, however it is written and whatever white space is around it. -/
theorem number_of_integer {front numeral back : List Char} {k : ℤ}
    (held : env (variableName name) = some text) (split : text.toList = front ++ numeral ++ back)
    (front_blank : AllBlank front) (back_blank : AllBlank back) (integer : IntegerText numeral k)
    (safe : k.natAbs ≤ maxSafe) :
    number env name (.finite default) (.finite low) (.finite high) =
      .finite (clamp low high (k * unitsPerOne)) := by
  have converts := ConvertsTo.numeral front_blank integer.readsAs back_blank
  rw [← split, ofInt_eq safe] at converts
  have not_blank : ¬AllBlank text.toList := split ▸ integer.readsAs.not_allBlank front back
  have whole : ⌊((k * unitsPerOne : ℤ) / unitsPerOne : ℚ)⌋ = k := by
    rw [Rat.floor_intCast_div_natCast, Int.mul_ediv_cancel _ unitsPerOne_ne_zero]
  rw [number_of_finite held not_blank converts, whole]

/-- A setting is the default or a whole number, brought between the bounds. -/
theorem number_eq_clamp (env : Environment) (name : String) (default low high : ℤ) :
    ∃ units, number env name (.finite default) (.finite low) (.finite high) =
        .finite (clamp low high units) ∧
      (units = default ∨ ∃ k : ℤ, units = k * unitsPerOne) := by
  cases held : env (variableName name) with
  | none => exact ⟨default, number_of_absent held, .inl rfl⟩
  | some text =>
      by_cases blank : AllBlank text.toList
      · exact ⟨default, number_of_blank held blank, .inl rfl⟩
      have converts := convertsTo_convert text.toList
      cases result : convert text.toList with
      | finite units =>
          exact ⟨_, number_of_finite held blank (result ▸ converts), .inr ⟨_, rfl⟩⟩
      | infinite | nan =>
          exact ⟨default, number_of_not_finite held (result ▸ converts) rfl, .inl rfl⟩

/-- Between whole bounds and with a whole default, a setting is a whole number. -/
theorem number_whole (env : Environment) (name : String) (default : ℤ) {low high : ℤ}
    (ordered : low ≤ high) :
    ∃ k, number env name (.finite (default * unitsPerOne)) (.finite (low * unitsPerOne))
        (.finite (high * unitsPerOne)) = .finite (k * unitsPerOne) ∧ low ≤ k ∧ k ≤ high := by
  obtain ⟨units, settled, source⟩ := number_eq_clamp env name (default * unitsPerOne)
    (low * unitsPerOne) (high * unitsPerOne)
  obtain ⟨k, rfl⟩ : ∃ k : ℤ, units = k * unitsPerOne := source.elim (fun h => ⟨default, h⟩) id
  rw [clamp_mul] at settled
  exact ⟨_, settled, clamp_mem ordered k⟩

/-- The width of the indent is read as a whole number that is not above eight. -/
theorem load_indentWidth (env : Environment) :
    ∃ width ≤ 8, number env "indent" (.ofNat 2) 0 (.ofNat 8) = .ofNat width ∧
      (load env).indentWidth = width := by
  have zero : (0 : Binary64) = .finite (0 * unitsPerOne) := by
    rw [zero_mul]
    rfl
  obtain ⟨k, settled, low, high⟩ := number_whole env "indent" 2 (by decide : (0 : ℤ) ≤ 8)
  obtain ⟨width, rfl⟩ := Int.eq_ofNat_of_zero_le low
  have bounded : width ≤ 8 := Int.ofNat_le.1 high
  have safe : width ≤ maxSafe := bounded.trans (by decide)
  have settled : number env "indent" (.ofNat 2) 0 (.ofNat 8) = .finite (width * unitsPerOne) := by
    rw [zero, ofNat_eq (by decide), ofNat_eq (by decide)]
    exact settled
  have read : toInt? (.finite (width * unitsPerOne)) = some (width : ℤ) := by
    rw [toInt?, Int.mul_fmod_left, if_pos rfl, Int.mul_fdiv_cancel _ unitsPerOne_ne_zero]
  refine ⟨width, bounded, settled.trans (ofNat_eq safe).symm, ?_⟩
  simp only [load, settled, read, Option.getD_some, Int.toNat_natCast]

/-- Numeric settings. A setting lies between its bounds. It is the clamped integer where the
variable holds a safe one between any white space, the clamped default where the variable is not
set, blank, or no finite number, and else the clamped floor of the number. Only what the check of
finite numbers gives counts, and every text is converted to one number. All spellings of a name
select one variable, and the width of the indent is a whole number up to eight. -/
theorem number_faithful (env : Environment) (name : String) {default low high : ℤ}
    (ordered : low ≤ high) :
    (∃ units, number env name (.finite default) (.finite low) (.finite high) = .finite units ∧
        low ≤ units ∧ units ≤ high) ∧
      (env (variableName name) = none →
        number env name (.finite default) (.finite low) (.finite high) =
          .finite (clamp low high default)) ∧
      (∀ text, env (variableName name) = some text →
        (∀ front numeral back k, text.toList = front ++ numeral ++ back → AllBlank front →
          AllBlank back → IntegerText numeral k → k.natAbs ≤ maxSafe →
            number env name (.finite default) (.finite low) (.finite high) =
              .finite (clamp low high (k * unitsPerOne))) ∧
        (AllBlank text.toList ∨ ConvertsTo text.toList .nan ∨
            (∃ negative, ConvertsTo text.toList (.infinite negative)) →
          number env name (.finite default) (.finite low) (.finite high) =
            .finite (clamp low high default)) ∧
        (∀ units, ¬AllBlank text.toList → ConvertsTo text.toList (.finite units) →
          number env name (.finite default) (.finite low) (.finite high) =
            .finite (clamp low high (⌊(units / unitsPerOne : ℚ)⌋ * unitsPerOne))) ∧
        ∃! x, ConvertsTo text.toList x) ∧
      (∀ coerce, IsFiniteCoercion coerce →
        number env name (.finite default) (.finite low) (.finite high) =
          maximum (.finite low) (minimum (.finite high)
            (((get? env name).bind coerce).elim (.finite default) floor))) ∧
      (¬variableStart <+: upper name.toList →
        variableName name = String.ofList (variableStart ++ upper name.toList) ∧
          ∀ other : String, SameLetters other.toList name.toList ∨
              SameLetters other.toList (variableStart ++ name.toList) →
            variableName other = variableName name) ∧
      ∃ width ≤ 8, number env "indent" (.ofNat 2) 0 (.ofNat 8) = .ofNat width ∧
        (load env).indentWidth = width := by
  refine ⟨?_, fun absent => ?_, fun text held => ⟨?_, ?_, ?_, ?_⟩, fun coerce checks => ?_,
    fun not_start => ⟨variableName_of_not_start not_start, fun other letters => ?_⟩,
    load_indentWidth env⟩
  · obtain ⟨units, settled, -⟩ := number_eq_clamp env name default low high
    exact ⟨_, settled, clamp_mem ordered units⟩
  · exact number_of_absent absent
  · exact fun front numeral back k split front_blank back_blank integer safe =>
      number_of_integer held split front_blank back_blank integer safe
  · rintro (blank | not_number | ⟨negative, infinite⟩)
    · exact number_of_blank held blank
    · exact number_of_not_finite held not_number rfl
    · exact number_of_not_finite held infinite rfl
  · exact fun units not_blank converts => number_of_finite held not_blank converts
  · exact ⟨_, convertsTo_convert _, fun _ converts => converts.eq_convert⟩
  · rw [number, bind_whole?_eq checks]
    cases (get? env name).bind coerce <;> rfl
  · rcases letters with same | same
    · exact variableName_eq_of_upper_eq same.upper_eq
    · exact variableName_eq_of_upper_eq_append not_start same.upper_eq

/-- A printed integer between a tab and a wide space, a number that is too large, a fraction with
an exponent, a hexadecimal number above the bounds, and a setting without a variable. -/
theorem number_faithful_spellings :
    let held := [("SPAN_TREE_INDENT", "\t-7\u3000"), ("SPAN_TREE_DEPTH", "1e309"),
      ("SPAN_TREE_SCALE", "-25.e-1"), ("SPAN_TREE_WIDTH", "0xFF")]
    let env : Environment := fun key => held.lookup key
    let one : ℤ := unitsPerOne
    let low : ℤ := -20 * one
    let setting (name : String) := number env name (.finite (2 * one)) (.finite low)
      (.finite (8 * one))
    low ≤ 8 * one ∧ setting "indent" = .finite (-7 * one) ∧
      setting "depth" = .finite (2 * one) ∧ setting "Scale" = .finite (-3 * one) ∧
      setting "WIDTH" = .finite (8 * one) ∧ setting "color" = .finite (2 * one) ∧
      setting "WIDTH" = maximum (.finite low) (minimum (.finite (8 * one))
        (((get? env "WIDTH").bind fun text => finite? (convert text.toList)).elim
          (.finite (2 * one)) floor)) ∧
      variableName "span_Tree_iNDENT" = variableName "indent" ∧ (load env).indentWidth ≤ 8 := by
  intro held env one low setting
  have ordered : low ≤ 8 * one := by decide +kernel
  have faithful (name : String) := @number_faithful env name (2 * one) _ _ ordered
  obtain ⟨-, -, indent, -, spellings, indentWidth, bounded, -, loaded⟩ := faithful "indent"
  obtain ⟨integer, -⟩ := indent "\t-7\u3000" (by decide +kernel)
  obtain ⟨-, same_variable⟩ := spellings (by decide +kernel)
  obtain ⟨-, -, depth, -⟩ := faithful "depth"
  obtain ⟨-, not_finite, -⟩ := depth "1e309" (by decide +kernel)
  obtain ⟨-, -, scale, -⟩ := faithful "Scale"
  obtain ⟨-, -, fraction, -⟩ := scale "-25.e-1" (by decide +kernel)
  obtain ⟨-, -, width, checked, -⟩ := faithful "WIDTH"
  obtain ⟨-, -, hexadecimal, -⟩ := width "0xFF" (by decide +kernel)
  obtain ⟨-, absent, -⟩ := faithful "color"
  refine ⟨ordered, ?_, ?_, ?_, ?_, ?_, ?_, ?_, ?_⟩
  · have kept := integer ['\t'] (toString (-7 : ℤ)).toList ['\u3000'] (-7) (by decide +kernel)
      (List.all_eq_true.1 (by decide)) (List.all_eq_true.1 (by decide)) (integerText_toString _)
      (by decide)
    exact kept.trans (by decide +kernel)
  · have replaced := not_finite (.inr (.inr ⟨false, convertsTo_iff.2 (by decide +kernel)⟩))
    exact replaced.trans (by decide +kernel)
  · have lowered := fraction (-5 * twoPow 1073) (trim_eq_nil_iff.not.1 (by decide +kernel))
      (convertsTo_iff.2 (by decide +kernel))
    rw [Rat.floor_intCast_div_natCast] at lowered
    exact lowered.trans (by decide +kernel)
  · have lowered := hexadecimal (255 * one) (trim_eq_nil_iff.not.1 (by decide +kernel))
      (convertsTo_iff.2 (by decide +kernel))
    rw [Rat.floor_intCast_div_natCast] at lowered
    exact lowered.trans (by decide +kernel)
  · exact (absent (by decide +kernel)).trans (by decide +kernel)
  · exact checked _ (isFiniteCoercion_iff.2 fun _ => rfl)
  · exact same_variable "span_Tree_iNDENT" (.inr (by decide +kernel))
  · exact loaded ▸ bounded

end Settings
end CallCost
