import CallCost.Proofs.CountLanguage
import CallCost.Proofs.NumeralLanguage

/-!
The conversion of a text to a number. It passes over white space around a numeral, and it has one
result for every text: what is no numeral is converted to no number.
-/

namespace CallCost

namespace Text

theorem trim_eq_nil_iff {text : List Char} : trim text = [] ↔ AllBlank text := by
  constructor
  · intro none_left
    obtain ⟨front, back, split, front_blank, back_blank⟩ := exists_eq_append_trim text
    rw [none_left, List.append_nil] at split
    rw [split]
    exact fun c hc => (List.mem_append.1 hc).elim (front_blank c) (back_blank c)
  · intro blank
    rw [← List.nil_append text, trim_append_blank blank]
    rfl

end Text

namespace Settings

open Binary64 Text

/-- The number that a text is converted to. White space around a numeral does not count, a text
without anything else stands for zero, and what is no numeral for no number. -/
inductive ConvertsTo : List Char → Binary64 → Prop where
  | blank {text : List Char} (blank : AllBlank text) : ConvertsTo text 0
  | numeral {front numeral back : List Char} {x : Binary64} (front_blank : AllBlank front)
      (reads : ReadsAs numeral x) (back_blank : AllBlank back) :
      ConvertsTo (front ++ numeral ++ back) x
  | nan {text : List Char} (not_blank : ¬AllBlank text)
      (no_numeral : ∀ front numeral back x, text = front ++ numeral ++ back → AllBlank front →
        AllBlank back → ¬ReadsAs numeral x) : ConvertsTo text .nan

theorem SignText.not_blank {sign : List Char} {negative : Bool} (h : SignText sign negative) :
    ∀ c ∈ sign, isBlank c = false := by
  cases h with
  | absent => exact fun c hc => absurd hc List.not_mem_nil
  | plus | minus => exact List.forall_mem_singleton.2 rfl

theorem FractionText.not_blank {text digits : List Char} (h : FractionText text digits) :
    ∀ c ∈ text, isBlank c = false := by
  cases h with
  | absent => exact fun c hc => absurd hc List.not_mem_nil
  | point all_digits =>
      refine List.forall_mem_cons.2 ⟨by decide, fun c hc => ?_⟩
      exact isBlank_eq_false_of_isDigit (all_digits c hc)

theorem IntegerText.not_blank {text : List Char} {k : ℤ} (h : IntegerText text k) :
    ∀ c ∈ text, isBlank c = false := by
  obtain ⟨signed, -, all_digits⟩ := h
  refine List.forall_mem_append.2 ⟨signed.not_blank, fun c hc => ?_⟩
  exact isBlank_eq_false_of_isDigit (all_digits c hc)

theorem ExponentText.not_blank {text : List Char} {exponent : ℤ} (h : ExponentText text exponent) :
    ∀ c ∈ text, isBlank c = false := by
  cases h with
  | absent => exact fun c hc => absurd hc List.not_mem_nil
  | marked mark_eq spelled =>
      refine List.forall_mem_cons.2 ⟨?_, spelled.not_blank⟩
      obtain rfl | rfl := mark_eq <;> decide

theorem DecimalText.not_blank {text : List Char} {magnitude : ℚ} (h : DecimalText text magnitude) :
    ∀ c ∈ text, isBlank c = false := by
  cases h with
  | parts whole_digits pointed _ scaled =>
      refine List.forall_mem_append.2 ⟨List.forall_mem_append.2 ⟨fun c hc => ?_, pointed.not_blank⟩,
        scaled.not_blank⟩
      exact isBlank_eq_false_of_isDigit (whole_digits c hc)

theorem isBlank_eq_false_of_digitValue? {c : Char} {v : ℕ} (h : digitValue? c = some v) :
    isBlank c = false := by
  rw [digitValue?] at h
  split at h
  · rename_i digit
    exact isBlank_eq_false_of_isDigit digit
  · have letter : 'a' ≤ c ∧ c ≤ 'f' ∨ 'A' ≤ c ∧ c ≤ 'F' := by
      by_contra other
      rw [not_or] at other
      rw [if_neg other.1, if_neg other.2] at h
      cases h
    apply isBlank_eq_false_of_isAlpha
    rw [isAlpha_iff_toNat]
    have bounds (low high : Char) (within : low ≤ c ∧ c ≤ high) :
        low.toNat ≤ c.toNat ∧ c.toNat ≤ high.toNat :=
      ⟨UInt32.le_iff_toNat_le.1 within.1, UInt32.le_iff_toNat_le.1 within.2⟩
    rcases letter with lower | upper
    · have := bounds _ _ lower
      change 97 ≤ c.toNat ∧ c.toNat ≤ 102 at this
      omega
    · have := bounds _ _ upper
      change 65 ≤ c.toNat ∧ c.toNat ≤ 70 at this
      omega

theorem IsBaseText.not_blank {base n : ℕ} {digits : List Char} (h : IsBaseText base digits n) :
    ∀ c ∈ digits, isBlank c = false := by
  intro c hc
  obtain ⟨values, same, -, -⟩ := h
  have valued : digitValue? c ∈ values.map some := same ▸ List.mem_map_of_mem hc
  obtain ⟨v, -, read⟩ := List.mem_map.1 valued
  exact isBlank_eq_false_of_digitValue? read.symm

theorem ReadsAs.not_blank {text : List Char} {x : Binary64} (h : ReadsAs text x) :
    ∀ c ∈ text, isBlank c = false := by
  cases h with
  | infinity signed =>
      refine List.forall_mem_append.2 ⟨signed.not_blank, fun c hc => ?_⟩
      exact isBlank_eq_false_of_isAlpha (List.all_eq_true.1 (by decide) c hc)
  | number exact_ _ =>
      cases exact_ with
      | decimal signed spelled =>
          exact List.forall_mem_append.2 ⟨signed.not_blank, spelled.not_blank⟩
      | based marked _ written =>
          have mark_not_blank : ∀ mark base, IsBaseMark mark base → isBlank mark = false := by
            rintro mark base (⟨rfl | rfl, rfl⟩ | ⟨rfl | rfl, rfl⟩ | ⟨rfl | rfl, rfl⟩) <;> decide
          exact List.forall_mem_cons.2 ⟨by decide,
            List.forall_mem_cons.2 ⟨mark_not_blank _ _ marked, written.not_blank⟩⟩

theorem ReadsAs.ne_nil {text : List Char} {x : Binary64} (h : ReadsAs text x) : text ≠ [] := by
  rintro rfl
  have read := readNumeral?_iff.2 h
  cases read

theorem ReadsAs.not_allBlank {numeral : List Char} {x : Binary64} (h : ReadsAs numeral x)
    (front back : List Char) : ¬AllBlank (front ++ numeral ++ back) := by
  intro blank
  obtain ⟨c, hc⟩ := List.exists_mem_of_ne_nil numeral h.ne_nil
  have inside : isBlank c = true :=
    blank c (List.mem_append_left back (List.mem_append_right front hc))
  rw [h.not_blank c hc] at inside
  cases inside

theorem ReadsAs.trim_eq {front numeral back : List Char} {x : Binary64}
    (h : ReadsAs numeral x) (front_blank : AllBlank front) (back_blank : AllBlank back) :
    trim (front ++ numeral ++ back) = numeral := by
  rw [trim_append_blank back_blank, trim_blank_append front_blank]
  exact trim_eq_self (fun c hc => h.not_blank c (List.mem_of_head? hc))
    fun c hc => h.not_blank c (List.mem_of_getLast? hc)

/-- The conversion of a text, as it is computed. -/
def convert (text : List Char) : Binary64 :=
  if trim text = [] then 0 else (readNumeral? (trim text)).getD .nan

theorem convert_of_blank {text : List Char} (blank : AllBlank text) : convert text = 0 :=
  if_pos (trim_eq_nil_iff.2 blank)

theorem convert_of_not_blank {text : List Char} (not_blank : ¬AllBlank text) :
    convert text = (readNumeral? (trim text)).getD .nan :=
  if_neg fun none_left => not_blank (trim_eq_nil_iff.1 none_left)

theorem convert_trim (text : List Char) : convert (trim text) = convert text := by
  rw [convert, convert, trim_trim]

theorem ReadsAs.convert_eq {front numeral back : List Char} {x : Binary64}
    (h : ReadsAs numeral x) (front_blank : AllBlank front) (back_blank : AllBlank back) :
    convert (front ++ numeral ++ back) = x := by
  rw [convert_of_not_blank (h.not_allBlank front back), h.trim_eq front_blank back_blank,
    readNumeral?_iff.2 h, Option.getD_some]

/-- A text that has no numeral between white space is not read. -/
theorem readNumeral?_trim_eq_none_iff {text : List Char} :
    readNumeral? (trim text) = none ↔
      ∀ front numeral back x, text = front ++ numeral ++ back → AllBlank front →
        AllBlank back → ¬ReadsAs numeral x := by
  constructor
  · rintro unread front numeral back x rfl front_blank back_blank reads
    rw [reads.trim_eq front_blank back_blank, readNumeral?_iff.2 reads] at unread
    cases unread
  · intro no_numeral
    obtain ⟨front, back, split, front_blank, back_blank⟩ := exists_eq_append_trim text
    rw [Option.eq_none_iff_forall_ne_some]
    exact fun x read =>
      no_numeral front _ back x split front_blank back_blank (readNumeral?_iff.1 read)

theorem convertsTo_convert (text : List Char) : ConvertsTo text (convert text) := by
  by_cases blank : AllBlank text
  · rw [convert_of_blank blank]
    exact .blank blank
  · rw [convert_of_not_blank blank]
    cases read : readNumeral? (trim text) with
    | none => exact .nan blank (readNumeral?_trim_eq_none_iff.1 read)
    | some x =>
        obtain ⟨front, back, split, front_blank, back_blank⟩ := exists_eq_append_trim text
        have converts := ConvertsTo.numeral front_blank (readNumeral?_iff.1 read) back_blank
        rwa [← split] at converts

theorem ConvertsTo.eq_convert {text : List Char} {x : Binary64} (h : ConvertsTo text x) :
    x = convert text := by
  cases h with
  | blank blank => rw [convert_of_blank blank]
  | numeral front_blank reads back_blank => rw [reads.convert_eq front_blank back_blank]
  | nan not_blank no_numeral =>
      rw [convert_of_not_blank not_blank, readNumeral?_trim_eq_none_iff.2 no_numeral,
        Option.getD_none]

/-- Every text is converted, and to one number only. -/
theorem convertsTo_iff {text : List Char} {x : Binary64} :
    ConvertsTo text x ↔ x = convert text :=
  ⟨ConvertsTo.eq_convert, fun same => same ▸ convertsTo_convert text⟩

end Settings
end CallCost
