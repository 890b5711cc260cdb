import CallCost.Proofs.MarkerLines
import Mathlib.Data.List.Basic
import Mathlib.Data.List.TakeWhile

/-!
The language of cycle counts. Trimmed and without its commas, a payload is white space, digits,
white space and the letters of a unit, and only the digits must be there. Reading finds just these
parts, whatever stands in them, and gives the value of the digits where it is a safe number.
-/

namespace CallCost
namespace Text

def AllBlank (text : List Char) : Prop :=
  ∀ c ∈ text, isBlank c = true

theorem isAlpha_iff_toNat {c : Char} :
    c.isAlpha = true ↔ 65 ≤ c.toNat ∧ c.toNat ≤ 90 ∨ 97 ≤ c.toNat ∧ c.toNat ≤ 122 := by
  have classes : c.isAlpha =
      (decide (65 ≤ c.val ∧ c.val ≤ 90) ||
        decide (97 ≤ c.val) && decide (c.val ≤ 122)) := rfl
  simp only [classes, Bool.or_eq_true, Bool.and_eq_true, decide_eq_true_eq,
    UInt32.le_iff_toNat_le]
  rfl

theorem isBlank_eq_false_of_isAlpha {c : Char} (h : c.isAlpha = true) : isBlank c = false := by
  rw [isAlpha_iff_toNat] at h
  rw [isBlank, List.any_eq_false]
  intro range hr
  simp only [blankRanges, List.mem_cons, List.not_mem_nil, or_false] at hr
  simp only [Bool.and_eq_true, decide_eq_true_eq]
  rcases hr with rfl | rfl | rfl | rfl | rfl | rfl | rfl | rfl | rfl | rfl <;> omega

theorem isAlpha_eq_false_of_isBlank {c : Char} (h : isBlank c = true) : c.isAlpha = false := by
  cases letter : c.isAlpha with
  | false => rfl
  | true => rw [isBlank_eq_false_of_isAlpha letter] at h; cases h

theorem isAlpha_eq_false_of_isDigit {c : Char} (h : c.isDigit = true) : c.isAlpha = false := by
  obtain ⟨low, high⟩ := Char.isDigit_iff_toNat.1 h
  change 48 ≤ c.toNat at low
  change c.toNat ≤ 57 at high
  rw [← Bool.not_eq_true, isAlpha_iff_toNat]
  omega

theorem trim_blank_append {front : List Char} (blank : AllBlank front) (text : List Char) :
    trim (front ++ text) = trim text := by
  rw [trim, trimStart, List.dropWhile_append_of_pos blank]
  rfl

theorem trimEnd_append_blank {back : List Char} (blank : AllBlank back) (text : List Char) :
    trimEnd (text ++ back) = trimEnd text := by
  have reversed : ∀ c ∈ back.reverse, isBlank c = true :=
    fun c hc => blank c (List.mem_reverse.1 hc)
  rw [trimEnd, List.reverse_append, List.dropWhile_append_of_pos reversed]
  rfl

theorem trim_append_blank {back : List Char} (blank : AllBlank back) (text : List Char) :
    trim (text ++ back) = trim text := by
  by_cases h : trimStart text = []
  · have none_left : trimStart back = [] := List.dropWhile_eq_nil_iff.2 blank
    rw [trimStart] at h none_left
    rw [trim, trim, trimStart, trimStart, List.dropWhile_append, h, none_left]
    rfl
  · have kept : trimStart (text ++ back) = trimStart text ++ back := by
      rw [trimStart] at h ⊢
      rw [List.dropWhile_append, if_neg (by simpa using h), trimStart]
    rw [trim, kept, trimEnd_append_blank blank, trim]

/-- Trimming takes off white space and nothing else. -/
theorem exists_eq_append_trim (text : List Char) :
    ∃ front back, text = front ++ trim text ++ back ∧ AllBlank front ∧ AllBlank back := by
  have start : text.takeWhile isBlank ++ trimStart text = text :=
    List.takeWhile_append_dropWhile
  have tail : trim text ++ ((trimStart text).reverse.takeWhile isBlank).reverse =
      trimStart text := by
    rw [trim, trimEnd, ← List.reverse_append, List.takeWhile_append_dropWhile,
      List.reverse_reverse]
  refine ⟨text.takeWhile isBlank, ((trimStart text).reverse.takeWhile isBlank).reverse,
    ?_, ?_, ?_⟩
  · rw [List.append_assoc, tail, start]
  · exact fun c hc => List.mem_takeWhile_imp hc
  · exact fun c hc => List.mem_takeWhile_imp (List.mem_reverse.1 hc)

end Text

namespace CycleCount

open Text

/-- The letters at the end of a text and the white space before them are all that is dropped. -/
theorem exists_eq_append_dropUnit (text : List Char) :
    ∃ back unit, text = dropUnit text ++ back ++ unit ∧ AllBlank back ∧
      ∀ c ∈ unit, c.isAlpha = true := by
  rw [dropUnit]
  split
  · have letters : text.reverse.takeWhile Char.isAlpha ++ text.reverse.dropWhile Char.isAlpha =
        text.reverse := List.takeWhile_append_dropWhile
    generalize text.reverse.dropWhile Char.isAlpha = rest at letters
    have blanks : rest.takeWhile isBlank ++ rest.dropWhile isBlank = rest :=
      List.takeWhile_append_dropWhile
    refine ⟨(rest.takeWhile isBlank).reverse, (text.reverse.takeWhile Char.isAlpha).reverse,
      ?_, ?_, ?_⟩
    · rw [← List.reverse_append, blanks, ← List.reverse_append, letters, List.reverse_reverse]
    · exact fun c hc => List.mem_takeWhile_imp (List.mem_reverse.1 hc)
    · exact fun c hc => List.mem_takeWhile_imp (List.mem_reverse.1 hc)
  · exact ⟨[], [], by simp, by simp [AllBlank], by simp⟩

theorem dropUnit_eq_self {text : List Char}
    (last : ∀ c, text.getLast? = some c → c.isAlpha = false) : dropUnit text = text := by
  rw [dropUnit, if_neg]
  rw [List.head?_reverse]
  cases h : text.getLast? with
  | none => simp
  | some c => simp [last c h]

/-- White space behind a text that ends in no letter brings none. -/
theorem isAlpha_eq_false_of_getLast? {text back : List Char}
    (last : ∀ c, text.getLast? = some c → c.isAlpha = false) (blank : AllBlank back) {c : Char}
    (h : (text ++ back).getLast? = some c) : c.isAlpha = false := by
  rw [List.getLast?_append] at h
  cases ends : back.getLast? with
  | none =>
      rw [ends] at h
      exact last c h
  | some b =>
      rw [ends] at h
      cases h
      exact isAlpha_eq_false_of_isBlank (blank c (List.mem_of_getLast? ends))

/-- Letters at the end go, with the white space before them. -/
theorem dropUnit_append {text back unit : List Char}
    (trimmed : trimEnd text = text) (last : ∀ c, text.getLast? = some c → c.isAlpha = false)
    (blank : AllBlank back) (letters : ∀ c ∈ unit, c.isAlpha = true) (some_ : unit ≠ []) :
    dropUnit (text ++ back ++ unit) = text := by
  have ends : (text ++ back ++ unit).reverse = unit.reverse ++ (back.reverse ++ text.reverse) := by
    simp
  have starts : (unit.reverse ++ (back.reverse ++ text.reverse)).head?.any Char.isAlpha = true := by
    obtain ⟨front, c, rfl⟩ := List.eq_nil_or_concat unit |>.resolve_left some_
    simpa using letters c (by simp)
  have noLetter : (back.reverse ++ text.reverse).dropWhile Char.isAlpha =
      back.reverse ++ text.reverse := by
    rw [← List.reverse_append]
    cases h : (text ++ back).reverse with
    | nil => rfl
    | cons c rest =>
        have ends := congrArg List.head? h
        rw [List.head?_reverse] at ends
        apply List.dropWhile_cons_of_neg
        simp [isAlpha_eq_false_of_getLast? last blank ends]
  have reversedLetters : ∀ c ∈ unit.reverse, c.isAlpha = true :=
    fun c hc => letters c (List.mem_reverse.1 hc)
  have reversedBlank : ∀ c ∈ back.reverse, isBlank c = true :=
    fun c hc => blank c (List.mem_reverse.1 hc)
  rw [dropUnit, ends]
  simp only [starts, if_true]
  rw [List.dropWhile_append_of_pos reversedLetters, noLetter,
    List.dropWhile_append_of_pos reversedBlank]
  exact trimmed

/-- A digit in front makes a numeral at least as large as the power of ten it stands for. -/
theorem tenPow_le_ofDigitChars {c : Char} (digit : c.isDigit = true) (significant : c ≠ '0')
    (rest : List Char) : 10 ^ rest.length ≤ Nat.ofDigitChars 10 (c :: rest) 0 := by
  have low : 48 ≤ c.toNat := (Char.isDigit_iff_toNat.1 digit).1
  have ne : c.toNat ≠ '0'.toNat := fun same => significant (Char.toNat_inj.1 same)
  have one : 1 ≤ 10 * 0 + (c.toNat - '0'.toNat) := by
    change 1 ≤ 0 + (c.toNat - 48)
    change c.toNat ≠ 48 at ne
    omega
  rw [Nat.ofDigitChars_cons, Nat.ofDigitChars_eq_ofDigitChars_zero]
  calc 10 ^ rest.length = 10 ^ rest.length * 1 := (Nat.mul_one _).symm
    _ ≤ 10 ^ rest.length * (10 * 0 + (c.toNat - '0'.toNat)) := Nat.mul_le_mul_left _ one
    _ ≤ _ := Nat.le_add_right _ _

theorem length_dropWhile_zero_le {digits : List Char} (all : ∀ c ∈ digits, c.isDigit = true)
    (safe : Nat.ofDigitChars 10 digits 0 ≤ Binary64.maxSafe) :
    (digits.dropWhile (· = '0')).length ≤ 16 := by
  rw [← ofDigitChars_dropWhile_zero] at safe
  have first := List.head?_dropWhile_not (fun c => decide (c = '0')) digits
  have sublist : digits.dropWhile (· = '0') <:+ digits := List.dropWhile_suffix _
  generalize digits.dropWhile (· = '0') = significant at safe first sublist ⊢
  cases significant with
  | nil => exact Nat.zero_le _
  | cons c rest =>
      have large := tenPow_le_ofDigitChars (all c (sublist.subset List.mem_cons_self))
        (by simpa using first) rest
      have few : (10 : Nat) ^ rest.length < 10 ^ 16 :=
        Nat.lt_of_le_of_lt (Nat.le_trans large safe) (by decide)
      exact (Nat.pow_lt_pow_iff_right (by decide)).1 few

theorem readDigits?_eq_some_iff {digits : List Char} {cycles : Nat} :
    readDigits? digits = some cycles ↔
      digits ≠ [] ∧ (∀ c ∈ digits, c.isDigit = true) ∧ cycles ≤ Binary64.maxSafe ∧
        Nat.ofDigitChars 10 digits 0 = cycles := by
  have notAny : (digits.any (!·.isDigit)) = true ↔ ¬∀ c ∈ digits, c.isDigit = true := by
    simp
  rw [readDigits?]
  simp only [ofDigitChars_dropWhile_zero, notAny]
  constructor
  · intro h
    split at h
    · cases h
    · rename_i accepted
      split at h
      · rename_i safe
        cases h
        simp only [not_or, not_not] at accepted
        exact ⟨accepted.1, accepted.2.1, safe, rfl⟩
      · cases h
  · rintro ⟨some_, all, safe, rfl⟩
    have few := Nat.not_lt.2 (length_dropWhile_zero_le all safe)
    rw [if_neg (by simp only [some_, few, or_false, false_or]; exact not_not.2 all), if_pos safe]

/-- The spellings of a number: white space, digits, white space and the letters of a unit. Only
the digits must be there. -/
inductive Spells : List Char → Nat → Prop where
  | parts {front digits back unit : List Char} (front_blank : AllBlank front)
      (some_ : digits ≠ []) (all_digits : ∀ c ∈ digits, c.isDigit = true)
      (back_blank : AllBlank back) (letters : ∀ c ∈ unit, c.isAlpha = true) :
      Spells (front ++ digits ++ back ++ unit) (Nat.ofDigitChars 10 digits 0)

/-- Of a spelling just the digits are left. -/
theorem trim_dropUnit {front digits back unit : List Char} (front_blank : AllBlank front)
    (some_ : digits ≠ []) (all_digits : ∀ c ∈ digits, c.isDigit = true)
    (back_blank : AllBlank back) (letters : ∀ c ∈ unit, c.isAlpha = true) :
    trim (dropUnit (front ++ digits ++ back ++ unit)) = digits := by
  have bare : trim digits = digits := by
    apply trim_eq_self
    · exact fun c hc => isBlank_eq_false_of_isDigit (all_digits c (List.mem_of_head? hc))
    · exact fun c hc => isBlank_eq_false_of_isDigit (all_digits c (List.mem_of_getLast? hc))
  have last (c : Char) (hc : (front ++ digits).getLast? = some c) : c.isDigit = true := by
    rw [List.getLast?_append_of_ne_nil _ some_] at hc
    exact all_digits c (List.mem_of_getLast? hc)
  have lastLetter (c : Char) (hc : (front ++ digits).getLast? = some c) : c.isAlpha = false :=
    isAlpha_eq_false_of_isDigit (last c hc)
  have trimmed : trimEnd (front ++ digits) = front ++ digits :=
    trimEnd_eq_self fun c hc => isBlank_eq_false_of_isDigit (last c hc)
  by_cases none_ : unit = []
  · have whole : dropUnit (front ++ digits ++ back) = front ++ digits ++ back :=
      dropUnit_eq_self fun c hc => isAlpha_eq_false_of_getLast? lastLetter back_blank hc
    rw [none_, List.append_nil, whole, trim_append_blank back_blank,
      trim_blank_append front_blank, bare]
  · rw [dropUnit_append trimmed lastLetter back_blank letters none_,
      trim_blank_append front_blank, bare]

/-- The payload of a close marker stands for a count: a safe number that it spells when it is
trimmed and its commas are taken out. -/
def IsCount (payload : List Char) (cycles : Nat) : Prop :=
  cycles ≤ Binary64.maxSafe ∧ Spells ((trim payload).filter (· ≠ ',')) cycles

theorem read?_eq_some_iff {payload : List Char} {cycles : Nat} :
    read? payload = some cycles ↔
      cycles ≤ Binary64.maxSafe ∧ Spells (payload.filter (· ≠ ',')) cycles := by
  rw [read?, readDigits?_eq_some_iff]
  constructor
  · rintro ⟨some_, all, safe, value⟩
    refine ⟨safe, ?_⟩
    obtain ⟨back, unit, whole, back_blank, letters⟩ :=
      exists_eq_append_dropUnit (payload.filter (· ≠ ','))
    obtain ⟨front, inner, bare, front_blank, inner_blank⟩ :=
      exists_eq_append_trim (dropUnit (payload.filter (· ≠ ',')))
    generalize trim (dropUnit (payload.filter (· ≠ ','))) = digits at *
    have spelled : Spells (front ++ digits ++ (inner ++ back) ++ unit) _ :=
      .parts front_blank some_ all
        (fun c hc => (List.mem_append.1 hc).elim (inner_blank c) (back_blank c)) letters
    rw [whole, bare, ← value]
    simpa using spelled
  · rintro ⟨safe, spelled⟩
    generalize payload.filter (· ≠ ',') = text at spelled ⊢
    cases spelled with
    | parts front_blank some_ all back_blank letters =>
        rw [trim_dropUnit front_blank some_ all back_blank letters]
        exact ⟨some_, all, safe, rfl⟩

theorem parse_eq_ok_iff {payload : List Char} {cycles : Nat} :
    parse payload = .ok cycles ↔ IsCount payload cycles := by
  rw [IsCount, ← read?_eq_some_iff, parse]
  split <;> simp_all

theorem parse_eq_error_iff {payload : List Char} {cause : MalformedCycleCount} :
    parse payload = .error cause ↔
      (∀ cycles, ¬IsCount payload cycles) ∧ cause = ⟨String.ofList (trim payload)⟩ := by
  simp only [IsCount, ← read?_eq_some_iff, parse]
  cases read? (trim payload) with
  | none => simp [eq_comm]
  | some cycles => simp

end CycleCount
end CallCost
