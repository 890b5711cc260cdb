import CallCost.Proofs.DecimalValues
import CallCost.Proofs.MalformedLines
import CallCost.Proofs.Numerals
import CallCost.Proofs.RoundedSums

/-!
The ways to write a cycle count. The digits of a safe number may have commas anywhere among them,
white space around them and a unit behind them, and they are read as that number. A payload that
spells no number is refused, with all of its commas, under the number of its line.
-/

namespace CallCost
namespace CycleCount

open Text

/-- A number as it may be written: its digits with commas among them, white space around, and the
letters of a unit that may stand apart or not, or be left out. -/
inductive Writes : List Char → Nat → Prop where
  | parts {front digits back unit after : List Char} {cycles : Nat} (front_blank : AllBlank front)
      (punctuated : digits.filter (· ≠ ',') = Nat.toDigits 10 cycles)
      (back_blank : AllBlank back) (letters : ∀ c ∈ unit, c.isAlpha = true)
      (after_blank : AllBlank after) :
      Writes (front ++ digits ++ back ++ unit ++ after) cycles

/-- Neither a digit nor a comma is blank. -/
theorem isBlank_eq_false_of_punctuated {digits : List Char} {cycles : Nat}
    (punctuated : digits.filter (· ≠ ',') = Nat.toDigits 10 cycles) {c : Char} (h : c ∈ digits) :
    isBlank c = false := by
  by_cases comma : c = ','
  · subst comma
    decide
  · have kept : c ∈ digits.filter (· ≠ ',') := List.mem_filter.2 ⟨h, decide_eq_true comma⟩
    rw [punctuated] at kept
    exact isBlank_eq_false_of_isDigit (isDigit_of_mem_toDigits kept)

theorem filter_eq_self_of_not_mem {text : List Char} (h : ',' ∉ text) :
    text.filter (· ≠ ',') = text :=
  List.filter_eq_self.2 fun _ hc => decide_eq_true fun same => h (same ▸ hc)

/-- Trimming takes away white space behind the digits unless a unit follows it. -/
theorem trim_punctuated {digits back unit : List Char} {cycles : Nat}
    (punctuated : digits.filter (· ≠ ',') = Nat.toDigits 10 cycles) (back_blank : AllBlank back)
    (letters : ∀ c ∈ unit, c.isAlpha = true) :
    ∃ kept, AllBlank kept ∧ trim (digits ++ back ++ unit) = digits ++ kept ++ unit := by
  have some_ : digits ≠ [] := by
    rintro rfl
    exact Nat.toDigits_ne_nil punctuated.symm
  have first (rest : List Char) (c : Char) (h : (digits ++ rest).head? = some c) :
      isBlank c = false := by
    rw [List.head?_append_of_ne_nil _ some_] at h
    exact isBlank_eq_false_of_punctuated punctuated (List.mem_of_head? h)
  by_cases none_ : unit = []
  · subst none_
    refine ⟨[], fun c hc => absurd hc List.not_mem_nil, ?_⟩
    rw [List.append_nil, List.append_nil, List.append_nil, trim_append_blank back_blank]
    apply trim_eq_self
    · simpa using first []
    · exact fun c hc => isBlank_eq_false_of_punctuated punctuated (List.mem_of_getLast? hc)
  · refine ⟨back, back_blank, trim_eq_self ?_ ?_⟩
    · rw [List.append_assoc]
      exact first _
    · intro c hc
      rw [List.getLast?_append_of_ne_nil _ none_] at hc
      exact isBlank_eq_false_of_isAlpha (letters c (List.mem_of_getLast? hc))

/-- A number that is written so is spelled when the payload is trimmed and without its commas. -/
theorem Writes.spells {payload : List Char} {cycles : Nat} (h : Writes payload cycles) :
    Spells ((trim payload).filter (· ≠ ',')) cycles := by
  cases h with
  | @parts front digits back unit after _ front_blank punctuated back_blank letters after_blank =>
      obtain ⟨kept, kept_blank, trimmed⟩ := trim_punctuated punctuated back_blank letters
      have text : front ++ digits ++ back ++ unit ++ after =
          front ++ ((digits ++ back ++ unit) ++ after) := by
        simp only [List.append_assoc]
      have spelled : Spells ([] ++ Nat.toDigits 10 cycles ++ kept ++ unit) _ :=
        .parts (fun c hc => absurd hc List.not_mem_nil) Nat.toDigits_ne_nil
          (fun c hc => isDigit_of_mem_toDigits hc) kept_blank letters
      rw [Nat.ofDigitChars_ten_toDigits] at spelled
      have kept_eq : kept.filter (· ≠ ',') = kept :=
        filter_eq_self_of_not_mem fun hc => absurd (kept_blank _ hc) (by decide)
      have unit_eq : unit.filter (· ≠ ',') = unit :=
        filter_eq_self_of_not_mem fun hc => absurd (letters _ hc) (by decide)
      rw [text, trim_blank_append front_blank, trim_append_blank after_blank, trimmed,
        List.filter_append, List.filter_append, punctuated, kept_eq, unit_eq]
      exact spelled

end CycleCount

/-- A refused line changes nothing in a pass but the number of lines, and is reported under it. -/
theorem Scan.push_refused {o : ScanOptions} {line : String} {payload : List Char}
    (refused : o.glyphs.Refuses line payload) (s : Scan) :
    s.push o line = ({ s with stats.lines := s.stats.lines + 1 },
      some ⟨s.stats.lines + 1, ⟨String.ofList (Text.trim payload)⟩⟩) := by
  have said := Marker.ofLine_eq_error_iff.2 ⟨payload, refused, rfl⟩
  rw [push, said]

namespace CycleCount

open Text

/-- The bound on the value of digits is one on the number that they are converted to: digits above
the safe numbers are never rounded to a safe one. -/
theorem readDigits?_eq_some_iff_toBinary64 {digits : List Char} {cycles : Nat} :
    readDigits? digits = some cycles ↔
      digits ≠ [] ∧ (∀ c ∈ digits, c.isDigit = true) ∧
        ((Decimal.ofDigits digits [] 0).toBinary64 false).IsSafe ∧
        ((Decimal.ofDigits digits [] 0).toBinary64 false).whole = cycles := by
  have digits_eq : Decimal.ofDigits digits [] 0 = ⟨Nat.ofDigitChars 10 digits 0, 0⟩ := by
    rw [Decimal.ofDigits, List.append_nil]
    rfl
  rw [readDigits?_eq_some_iff, digits_eq, Decimal.toBinary64_natural, Binary64.isSafe_ofNat_iff]
  constructor
  · rintro ⟨some_, all, safe, rfl⟩
    exact ⟨some_, all, safe, Binary64.whole_ofNat safe⟩
  · rintro ⟨some_, all, safe, rfl⟩
    rw [Binary64.whole_ofNat safe]
    exact ⟨some_, all, safe, rfl⟩

theorem parseAt_eq_ok_iff {number : Binary64} {payload : List Char} {cycles : Nat} :
    parseAt number payload = .ok cycles ↔ parse payload = .ok cycles := by
  rw [parseAt]
  cases parse payload with
  | error cause => exact iff_of_false nofun nofun
  | ok count =>
      exact ⟨fun h => congrArg Except.ok (Except.ok.inj h),
        fun h => congrArg Except.ok (Except.ok.inj h)⟩

/-- On a line of any number, a payload is read if and only if it spells a safe number once it is
trimmed and its commas are gone, and then as that number. All others are refused with the number
of the line and the trimmed payload, and a pass reports them so. Every safe number is read however
it is written. -/
theorem parse_language (payload : List Char) :
    (∀ number cycles, parseAt number payload = .ok cycles ↔
        cycles ≤ Binary64.maxSafe ∧ Spells ((trim payload).filter (· ≠ ',')) cycles) ∧
      ((∀ cycles, ¬IsCount payload cycles) → ∀ number,
        parseAt number payload = .error ⟨number, String.ofList (trim payload)⟩) ∧
      (∀ (o : ScanOptions) (s : Scan) (line : String), o.glyphs.Refuses line payload →
        (s.push o line).2 = some ⟨s.stats.lines + 1, ⟨String.ofList (trim payload)⟩⟩ ∧
        ∀ number, Marker.ofLineAt o.glyphs number line =
          .error ⟨number, String.ofList (trim payload)⟩) ∧
      ∀ number, ∀ cycles ≤ Binary64.maxSafe, Writes payload cycles →
        parseAt number payload = .ok cycles := by
  refine ⟨fun number cycles => ?_, fun uncounted number => ?_, fun o s line refused => ⟨?_, ?_⟩,
    fun number cycles safe written => ?_⟩
  · rw [parseAt_eq_ok_iff]
    exact parse_eq_ok_iff
  · rw [parseAt, parse_eq_error_iff.2 ⟨uncounted, rfl⟩]
    rfl
  · rw [Scan.push_refused refused]
  · intro number
    rw [Marker.ofLineAt, Marker.ofLine_eq_error_iff.2 ⟨payload, refused, rfl⟩]
    rfl
  · rw [parseAt_eq_ok_iff]
    exact parse_eq_ok_iff.2 ⟨safe, written.spells⟩

/-- The largest count with commas in odd places, a count before which a comma keeps white space
from being trimmed, and the least count that is too large. -/
theorem parse_language_commas :
    let written := ['\t'] ++ "9007,19,,9254740991".toList ++ ['\u00a0'] ++ "cycles".toList ++ [' ']
    let exposed := ", 0012,ms".toList
    let line := "│ └╴9,007,199,254,740,992"
    let payload := "9,007,199,254,740,992"
    let number := Binary64.ofInt (-7)
    Writes written Binary64.maxSafe ∧ parseAt number written = .ok Binary64.maxSafe ∧
      Spells ((trim exposed).filter (· ≠ ',')) 12 ∧ parseAt number exposed = .ok 12 ∧
      Glyphs.Refuses {} line payload.toList ∧
      parseAt number payload.toList = .error ⟨number, payload⟩ ∧
      (Scan.push { topLevelLabel := "A" } {} line).2 = some ⟨1, ⟨payload⟩⟩ ∧
      Marker.ofLineAt {} number line = .error ⟨number, payload⟩ := by
  intro written exposed line payload number
  have each (p : Char → Bool) (text : List Char) (h : text.all p = true) :
      ∀ c ∈ text, p c = true := List.all_eq_true.1 h
  have largest : "9007,19,,9254740991".toList.filter (· ≠ ',') =
      Nat.toDigits 10 Binary64.maxSafe := by decide +kernel
  have writes : Writes written Binary64.maxSafe :=
    .parts (each _ _ (by decide)) largest (each _ _ (by decide)) (each _ _ (by decide))
      (each _ _ (by decide))
  have bare : (trim exposed).filter (· ≠ ',') = [' '] ++ "0012".toList ++ [] ++ "ms".toList := by
    decide +kernel
  have value : Nat.ofDigitChars 10 "0012".toList 0 = 12 := by decide +kernel
  have spells : Spells ((trim exposed).filter (· ≠ ',')) 12 := by
    rw [bare, ← value]
    exact .parts (each _ _ (by decide)) (by decide) (each _ _ (by decide)) (each _ _ (by decide))
      (each _ _ (by decide))
  have refused : Glyphs.Refuses {} line payload.toList := by
    refine ⟨by decide +kernel, Text.after?_eq_some_iff.1 (by decide +kernel), ?_⟩
    intro cycles counted
    have not_read : parse payload.toList = .error ⟨payload⟩ := by decide +kernel
    rw [parse_eq_ok_iff.2 counted] at not_read
    cases not_read
  have trimmed : String.ofList (trim payload.toList) = payload := by decide +kernel
  obtain ⟨-, -, -, reads⟩ := parse_language written
  obtain ⟨exact_, -⟩ := parse_language exposed
  obtain ⟨-, refuses, reported, -⟩ := parse_language payload.toList
  rw [trimmed] at refuses reported
  obtain ⟨inPass, onLine⟩ := reported { topLevelLabel := "A" } {} line refused
  exact ⟨writes, reads number _ (Nat.le_refl _) writes, spells,
    (exact_ number 12).2 ⟨by decide, spells⟩, refused, refuses refused.uncounted number, inPass,
    onLine number⟩

end CycleCount
end CallCost
