import CallCost.Proofs.ScanSteps
import Mathlib.Data.List.Basic

/-!
Lines that are written with a marker are read back. An opening line gives back its label if
trimming leaves the label as it is; a closing line gives back every safe cycle count, written in
groups of three digits with its unit.
-/

namespace CallCost
namespace Text

theorem isPrefixOf?_eq_none_iff {pattern text : List Char} :
    pattern.isPrefixOf? text = none ↔ ¬pattern <+: text := by
  rw [Option.eq_none_iff_forall_ne_some]
  constructor
  · rintro absent ⟨following, same⟩
    exact absent following (List.isPrefixOf?_eq_some_iff_append_eq.2 same)
  · intro absent following here
    exact absent ⟨following, List.append_eq_of_isPrefixOf?_eq_some here⟩

/-- No occurrence of the pattern in the two texts together begins in the first one. -/
def BeginsBehind (pattern before text : List Char) : Prop :=
  ∀ i < before.length, ¬pattern <+: (before ++ text).drop i

instance (pattern before text : List Char) : Decidable (BeginsBehind pattern before text) :=
  inferInstanceAs (Decidable (∀ i < before.length, ¬pattern <+: (before ++ text).drop i))

/-- A search passes over a text in which no occurrence begins. -/
theorem after?_append {pattern before text : List Char}
    (behind : BeginsBehind pattern before text) :
    after? pattern (before ++ text) = after? pattern text := by
  induction before with
  | nil => rfl
  | cons c before ih =>
      have here : pattern.isPrefixOf? (c :: (before ++ text)) = none :=
        isPrefixOf?_eq_none_iff.2 (behind 0 (Nat.zero_lt_succ _))
      rw [List.cons_append, after?, here]
      exact ih fun i hi => behind (i + 1) (Nat.succ_lt_succ hi)

theorem after?_append_of_not_mem {first : Char} (pattern : List Char) {before : List Char}
    (h : first ∉ before) (text : List Char) :
    after? (first :: pattern) (before ++ text) = after? (first :: pattern) text := by
  apply after?_append
  intro i inside begins
  rw [List.drop_append_of_le_length (Nat.le_of_lt inside), List.drop_eq_getElem_cons inside,
    List.cons_append, List.cons_prefix_cons] at begins
  exact h (begins.1 ▸ List.getElem_mem inside)

theorem after?_eq_none {first : Char} (pattern : List Char) {text : List Char}
    (h : first ∉ text) : after? (first :: pattern) text = none := by
  rw [← List.append_nil text, after?_append_of_not_mem pattern h]
  rfl

theorem isPrefixOf?_append (pattern text : List Char) :
    pattern.isPrefixOf? (pattern ++ text) = some text := by
  induction pattern with
  | nil => cases text <;> rfl
  | cons c rest ih => exact (if_pos (beq_self_eq_true c)).trans ih

theorem after?_pattern_append (pattern text : List Char) :
    after? pattern (pattern ++ text) = some text := by
  cases pattern with
  | nil => exact after?_nil text
  | cons c rest =>
      rw [List.cons_append, after?, ← List.cons_append, isPrefixOf?_append]

theorem trimStart_eq_self {text : List Char} (h : ∀ c, text.head? = some c → isBlank c = false) :
    trimStart text = text := by
  cases text with
  | nil => rfl
  | cons c rest =>
      apply List.dropWhile_cons_of_neg
      simp [h c rfl]

theorem trimEnd_eq_self {text : List Char} (h : ∀ c, text.getLast? = some c → isBlank c = false) :
    trimEnd text = text := by
  have reversed : trimStart text.reverse = text.reverse := by
    apply trimStart_eq_self
    intro c hc
    exact h c (by rwa [List.head?_reverse] at hc)
  rw [trimEnd, ← trimStart, reversed, List.reverse_reverse]

theorem trim_eq_self {text : List Char} (first : ∀ c, text.head? = some c → isBlank c = false)
    (last : ∀ c, text.getLast? = some c → isBlank c = false) : trim text = text := by
  rw [trim, trimStart_eq_self first, trimEnd_eq_self last]

theorem isBlank_of_head?_trimStart (text : List Char) {c : Char}
    (h : (trimStart text).head? = some c) : isBlank c = false := by
  have first := List.head?_dropWhile_not isBlank text
  rw [← trimStart, h] at first
  exact first

theorem isBlank_of_head?_trim (text : List Char) {c : Char} (h : (trim text).head? = some c) :
    isBlank c = false := by
  -- The first character stays the first when the end is trimmed.
  obtain ⟨blanks, split⟩ : trim text <+: trimStart text := by
    rw [← List.reverse_suffix, trim, trimEnd, List.reverse_reverse]
    exact List.dropWhile_suffix _
  apply isBlank_of_head?_trimStart text
  rw [← split, List.head?_append, h, Option.some_or]

/-- A text that is trimmed once is trimmed for good. -/
theorem trim_trim (text : List Char) : trim (trim text) = trim text := by
  apply trim_eq_self
  · intro c hc
    exact isBlank_of_head?_trim text hc
  · intro c hc
    apply isBlank_of_head?_trimStart (trimStart text).reverse
    rwa [trim, trimEnd, List.getLast?_reverse] at hc

/-- The text has no white space around it. -/
def IsTrimmed (text : String) : Prop :=
  trim text.toList = text.toList

theorem isTrimmed_trim (text : List Char) : IsTrimmed (String.ofList (trim text)) := by
  rw [IsTrimmed, String.toList_ofList, trim_trim]

theorem isBlank_eq_false_of_isDigit {c : Char} (h : c.isDigit = true) : isBlank c = false := by
  obtain ⟨low, high⟩ := Char.isDigit_iff_toNat.1 h
  change 48 ≤ c.toNat at low
  change c.toNat ≤ 57 at high
  rw [isBlank, List.any_eq_false]
  intro range hr
  simp only [blankRanges, List.mem_cons, List.not_mem_nil, or_false] at hr
  simp only [Bool.and_eq_true, decide_eq_true_eq]
  rcases hr with rfl | rfl | rfl | rfl | rfl | rfl | rfl | rfl | rfl | rfl <;> omega

end Text

namespace CycleCount

/-- Digits with a comma in front of every group of three but the first. -/
def grouped : List Char → List Char
  | [] => []
  | c :: rest =>
      if rest ≠ [] ∧ rest.length % 3 = 0 then c :: ',' :: grouped rest else c :: grouped rest

def text (cycles : Nat) : String :=
  String.ofList (grouped (Nat.toDigits 10 cycles)) ++ " cycles"

theorem filter_grouped {digits : List Char} (h : ',' ∉ digits) :
    (grouped digits).filter (· ≠ ',') = digits := by
  induction digits with
  | nil => rfl
  | cons c rest ih =>
      simp only [List.mem_cons, not_or] at h
      have kept : decide (c ≠ ',') = true := decide_eq_true (Ne.symm h.1)
      have dropped : ¬decide (',' ≠ ',') = true := by decide
      rw [grouped]
      split
      · rw [List.filter_cons, if_pos kept, List.filter_cons, if_neg dropped, ih h.2]
      · rw [List.filter_cons, if_pos kept, ih h.2]

theorem head?_grouped (digits : List Char) : (grouped digits).head? = digits.head? := by
  cases digits with
  | nil => rfl
  | cons c rest =>
      rw [grouped]
      split <;> rfl

theorem ofDigitChars_dropWhile_zero (digits : List Char) :
    Nat.ofDigitChars 10 (digits.dropWhile (· = '0')) 0 = Nat.ofDigitChars 10 digits 0 := by
  induction digits with
  | nil => rfl
  | cons c rest ih =>
      by_cases h : c = '0'
      · subst h
        simpa [Nat.ofDigitChars_cons] using ih
      · simp [h]

theorem readDigits?_toDigits {cycles : Nat} (safe : cycles ≤ Binary64.maxSafe) :
    readDigits? (Nat.toDigits 10 cycles) = some cycles := by
  have digits : ((Nat.toDigits 10 cycles).any fun c => !c.isDigit) = false := by
    simp only [List.any_eq_false, Bool.not_eq_true', Bool.not_eq_false]
    exact fun c hc => Nat.isDigit_of_mem_toDigits (by decide) (by decide) hc
  have few : ((Nat.toDigits 10 cycles).dropWhile (· = '0')).length ≤ 16 := by
    apply Nat.le_trans (List.dropWhile_suffix _).length_le
    rw [Nat.length_toDigits_le_iff (by decide) (by decide)]
    exact Nat.lt_of_le_of_lt safe (by decide)
  have value := ofDigitChars_dropWhile_zero (Nat.toDigits 10 cycles)
  rw [Nat.ofDigitChars_ten_toDigits] at value
  simp only [readDigits?, value, digits, Nat.toDigits_ne_nil, Nat.not_lt.2 few, safe, if_true,
    Bool.false_eq_true, or_self, if_false]

theorem dropUnit_append_cycles {digits : List Char} (h : ∀ c ∈ digits, c.isDigit = true) :
    dropUnit (digits ++ " cycles".toList) = digits := by
  have reversed : (digits ++ " cycles".toList).reverse = "selcyc".toList ++ ' ' :: digits.reverse :=
    List.reverse_append
  have letters : ("selcyc".toList ++ ' ' :: digits.reverse).dropWhile Char.isAlpha =
      ' ' :: digits.reverse := by
    have all : "selcyc".toList.all Char.isAlpha = true := rfl
    rw [List.dropWhile_append_of_pos (List.all_eq_true.1 all)]
    rfl
  have last : Text.trimEnd digits = digits := Text.trimEnd_eq_self fun c hc =>
    Text.isBlank_eq_false_of_isDigit (h c (List.mem_of_getLast? hc))
  rw [dropUnit, reversed]
  simp only [letters]
  exact last

theorem filter_text (cycles : Nat) :
    (text cycles).toList.filter (· ≠ ',') = Nat.toDigits 10 cycles ++ " cycles".toList := by
  rw [text, String.toList_append, String.toList_ofList, List.filter_append, filter_grouped]
  · rfl
  · intro hc
    exact absurd (Nat.isDigit_of_mem_toDigits (by decide) (by decide) hc) (by decide)

theorem mem_text {cycles : Nat} {c : Char} (h : c ∈ (text cycles).toList) :
    c = ',' ∨ c.isDigit = true ∨ c ∈ " cycles".toList := by
  by_cases comma : c = ','
  · exact .inl comma
  · have kept : c ∈ (text cycles).toList.filter (· ≠ ',') :=
      List.mem_filter.2 ⟨h, decide_eq_true comma⟩
    rw [filter_text, List.mem_append] at kept
    exact .inr (kept.imp_left (Nat.isDigit_of_mem_toDigits (by decide) (by decide)))

/-- Every safe count is read back from its text. -/
theorem parse_text {cycles : Nat} (safe : cycles ≤ Binary64.maxSafe) :
    parse (text cycles).toList = .ok cycles := by
  have digits : ∀ c ∈ Nat.toDigits 10 cycles, c.isDigit = true := fun c hc =>
    Nat.isDigit_of_mem_toDigits (by decide) (by decide) hc
  have trimmed : Text.trim (text cycles).toList = (text cycles).toList := by
    rw [text, String.toList_append, String.toList_ofList]
    apply Text.trim_eq_self
    · intro c hc
      obtain ⟨d, hd⟩ := Option.ne_none_iff_exists'.1
        (mt List.head?_eq_none_iff.1 (Nat.toDigits_ne_nil (n := cycles) (b := 10)))
      rw [List.head?_append, head?_grouped, hd] at hc
      cases hc
      exact Text.isBlank_eq_false_of_isDigit (digits c (List.mem_of_head? hd))
    · intro c hc
      have last : " cycles".toList.getLast? = some 's' := rfl
      rw [List.getLast?_append, last] at hc
      cases hc
      decide
  have bare : Text.trim (Nat.toDigits 10 cycles) = Nat.toDigits 10 cycles := by
    apply Text.trim_eq_self
    · exact fun c hc => Text.isBlank_eq_false_of_isDigit (digits c (List.mem_of_head? hc))
    · exact fun c hc => Text.isBlank_eq_false_of_isDigit (digits c (List.mem_of_getLast? hc))
  simp only [parse, trimmed, read?, filter_text, dropUnit_append_cycles digits, bare,
    readDigits?_toDigits safe]

end CycleCount

/-- A bar and a space for each level of depth. -/
def bars (depth : Nat) : String :=
  String.join (List.replicate depth "│ ")

def openingLine (depth : Nat) (label : String) : String :=
  bars depth ++ "┌╴" ++ label

def closingLine (depth cycles : Nat) : String :=
  bars depth ++ "└╴" ++ CycleCount.text cycles

theorem mem_bars {depth : Nat} {c : Char} (h : c ∈ (bars depth).toList) : c = '│' ∨ c = ' ' := by
  rw [bars, String.toList_join] at h
  obtain ⟨bar, hbar, hc⟩ := List.mem_flatMap.1 h
  rw [List.eq_of_mem_replicate hbar] at hc
  simpa using hc

theorem ofLine_openingLine (depth : Nat) {label : String}
    (trimmed : Text.trim label.toList = label.toList) :
    Marker.ofLine {} (openingLine depth label) = .ok (.opened label) := by
  have clear : '┌' ∉ (bars depth).toList := fun h => absurd (mem_bars h) (by decide)
  have found : Text.after? "┌╴".toList (openingLine depth label).toList = some label.toList := by
    rw [openingLine, String.append_assoc, String.toList_append, String.toList_append]
    exact (Text.after?_append_of_not_mem ['╴'] clear _).trans (Text.after?_pattern_append _ _)
  simp only [Marker.ofLine, found, trimmed, String.ofList_toList]

theorem ofLine_closingLine (depth : Nat) {cycles : Nat} (safe : cycles ≤ Binary64.maxSafe) :
    Marker.ofLine {} (closingLine depth cycles) = .ok (.closed cycles) := by
  have clear : '└' ∉ (bars depth).toList := fun h => absurd (mem_bars h) (by decide)
  have unopened : Text.after? "┌╴".toList (closingLine depth cycles).toList = none := by
    apply Text.after?_eq_none ['╴']
    rw [closingLine, String.toList_append, String.toList_append]
    intro h
    rcases List.mem_append.1 h with h | h
    · rcases List.mem_append.1 h with h | h
      · exact absurd (mem_bars h) (by decide)
      · exact absurd h (by decide)
    · exact absurd (CycleCount.mem_text h) (by decide)
  have found : Text.after? "└╴".toList (closingLine depth cycles).toList =
      some (CycleCount.text cycles).toList := by
    rw [closingLine, String.append_assoc, String.toList_append, String.toList_append]
    exact (Text.after?_append_of_not_mem ['╴'] clear _).trans (Text.after?_pattern_append _ _)
  simp only [Marker.ofLine, unopened, found, CycleCount.parse_text safe]
  rfl

end CallCost
