import CallCost.Proofs.MalformedLines

/-!
Only the first glyph of a line and what follows it matter. A prefix in which no glyph begins is
passed over, and white space behind a line is trimmed off the label or the payload. A glyph that
starts in the prefix and ends in the line counts as one that begins in the prefix.
-/

namespace CallCost
namespace Text

/-- Two characters in a row begin in the first text, whatever the second one is, only where they
stand in the first or its last character is the one of them. -/
theorem forall_beginsBehind_pair_iff {a b : Char} {before : List Char} :
    (∀ text, BeginsBehind [a, b] before text) ↔
      ¬[a, b] <:+: before ∧ before.getLast? ≠ some a := by
  constructor
  · intro behind
    constructor
    · rintro ⟨front, back, rfl⟩
      refine behind [] front.length (by simp) ⟨back, ?_⟩
      simp
    · intro last
      obtain ⟨front, rfl⟩ := List.getLast?_eq_some_iff.1 last
      exact behind [b] front.length (by simp) (by simp)
  · rintro ⟨apart, last⟩ text i inside begins
    rw [List.drop_append_of_le_length (Nat.le_of_lt inside)] at begins
    have whole := List.take_append_drop i before
    cases rest : before.drop i with
    | nil => exact absurd (List.drop_eq_nil_iff.1 rest) (Nat.not_le.2 inside)
    | cons c rest' =>
        rw [rest, List.cons_append, List.cons_prefix_cons] at begins
        obtain ⟨rfl, begins⟩ := begins
        rw [rest] at whole
        cases rest' with
        | nil => exact last (by rw [← whole, List.getLast?_concat])
        | cons d rest' =>
            rw [List.cons_append, List.cons_prefix_cons] at begins
            obtain ⟨rfl, -⟩ := begins
            exact apart ⟨before.take i, rest', by simpa using whole⟩

/-- White space behind a text completes no pattern that ends in another character. -/
theorem prefix_of_prefix_append_blank {pattern text blanks : List Char} {c : Char}
    (last : pattern.getLast? = some c) (visible : isBlank c = false) (blank : AllBlank blanks)
    (begins : pattern <+: text ++ blanks) : pattern <+: text := by
  obtain ⟨following, same⟩ := begins
  rcases List.append_eq_append_iff.1 same with ⟨between, rfl, -⟩ | ⟨between, rfl, rest⟩
  · exact List.prefix_append pattern between
  · cases between with
    | nil => simp
    | cons d between =>
        rw [List.getLast?_append_of_ne_nil _ (List.cons_ne_nil d between)] at last
        have inside : c ∈ blanks := rest ▸ List.mem_append_left _ (List.mem_of_getLast? last)
        rw [blank c inside] at visible
        cases visible

theorem after?_append_blank {pattern blanks : List Char} {c : Char}
    (last : pattern.getLast? = some c) (visible : isBlank c = false) (blank : AllBlank blanks)
    (text : List Char) :
    after? pattern (text ++ blanks) = (after? pattern text).map (· ++ blanks) := by
  have notEmpty : pattern ≠ [] := by
    rintro rfl
    cases last
  induction text with
  | nil =>
      have none_begins : ¬pattern <:+: [] := mt List.eq_nil_of_infix_nil notEmpty
      have none_blank : ¬pattern <:+: blanks := by
        intro inside
        have hc : c ∈ blanks := inside.subset (List.mem_of_getLast? last)
        rw [blank c hc] at visible
        cases visible
      rw [List.nil_append, after?_eq_none_iff.2 none_blank, after?_eq_none_iff.2 none_begins]
      rfl
  | cons d text ih =>
      rw [List.cons_append, after?, after?]
      cases here : pattern.isPrefixOf? (d :: text) with
      | some following =>
          have later :
              pattern.isPrefixOf? (d :: (text ++ blanks)) = some (following ++ blanks) := by
            rw [← List.cons_append, ← List.append_eq_of_isPrefixOf?_eq_some here,
              List.append_assoc, isPrefixOf?_append]
          rw [later]
          rfl
      | none =>
          have later : pattern.isPrefixOf? (d :: (text ++ blanks)) = none := by
            rw [isPrefixOf?_eq_none_iff] at here ⊢
            intro begins
            exact here (prefix_of_prefix_append_blank last visible blank begins)
          rw [later]
          exact ih

end Text

theorem CycleCount.parse_append_blank {blanks : List Char} (blank : Text.AllBlank blanks)
    (payload : List Char) : parse (payload ++ blanks) = parse payload := by
  rw [parse, Text.trim_append_blank blank, ← parse]

/-- No glyph that stands in the two texts together begins in the first one. -/
structure Glyphs.BeginBehind (glyphs : Glyphs) (before line : String) : Prop where
  opening : Text.BeginsBehind glyphs.opening.toList before.toList line.toList
  closing : Text.BeginsBehind glyphs.closing.toList before.toList line.toList

instance (glyphs : Glyphs) (before line : String) : Decidable (glyphs.BeginBehind before line) :=
  decidable_of_iff
    (Text.BeginsBehind glyphs.opening.toList before.toList line.toList ∧
      Text.BeginsBehind glyphs.closing.toList before.toList line.toList)
    ⟨fun h => ⟨h.1, h.2⟩, fun h => ⟨h.opening, h.closing⟩⟩

/-- The default glyphs begin in a prefix, whatever line follows, only if one of them stands in it or
it ends with the first half of one. -/
theorem Glyphs.forall_beginBehind_iff {before : String} :
    (∀ line, BeginBehind {} before line) ↔
      ¬"┌╴".toList <:+: before.toList ∧ ¬"└╴".toList <:+: before.toList ∧
        before.toList.getLast? ≠ some '┌' ∧ before.toList.getLast? ≠ some '└' := by
  have apart : (∀ line, BeginBehind {} before line) ↔
      (∀ text, Text.BeginsBehind ['┌', '╴'] before.toList text) ∧
        ∀ text, Text.BeginsBehind ['└', '╴'] before.toList text := by
    constructor
    · intro behind
      have every (text : List Char) : BeginBehind {} before (String.ofList text) := behind _
      exact ⟨fun text => by simpa using (every text).opening,
        fun text => by simpa using (every text).closing⟩
    · rintro ⟨opening, closing⟩ line
      exact ⟨opening line.toList, closing line.toList⟩
  rw [apart, Text.forall_beginsBehind_pair_iff, Text.forall_beginsBehind_pair_iff]
  exact ⟨fun ⟨⟨opening, openHalf⟩, closing, closeHalf⟩ => ⟨opening, closing, openHalf, closeHalf⟩,
    fun ⟨opening, closing, openHalf, closeHalf⟩ => ⟨⟨opening, openHalf⟩, closing, closeHalf⟩⟩

namespace Marker

theorem ofLine_append {glyphs : Glyphs} {before line : String}
    (behind : glyphs.BeginBehind before line) :
    ofLine glyphs (before ++ line) = ofLine glyphs line := by
  simp only [ofLine, String.toList_append, Text.after?_append behind.opening,
    Text.after?_append behind.closing]

theorem ofLine_append_blank {blanks : String} (blank : Text.AllBlank blanks.toList)
    (line : String) : ofLine {} (line ++ blanks) = ofLine {} line := by
  have shown : Text.isBlank '╴' = false := by decide
  have opening : Text.after? "┌╴".toList (line.toList ++ blanks.toList) =
      (Text.after? "┌╴".toList line.toList).map (· ++ blanks.toList) :=
    Text.after?_append_blank rfl shown blank line.toList
  have closing : Text.after? "└╴".toList (line.toList ++ blanks.toList) =
      (Text.after? "└╴".toList line.toList).map (· ++ blanks.toList) :=
    Text.after?_append_blank rfl shown blank line.toList
  simp only [ofLine, String.toList_append, opening, closing]
  cases Text.after? "┌╴".toList line.toList with
  | some label => simp only [Option.map_some, Text.trim_append_blank blank]
  | none =>
      simp only [Option.map_none]
      cases Text.after? "└╴".toList line.toList with
      | some payload => simp only [Option.map_some, CycleCount.parse_append_blank blank]
      | none => rfl

end Marker

theorem Scan.push_congr {o : ScanOptions} {line line' : String}
    (same : Marker.ofLine o.glyphs line = Marker.ofLine o.glyphs line') (s : Scan) :
    s.push o line = s.push o line' := by
  rw [push, push, same]

/-- A line is read alike, and a pass takes it or refuses it alike, with any prefix in which no glyph
begins. For the default glyphs these are the prefixes that have neither glyph in them and do not end
with the first half of one. With these glyphs white space behind a line makes no difference
either. -/
theorem Marker.ofLine_surrounded :
    (∀ (o : ScanOptions) (before line : String), o.glyphs.BeginBehind before line →
        ofLine o.glyphs (before ++ line) = ofLine o.glyphs line ∧
          ∀ s : Scan, s.push o (before ++ line) = s.push o line) ∧
      (∀ before : String,
        (¬"┌╴".toList <:+: before.toList ∧ ¬"└╴".toList <:+: before.toList ∧
            before.toList.getLast? ≠ some '┌' ∧ before.toList.getLast? ≠ some '└') ↔
          ∀ line, Glyphs.BeginBehind {} before line) ∧
      ∀ (o : ScanOptions) (line blanks : String), o.glyphs = {} → Text.AllBlank blanks.toList →
        ofLine o.glyphs (line ++ blanks) = ofLine o.glyphs line ∧
          ∀ s : Scan, s.push o (line ++ blanks) = s.push o line := by
  refine ⟨fun o before line behind => ?_, fun before => Glyphs.forall_beginBehind_iff.symm,
    fun o line blanks same blank => ?_⟩
  · have read := ofLine_append behind
    exact ⟨read, Scan.push_congr read⟩
  · have read : ofLine o.glyphs (line ++ blanks) = ofLine o.glyphs line := by
      rw [same]
      exact ofLine_append_blank blank line
    exact ⟨read, Scan.push_congr read⟩

/-- A glyph that overlaps itself and the prefix, and a refused line between a log prefix with half
a glyph in it and a carriage return. -/
theorem Marker.ofLine_surrounded_half_glyph :
    let overlapping : ScanOptions :=
      { topLevelLabel := "A", glyphs := { opening := "aba", closing := "ab" } }
    let o : ScanOptions := { topLevelLabel := "A" }
    let front := "09:15 ┌ │ "
    let line := "└╴1,0 x2"
    overlapping.glyphs.BeginBehind "b" "ababa" ∧
      ofLine overlapping.glyphs ("b" ++ "ababa") = .ok (.opened "ba") ∧
      Glyphs.BeginBehind {} front line ∧ Text.AllBlank " \r".toList ∧
      ofLine o.glyphs (front ++ line ++ " \r") = .error ⟨"1,0 x2"⟩ ∧
      (Scan.push o {} (front ++ line ++ " \r")).2 = some ⟨1, ⟨"1,0 x2"⟩⟩ := by
  intro overlapping o front line
  obtain ⟨prefixed, halves, trailed⟩ := ofLine_surrounded
  have behind : overlapping.glyphs.BeginBehind "b" "ababa" := by decide +kernel
  have clear : Glyphs.BeginBehind {} front line := (halves front).1 (by decide +kernel) line
  have blank : Text.AllBlank " \r".toList := List.all_eq_true.1 (by decide)
  obtain ⟨opened, -⟩ := prefixed overlapping "b" "ababa" behind
  obtain ⟨trailedRead, trailedPush⟩ := trailed o (front ++ line) " \r" rfl blank
  obtain ⟨read, pushed⟩ := prefixed o front line clear
  refine ⟨behind, opened.trans (by decide +kernel), clear, blank, ?_, ?_⟩
  · rw [trailedRead, read]
    decide +kernel
  · rw [trailedPush, pushed]
    decide +kernel

/-- The halves of a glyph make a marker of a line that has none. -/
example : Marker.ofLine {} "╴a" = .ok .ignored ∧
    Marker.ofLine {} ("┌" ++ "╴a") = .ok (.opened "a") := by decide +kernel

end CallCost
