import CallCost.Proofs.CountLanguage

/-!
What stops the reading of a trace. A line is refused for what stands on it: it has no opening
glyph, and behind its first closing glyph stands no cycle count. The first such line stops a pass
in whatever state it is, and its number and payload are all that the error tells.
-/

namespace CallCost
namespace Text

/-- The part of a text that follows the first occurrence of a pattern, which is the longest part
that follows any occurrence. -/
structure FirstAfter (pattern text rest : List Char) : Prop where
  occurs : pattern ++ rest <:+ text
  first : ∀ later, pattern ++ later <:+ text → later.length ≤ rest.length

theorem firstAfter_of_isPrefixOf? {pattern text rest : List Char}
    (h : pattern.isPrefixOf? text = some rest) : FirstAfter pattern text rest where
  occurs := List.append_eq_of_isPrefixOf?_eq_some h ▸ List.suffix_refl text
  first := by
    intro later occurs
    have long := occurs.length_le
    rw [← List.append_eq_of_isPrefixOf?_eq_some h, List.length_append, List.length_append] at long
    omega

/-- An occurrence behind the first character is one in the rest of the text. -/
theorem append_suffix_cons_iff {pattern text later : List Char} {c : Char}
    (h : pattern.isPrefixOf? (c :: text) = none) :
    pattern ++ later <:+ c :: text ↔ pattern ++ later <:+ text := by
  rw [List.suffix_cons_iff, or_iff_right]
  intro same
  rw [List.isPrefixOf?_eq_some_iff_append_eq.2 same] at h
  cases h

theorem firstAfter_of_after? {pattern text rest : List Char}
    (h : after? pattern text = some rest) : FirstAfter pattern text rest := by
  induction text with
  | nil => exact firstAfter_of_isPrefixOf? h
  | cons c text ih =>
      rw [after?] at h
      cases here : pattern.isPrefixOf? (c :: text) with
      | some following =>
          rw [here] at h
          cases h
          exact firstAfter_of_isPrefixOf? here
      | none =>
          rw [here] at h
          obtain ⟨occurs, first⟩ := ih h
          constructor
          · rwa [append_suffix_cons_iff here]
          · intro later
            rw [append_suffix_cons_iff here]
            exact first later

theorem after?_eq_none_iff {pattern text : List Char} :
    after? pattern text = none ↔ ¬pattern <:+: text := by
  induction text with
  | nil =>
      cases pattern with
      | nil => simp [after?, List.isPrefixOf?]
      | cons c rest => simp [after?, List.isPrefixOf?]
  | cons c text ih =>
      rw [after?, List.infix_cons_iff]
      cases here : pattern.isPrefixOf? (c :: text) with
      | some following =>
          have starts : pattern <+: c :: text :=
            ⟨following, List.append_eq_of_isPrefixOf?_eq_some here⟩
          simp [starts]
      | none =>
          have starts : ¬pattern <+: c :: text := isPrefixOf?_eq_none_iff.1 here
          simp [starts, ih]

theorem after?_eq_some_iff {pattern text rest : List Char} :
    after? pattern text = some rest ↔ FirstAfter pattern text rest := by
  constructor
  · exact firstAfter_of_after?
  · rintro ⟨occurs, first⟩
    cases found : after? pattern text with
    | none =>
        have inside : pattern <:+: text :=
          List.infix_iff_prefix_suffix.2 ⟨_, List.prefix_append _ _, occurs⟩
        exact absurd inside (after?_eq_none_iff.1 found)
    | some rest' =>
        obtain ⟨occurs', first'⟩ := firstAfter_of_after? found
        -- Both are ends of the text, and neither is longer than the other.
        have length : rest'.length = rest.length :=
          Nat.le_antisymm (first _ occurs') (first' _ occurs)
        have ends : rest' <:+ rest := List.suffix_of_suffix_length_le
          ((List.suffix_append _ _).trans occurs') ((List.suffix_append _ _).trans occurs)
          (Nat.le_of_eq length)
        rw [ends.eq_of_length length]

end Text

/-- A close marker without a count: there is no opening glyph on the line, and what follows the
first closing glyph stands for no cycle count. -/
structure Glyphs.Refuses (glyphs : Glyphs) (line : String) (payload : List Char) : Prop where
  unopened : ¬glyphs.opening.toList <:+: line.toList
  closing : Text.FirstAfter glyphs.closing.toList line.toList payload
  uncounted : ∀ cycles, ¬CycleCount.IsCount payload cycles

theorem Marker.ofLine_eq_error_iff {glyphs : Glyphs} {line : String}
    {cause : MalformedCycleCount} :
    ofLine glyphs line = .error cause ↔
      ∃ payload, glyphs.Refuses line payload ∧ cause = ⟨String.ofList (Text.trim payload)⟩ := by
  rw [ofLine]
  constructor
  · intro h
    split at h
    · cases h
    · rename_i unopened
      split at h
      · rename_i payload closing
        cases parsed : CycleCount.parse payload with
        | ok cycles => rw [parsed] at h; cases h
        | error cause' =>
            rw [parsed] at h
            cases h
            obtain ⟨uncounted, rfl⟩ := CycleCount.parse_eq_error_iff.1 parsed
            exact ⟨payload, ⟨Text.after?_eq_none_iff.1 unopened,
              Text.after?_eq_some_iff.1 closing, uncounted⟩, rfl⟩
      · cases h
  · rintro ⟨payload, ⟨unopened, closing, uncounted⟩, rfl⟩
    have parsed := CycleCount.parse_eq_error_iff.2 ⟨uncounted, rfl⟩
    simp only [Text.after?_eq_none_iff.2 unopened, Text.after?_eq_some_iff.2 closing, parsed]
    rfl

theorem Glyphs.malformed_iff {glyphs : Glyphs} {line : String} :
    glyphs.Malformed line ↔ ∃ payload, glyphs.Refuses line payload := by
  simp only [Malformed, Marker.ofLine_eq_error_iff]
  constructor
  · rintro ⟨_, payload, refused, _⟩
    exact ⟨payload, refused⟩
  · rintro ⟨payload, refused⟩
    exact ⟨_, payload, refused, rfl⟩

namespace Scan

/-- A pass is stopped by the first malformed line, whatever it has met before. -/
theorem pushAll_malformed {o : ScanOptions} {line : String} {cause : MalformedCycleCount}
    (here : Marker.ofLine o.glyphs line = .error cause) (after : List String) :
    ∀ (before : List String) (s : Scan), (∀ l ∈ before, ¬o.glyphs.Malformed l) →
      s.pushAll o (before ++ line :: after) =
        .error ⟨s.stats.lines + (before.length + 1), cause⟩ := by
  intro before
  induction before with
  | nil =>
      intro s _
      simp [pushAll, push, here]
  | cons first rest ih =>
      intro s earlier
      obtain ⟨sound, later⟩ := List.forall_mem_cons.1 earlier
      cases said : Marker.ofLine o.glyphs first with
      | error cause => exact absurd ⟨cause, said⟩ sound
      | ok marker =>
          have passed : s.push o first = ((s.push o first).1, none) := by simp [push, said]
          rw [List.cons_append, pushAll, passed]
          simp only [ih _ later, lines_push, List.length_cons]
          congr 2
          omega

end Scan

/-- Lines are either all sound or split at the first malformed one. -/
theorem Glyphs.sound_or_split (glyphs : Glyphs) (lines : List String) :
    (∀ l ∈ lines, ¬glyphs.Malformed l) ∨
      ∃ before line after cause, lines = before ++ line :: after ∧
        (∀ l ∈ before, ¬glyphs.Malformed l) ∧ Marker.ofLine glyphs line = .error cause := by
  induction lines with
  | nil => exact .inl fun _ h => absurd h List.not_mem_nil
  | cons first rest ih =>
      by_cases malformed : glyphs.Malformed first
      · obtain ⟨cause, said⟩ := malformed
        exact .inr ⟨[], first, rest, cause, rfl, fun _ h => absurd h List.not_mem_nil, said⟩
      · rcases ih with all | ⟨before, line, after, cause, split, earlier, here⟩
        · exact .inl (List.forall_mem_cons.2 ⟨malformed, all⟩)
        · exact .inr ⟨first :: before, line, after, cause, congrArg (first :: ·) split,
            List.forall_mem_cons.2 ⟨malformed, earlier⟩, here⟩

/-- The first refused line of a trace, as the error that tells of it. Lines are counted from
one. -/
inductive Glyphs.FirstRefusal (glyphs : Glyphs) (lines : List String) : MalformedLine → Prop where
  | intro {before after : List String} {line : String} {payload : List Char}
      (split : lines = before ++ line :: after)
      (earlier : ∀ l ∈ before, ∀ p, ¬glyphs.Refuses l p) (refused : glyphs.Refuses line payload) :
      FirstRefusal glyphs lines ⟨before.length + 1, ⟨String.ofList (Text.trim payload)⟩⟩

theorem Glyphs.not_malformed_iff {glyphs : Glyphs} {lines : List String} :
    (∀ l ∈ lines, ¬glyphs.Malformed l) ↔ ∀ l ∈ lines, ∀ p, ¬glyphs.Refuses l p := by
  simp only [malformed_iff, not_exists]

theorem Profile.ofLines_of_firstRefusal {o : ScanOptions} {lines : List String}
    {e : MalformedLine} (h : o.glyphs.FirstRefusal lines e) : ofLines o lines = .error e := by
  cases h with
  | @intro before after line payload split earlier refused =>
      have stopped := Scan.pushAll_malformed (Marker.ofLine_eq_error_iff.2 ⟨payload, refused, rfl⟩)
        after before {} (Glyphs.not_malformed_iff.2 earlier)
      rw [← split] at stopped
      rw [ofLines, stopped, Nat.zero_add]
      rfl

/-- A trace is read without an error, or it has a first refused line. -/
theorem Profile.ofLines_ok_or_firstRefusal (o : ScanOptions) (lines : List String) :
    (∃ p, ofLines o lines = .ok p) ∧ (∀ l ∈ lines, ∀ p, ¬o.glyphs.Refuses l p) ∨
      ∃ e, o.glyphs.FirstRefusal lines e := by
  rcases o.glyphs.sound_or_split lines with
    sound | ⟨before, line, after, cause, split, earlier, here⟩
  · exact .inl ⟨⟨_, ofLines_eq o lines sound⟩, Glyphs.not_malformed_iff.1 sound⟩
  · obtain ⟨payload, refused, -⟩ := Marker.ofLine_eq_error_iff.1 here
    exact .inr ⟨_, .intro split (Glyphs.not_malformed_iff.1 earlier) refused⟩

/-- Reading fails if and only if a line is refused, and then with the first such line. -/
theorem ofLines_eq_error_iff (o : ScanOptions) (lines : List String) :
    (∀ e, Profile.ofLines o lines = .error e ↔ o.glyphs.FirstRefusal lines e) ∧
      ((∃ e, Profile.ofLines o lines = .error e) ↔
        ∃ line ∈ lines, ∃ payload, o.glyphs.Refuses line payload) := by
  have first (e : MalformedLine) :
      Profile.ofLines o lines = .error e ↔ o.glyphs.FirstRefusal lines e := by
    constructor
    · intro failed
      rcases Profile.ofLines_ok_or_firstRefusal o lines with ⟨⟨p, complete⟩, -⟩ | ⟨e', refusal⟩
      · rw [complete] at failed
        cases failed
      · rw [Profile.ofLines_of_firstRefusal refusal] at failed
        cases failed
        exact refusal
    · exact Profile.ofLines_of_firstRefusal
  refine ⟨first, ?_, ?_⟩
  · rintro ⟨e, failed⟩
    cases (first e).1 failed with
    | intro split earlier refused =>
        exact ⟨_, split ▸ List.mem_append_right _ List.mem_cons_self, _, refused⟩
  · rintro ⟨line, mem, payload, refused⟩
    rcases Profile.ofLines_ok_or_firstRefusal o lines with ⟨-, sound⟩ | ⟨e, refusal⟩
    · exact absurd refused (sound line mem payload)
    · exact ⟨e, Profile.ofLines_of_firstRefusal refusal⟩

example : Profile.ofLines { topLevelLabel := "A", strictSections := true }
      ["┌╴B", "│ └╴1└╴2", "└╴1,0", "└╴x", "└╴"] =
    .error ⟨2, ⟨"1└╴2"⟩⟩ := by decide +kernel

end CallCost
