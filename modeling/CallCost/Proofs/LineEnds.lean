import CallCost.Text.Lines

/-!
The two readings of a text into lines, one line at a time. They agree on a text exactly if each of
its carriage returns stands right before a line feed: any other one stays in a line of the one
reading, and no line of the other has a carriage return.
-/

namespace CallCost.Text

/-- Each carriage return has a line feed right after it. -/
def ReturnsEndLines (text : List Char) : Prop :=
  ∀ rest, '\r' :: rest <:+ text → rest.head? = some '\n'

theorem returnsEndLines_nil : ReturnsEndLines [] := by
  intro rest inside
  simp at inside

theorem returnsEndLines_cons {c : Char} {text : List Char} :
    ReturnsEndLines (c :: text) ↔ (c = '\r' → text.head? = some '\n') ∧ ReturnsEndLines text := by
  simp only [ReturnsEndLines, List.suffix_cons_iff, List.cons.injEq]
  constructor
  · intro h
    exact ⟨fun here => h text (.inl ⟨here.symm, rfl⟩), fun rest inside => h rest (.inr inside)⟩
  · rintro ⟨here, below⟩ rest (⟨rfl, rfl⟩ | inside)
    · exact here rfl
    · exact below rest inside

instance ReturnsEndLines.decidable : DecidablePred ReturnsEndLines
  | [] => isTrue returnsEndLines_nil
  | _ :: text =>
      have := ReturnsEndLines.decidable text
      decidable_of_iff _ returnsEndLines_cons.symm

/-! ### One line after the other -/

/-- A text is one line without a line feed, or such a line, a line feed and a text. -/
theorem line_induction {motive : List Char → Prop}
    (last : ∀ line, '\n' ∉ line → motive line)
    (line : ∀ line rest, '\n' ∉ line → motive rest → motive (line ++ '\n' :: rest))
    (text : List Char) : motive text := by
  induction h : text.length using Nat.strongRecOn generalizing text with
  | ind n ih =>
      by_cases ends : '\n' ∈ text
      · obtain ⟨front, rest, rfl, free⟩ := List.eq_append_cons_of_mem ends
        refine line front rest free (ih rest.length ?_ rest rfl)
        simp only [List.length_append, List.length_cons] at h
        omega
      · exact last text ends

theorem dropReturn_cons_cons (c d : Char) (line : List Char) :
    dropReturn (c :: d :: line) = c :: dropReturn (d :: line) := by
  simp only [dropReturn, List.getLast?_cons_cons, List.dropLast_cons_cons]
  split <;> rfl

theorem returnsEndLines_append_break {line : List Char} (free : '\n' ∉ line) (rest : List Char) :
    ReturnsEndLines (line ++ '\n' :: rest) ↔ '\r' ∉ dropReturn line ∧ ReturnsEndLines rest := by
  induction line with
  | nil => simp [returnsEndLines_cons, dropReturn]
  | cons c line ih =>
      rw [List.cons_append, returnsEndLines_cons, ih (List.not_mem_of_not_mem_cons free)]
      cases line with
      | nil => by_cases h : c = '\r' <;> simp [dropReturn, h, eq_comm]
      | cons d line =>
          have inner : d ≠ '\n' := by rintro rfl; simp at free
          simp [dropReturn_cons_cons, inner, and_assoc, eq_comm]

theorem returnsEndLines_of_not_mem {line : List Char} (free : '\n' ∉ line) :
    ReturnsEndLines line ↔ '\r' ∉ line := by
  induction line with
  | nil => simp [returnsEndLines_nil]
  | cons c line ih =>
      have inner : line.head? ≠ some '\n' :=
        fun here => free (.tail _ (List.mem_of_mem_head? here))
      rw [returnsEndLines_cons, ih (List.not_mem_of_not_mem_cons free)]
      simp [inner, eq_comm]

theorem terminated_append_break (endOfLine : List Char → List Char) {line : List Char}
    (free : '\n' ∉ line) (rest : List Char) :
    terminated endOfLine ((line ++ '\n' :: rest).splitOn '\n') =
      endOfLine line :: terminated endOfLine (rest.splitOn '\n') := by
  rw [List.splitOn_append_cons_self_of_not_mem free]
  cases pieces : rest.splitOn '\n' with
  | nil => exact absurd pieces (List.splitOn_ne_nil '\n' rest)
  | cons piece pieces => simp [terminated, List.getLast?_cons_cons]

theorem terminated_of_not_mem (endOfLine : List Char → List Char) {line : List Char}
    (free : '\n' ∉ line) :
    terminated endOfLine (line.splitOn '\n') = if line = [] then [] else [line] := by
  rw [List.splitOn_eq_singleton free]
  by_cases h : line = [] <;> simp [terminated, h]

theorem lines_append_break {line : List Char} (free : '\n' ∉ line) (rest : List Char) :
    lines (line ++ '\n' :: rest) = dropReturn line :: lines rest :=
  terminated_append_break dropReturn free rest

theorem lines_of_not_mem {line : List Char} (free : '\n' ∉ line) :
    lines line = if line = [] then [] else [line] :=
  terminated_of_not_mem dropReturn free

/-- A line that stands before a line feed keeps its text, with or without a carriage return. -/
theorem eq_dropReturn_or (line : List Char) :
    line = dropReturn line ∨ line = dropReturn line ++ ['\r'] := by
  rw [dropReturn]
  split
  · rename_i last
    obtain ⟨front, rfl⟩ := List.getLast?_eq_some_iff.1 last
    exact .inr (by rw [List.dropLast_concat])
  · exact .inl rfl

theorem returnsEndLines_iff_lines (text : List Char) :
    ReturnsEndLines text ↔ ∀ line ∈ lines text, '\r' ∉ line := by
  induction text using line_induction with
  | last line free =>
      rw [returnsEndLines_of_not_mem free, lines_of_not_mem free]
      by_cases h : line = [] <;> simp [h]
  | line line rest free ih =>
      rw [returnsEndLines_append_break free, lines_append_break free, ih, List.forall_mem_cons]

theorem return_not_mem_terminated {text : List Char} (free : '\r' ∉ text) :
    ∀ line ∈ terminated id (text.splitOn '\n'), '\r' ∉ line := by
  induction text using line_induction with
  | last line unbroken =>
      rw [terminated_of_not_mem id unbroken]
      by_cases h : line = [] <;> simp [h, free]
  | line line rest unbroken ih =>
      simp only [List.mem_append, List.mem_cons, not_or] at free
      rw [terminated_append_break id unbroken, List.forall_mem_cons]
      exact ⟨free.1, ih free.2.2⟩

/-! ### Any line end -/

/-- The single line ends for what follows a character. -/
def breaksAfter (previous : Char) (text : List Char) : List Char :=
  ((previous :: text).zip text).filterMap fun (previous, c) =>
    if c = '\r' then some '\n'
    else if c = '\n' ∧ previous = '\r' then none
    else some c

section Breaks

variable {previous c : Char} {line : List Char} (text rest : List Char)

theorem breaksAfter_return :
    breaksAfter previous ('\r' :: text) = '\n' :: breaksAfter '\r' text := rfl

theorem breaksAfter_return_break :
    breaksAfter '\r' ('\n' :: text) = breaksAfter '\n' text := rfl

theorem breaksAfter_cons (inside : previous ≠ '\r') (other : c ≠ '\r') :
    breaksAfter previous (c :: text) = c :: breaksAfter c text := by
  simp [breaksAfter, inside, other]

theorem breaksAfter_eq (inside : previous ≠ '\r') :
    breaksAfter previous text = unifyBreaks text := by
  cases text with
  | nil => rfl
  | cons c text =>
      change breaksAfter previous (c :: text) = breaksAfter ' ' (c :: text)
      by_cases h : c = '\r'
      · subst h
        rfl
      · rw [breaksAfter_cons text inside h, breaksAfter_cons text (by decide) h]

theorem breaksAfter_append_break (inside : previous ≠ '\r') (free : '\n' ∉ line)
    (clean : '\r' ∉ dropReturn line) :
    breaksAfter previous (line ++ '\n' :: rest) = dropReturn line ++ '\n' :: unifyBreaks rest := by
  induction line generalizing previous with
  | nil =>
      rw [List.nil_append, breaksAfter_cons rest inside (by decide),
        breaksAfter_eq rest (by decide)]
      rfl
  | cons c line ih =>
      cases line with
      | nil =>
          by_cases h : c = '\r'
          · subst h
            rw [List.singleton_append, breaksAfter_return, breaksAfter_return_break,
              breaksAfter_eq rest (by decide)]
            rfl
          · have whole : dropReturn [c] = [c] := if_neg (by simpa using h)
            rw [whole, List.singleton_append, breaksAfter_cons _ inside h,
              breaksAfter_cons rest h (by decide), breaksAfter_eq rest (by decide)]
            rfl
      | cons d line =>
          rw [dropReturn_cons_cons, List.mem_cons, not_or] at clean
          rw [dropReturn_cons_cons, List.cons_append, breaksAfter_cons _ inside (Ne.symm clean.1),
            ih (Ne.symm clean.1) (List.not_mem_of_not_mem_cons free) clean.2]
          rfl

theorem breaksAfter_of_not_mem (inside : previous ≠ '\r') (clean : '\r' ∉ line) :
    breaksAfter previous line = line := by
  induction line generalizing previous with
  | nil => rfl
  | cons c line ih =>
      rw [List.mem_cons, not_or] at clean
      rw [breaksAfter_cons line inside (Ne.symm clean.1), ih (Ne.symm clean.1) clean.2]

theorem return_not_mem_unifyBreaks : '\r' ∉ unifyBreaks text := by
  rw [unifyBreaks, List.mem_filterMap]
  rintro ⟨⟨previous, c⟩, -, h⟩
  simp only at h
  split at h
  · cases h
  · split at h
    · cases h
    · rename_i other _
      exact other (Option.some.inj h)

theorem linesAtAnyBreak_append_break (free : '\n' ∉ line) (clean : '\r' ∉ dropReturn line) :
    linesAtAnyBreak (line ++ '\n' :: rest) = dropReturn line :: linesAtAnyBreak rest := by
  have unbroken : '\n' ∉ dropReturn line := by
    rcases eq_dropReturn_or line with same | longer
    · exact same ▸ free
    · exact fun h => free (longer ▸ List.mem_append_left _ h)
  have unified : unifyBreaks (line ++ '\n' :: rest) = dropReturn line ++ '\n' :: unifyBreaks rest :=
    breaksAfter_append_break rest (by decide : ' ' ≠ '\r') free clean
  rw [linesAtAnyBreak, unified, terminated_append_break id unbroken]
  rfl

theorem linesAtAnyBreak_of_not_mem (free : '\n' ∉ line) (clean : '\r' ∉ line) :
    linesAtAnyBreak line = if line = [] then [] else [line] := by
  have unified : unifyBreaks line = line :=
    breaksAfter_of_not_mem (by decide : ' ' ≠ '\r') clean
  rw [linesAtAnyBreak, unified, terminated_of_not_mem id free]

end Breaks

/-- The two readings agree on a text exactly if each of its carriage returns belongs to a line
feed. -/
theorem linesAtAnyBreak_eq_lines_iff (text : List Char) :
    linesAtAnyBreak text = lines text ↔ ReturnsEndLines text := by
  constructor
  · intro same
    rw [returnsEndLines_iff_lines, ← same]
    exact return_not_mem_terminated (return_not_mem_unifyBreaks text)
  · intro ends
    induction text using line_induction with
    | last line free =>
        have clean := (returnsEndLines_of_not_mem free).1 ends
        rw [linesAtAnyBreak_of_not_mem free clean, lines_of_not_mem free]
    | line line rest free ih =>
        obtain ⟨clean, below⟩ := (returnsEndLines_append_break free rest).1 ends
        rw [linesAtAnyBreak_append_break rest free clean, lines_append_break free, ih below]

example : linesAtAnyBreak ['a', '\r', '\r', '\n', '\n'] = [['a'], [], []] ∧
    lines ['a', '\r', '\r', '\n', '\n'] = [['a', '\r'], []] := by decide

end CallCost.Text
