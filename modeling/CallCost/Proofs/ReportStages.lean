import CallCost.CommandLine.Run

/-!
A report put together step by step. Each line of the tree and of the flat totals is made on its
own, the flat totals are added in one call, and the lines are joined at the end; every step can be
out of range. The error of a run, which is found from the lengths alone, is that of the first such
step, and without an error the output of the run is what the steps make.
-/

namespace CallCost

/-- A text, if it is not too long. -/
def Text.fit (limits : Limits) (text : String) : Except RangeError String :=
  if limits.textUnits < Text.units text.toList then .error .textTooLong else .ok text

/-- The lines of a forest at a depth, made one after the other. -/
def Forest.lines? (limits : Limits) (layout : Layout) (depth : Nat) :
    Forest → Except RangeError (List String)
  | nil => .ok []
  | cons label calls cycles children siblings => do
      let line ← Node.line? limits layout depth ⟨label, calls, cycles, children⟩
      let below ← children.lines? limits layout (depth + 1)
      let beside ← siblings.lines? limits layout depth
      return line :: (below ++ beside)

namespace Run

/-- The lines with the flat totals behind them, if they are asked for. -/
def withFlat? (limits : Limits) (flags : Flags) (roots : Forest) (lines : List String) :
    Except RangeError (List String) :=
  if flags.flat ∧ roots ≠ .nil then do
    let totals ← (roots.totalsByLabel.map (·.line)).mapM (Text.fit limits)
    if limits.arguments < totals.length + 1 then .error .tooManyArguments
    else return lines ++ "" :: totals
  else .ok lines

/-- What a run sends of a profile, or the error that it is rejected with. -/
def report? (limits : Limits) (flags : Flags) (settings : Settings) (roots : Forest) :
    Except RangeError (List String) :=
  if flags.json then return [← Text.fit limits (roots.jsonText ++ "\n")]
  else do
    let tree ← roots.lines? limits (layout flags settings) 0
    match ← withFlat? limits flags roots tree with
    | [] => return []
    | lines => return [← Text.fit limits ("\n".intercalate lines ++ "\n")]

end Run

section

variable (limits : Limits)

theorem Node.line?_eq (layout : Layout) (depth : Nat) (n : Node) :
    n.line? limits layout depth = Text.fit limits (n.line layout depth) := by
  rw [line?, Text.repeat?, if_neg (Int.not_lt.2 (Int.natCast_nonneg depth)), Int.toNat_natCast,
    Text.fit, units_line, lineUnits]
  split <;> rfl

theorem Text.mapM_fit (texts : List String) :
    texts.mapM (fit limits) =
      if texts.any fun text => limits.textUnits < units text.toList then .error .textTooLong
      else .ok texts := by
  induction texts with
  | nil => rfl
  | cons text rest ih =>
      rw [List.mapM_cons, ih, fit, List.any_cons]
      by_cases long : limits.textUnits < units text.toList
      · simp [long]
        rfl
      · simp [long]
        split <;> rfl

theorem Forest.lines?_eq (layout : Layout) (f : Forest) (depth : Nat) :
    f.lines? limits layout depth = (f.linesBefore layout [] depth).mapM (Text.fit limits) := by
  induction f generalizing depth with
  | nil => rfl
  | cons label calls cycles children siblings ihc ihs =>
      rw [lines?, linesBefore, linesBefore_eq, List.mapM_cons, List.mapM_append, Node.line?_eq,
        ihc, ihs]
      simp

theorem Text.units_line_feed : units "\n".toList = 1 := rfl

theorem Text.units_joined {lines : List String} (some_ : lines ≠ []) :
    units ("\n".intercalate lines ++ "\n").toList =
      endedUnits (lines.map fun line => units line.toList) := by
  rw [String.toList_append, units_append, units_line_feed, String.toList_intercalate]
  induction lines with
  | nil => exact absurd rfl some_
  | cons line rest ih =>
      cases rest with
      | nil =>
          rw [List.map_singleton, List.intercalate_singleton, List.map_singleton]
          rfl
      | cons next rest =>
          specialize ih (List.cons_ne_nil _ _)
          rw [List.map_cons, List.map_cons, List.intercalate_cons_cons, units_append, units_append,
            units_line_feed, List.map_cons, endedUnits_cons, ← ih, List.map_cons]
          omega

namespace Run

/-- The flat totals go through if none of their lines is too long and one call can take them. -/
theorem withFlat?_eq (flags : Flags) (roots : Forest) (lines : List String) :
    withFlat? limits flags roots lines =
      if (flatLines flags roots).any fun line => limits.textUnits < Text.units line.toList then
        .error .textTooLong
      else if limits.arguments < (flatLines flags roots).length then .error .tooManyArguments
      else .ok (lines ++ flatLines flags roots) := by
  rw [withFlat?, flatLines]
  by_cases asked : flags.flat ∧ roots ≠ .nil
  · have empty : Text.units "".toList = 0 := rfl
    rw [if_pos asked, if_pos asked, Text.mapM_fit, List.any_cons, empty,
      decide_eq_false (Nat.not_lt_zero _), Bool.false_or, List.length_cons]
    split
    · rfl
    · rfl
  · rw [if_neg asked, if_neg asked, List.append_nil]
    rfl

/-- In a text report the lines decide. -/
theorem outputError?_text {flags : Flags} (text : ¬flags.json = true) (settings : Settings)
    (roots : Forest) :
    outputError? limits flags settings roots =
      if (reportLines flags settings roots).any
          fun line => limits.textUnits < Text.units line.toList then some .textTooLong
      else if limits.arguments < (flatLines flags roots).length then some .tooManyArguments
      else if limits.textUnits <
          Text.endedUnits
            ((reportLines flags settings roots).map fun line => Text.units line.toList) then
        some .textTooLong
      else none := by
  rw [outputError?, if_neg text, reportLines]
  simp only [Forest.lineUnits_eq, ← List.map_append, List.any_map]
  rfl

/-- The steps fail with the error of the run, and without one they make its output. -/
theorem report?_eq (flags : Flags) (settings : Settings) (roots : Forest) :
    report? limits flags settings roots =
      match outputError? limits flags settings roots with
      | some e => .error e
      | none => .ok (output flags settings roots) := by
  by_cases json : flags.json = true
  · rw [report?, outputError?, output, if_pos json, if_pos json, if_pos json, Text.fit,
      String.toList_append, Text.units_append, Text.units_line_feed]
    split <;> rfl
  · -- A line of the tree, a line of the flat totals, their number, the whole text: whatever fails
    -- first is the error.
    rw [report?, outputError?_text limits json, output, if_neg json, if_neg json,
      Forest.lines?_eq, Text.mapM_fit, ← Forest.lines, reportLines, List.any_append]
    cases (roots.lines (layout flags settings)).any
        fun line => limits.textUnits < Text.units line.toList with
    | true => rfl
    | false =>
        change (withFlat? limits flags roots (roots.lines (layout flags settings)) >>= _) = _
        rw [withFlat?_eq, Bool.false_or]
        cases (flatLines flags roots).any
            fun line => limits.textUnits < Text.units line.toList with
        | true => rfl
        | false =>
            by_cases many : limits.arguments < (flatLines flags roots).length
            · simp only [Bool.false_eq_true, if_false, if_pos many]
              rfl
            · simp only [Bool.false_eq_true, if_false, if_neg many]
              cases roots.lines (layout flags settings) ++ flatLines flags roots with
              | nil => rfl
              | cons first rest =>
                  change Except.map _ (Text.fit limits _) = _
                  rw [Text.fit, Text.units_joined (List.cons_ne_nil first rest)]
                  split <;> rfl

end Run
end
end CallCost
