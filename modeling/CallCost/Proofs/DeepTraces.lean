import CallCost.Proofs.AllOrNothing
import CallCost.Proofs.CanonicalTrace
import CallCost.Proofs.Presentation
import Mathlib.Tactic.Ring

/-!
Traces of calls that lie each inside the one before. The report has one line for each depth, and
the indents alone make it longer than the square of the depth. A run reads such a trace whatever its
depth is, but with any indent at all there is a depth from which on the report is out of range.
-/

namespace CallCost

/-- Calls of one label, each inside the one before, that cost one cycle each. -/
def Forest.chain (label : String) : Nat → Forest
  | 0 => nil
  | depth + 1 => cons label (.ofNat 1) (.ofNat 1) (chain label depth) nil

/-- The lines of such calls. -/
def chainLines (label : String) (depth : Nat) : List String :=
  List.replicate depth ("┌╴" ++ label) ++ List.replicate depth "└╴1"

/-- A pass depends on its lines by what they say. -/
theorem Scan.pushAll_congr {o : ScanOptions} {xs ys : List String}
    (same : xs.map (Marker.ofLine o.glyphs) = ys.map (Marker.ofLine o.glyphs)) (s : Scan) :
    s.pushAll o xs = s.pushAll o ys := by
  induction xs generalizing ys s with
  | nil =>
      rw [List.map_eq_nil_iff.1 same.symm]
  | cons x xs ih =>
      cases ys with
      | nil => cases same
      | cons y ys =>
          rw [List.map_cons, List.map_cons, List.cons.injEq] at same
          have here : s.push o x = s.push o y := by rw [push, same.1, ← push]
          simp only [pushAll, here]
          split
          · rfl
          · exact ih same.2 _

theorem Profile.ofLines_congr {o : ScanOptions} {xs ys : List String}
    (same : xs.map (Marker.ofLine o.glyphs) = ys.map (Marker.ofLine o.glyphs)) :
    ofLines o xs = ofLines o ys := by
  rw [ofLines, Scan.pushAll_congr same, ← ofLines]

namespace Forest

theorem distinct_chain (label : String) (depth : Nat) : (chain label depth).Distinct := by
  induction depth with
  | zero => exact True.intro
  | succ depth ih => exact ⟨List.not_mem_nil, ih, True.intro⟩

theorem callSum_chain (label : String) (depth : Nat) : (chain label depth).callSum = depth := by
  induction depth with
  | zero => rfl
  | succ depth ih =>
      have one : (Binary64.ofNat 1).whole = 1 := Binary64.whole_ofNat (by decide)
      rw [chain, callSum, callSum, ih, one]
      omega

end Forest

section

variable {label : String} (trimmed : Text.trim label.toList = label.toList)

include trimmed

theorem Forest.map_ofLine_trace_chain (depth level : Nat) :
    ((chain label depth).trace level).map (Marker.ofLine {}) =
      List.replicate depth (.ok (.opened label)) ++ List.replicate depth (.ok (.closed 1)) := by
  induction depth generalizing level with
  | zero => rfl
  | succ depth ih =>
      have one : (Binary64.ofNat 1).whole = 1 := Binary64.whole_ofNat (by decide)
      rw [chain, trace, trace, one, callLines]
      simp only [Nat.sub_self, List.replicate_zero, List.flatten_nil, List.append_nil,
        List.map_cons, List.map_append, ih, ofLine_openingLine level trimmed,
        ofLine_closingLine level (by decide : 1 ≤ Binary64.maxSafe), List.map_nil,
        List.append_assoc, List.replicate_succ, List.cons_append]
      rw [← List.replicate_succ', List.replicate_succ]

theorem map_ofLine_chainLines (depth : Nat) :
    (chainLines label depth).map (Marker.ofLine {}) =
      List.replicate depth (.ok (.opened label)) ++ List.replicate depth (.ok (.closed 1)) := by
  have opens := ofLine_openingLine 0 trimmed
  have closes : Marker.ofLine {} "└╴1" = .ok (.closed 1) := by decide +kernel
  have bare : openingLine 0 label = "┌╴" ++ label := rfl
  rw [bare] at opens
  rw [chainLines, List.map_append, List.map_replicate, List.map_replicate, opens, closes]

theorem Forest.writable_chain (depth : Nat) : (chain label depth).Writable := by
  have safe : (Binary64.ofNat 1).IsSafe := Binary64.isSafe_ofNat (by decide)
  have one : (Binary64.ofNat 1).whole = 1 := Binary64.whole_ofNat (by decide)
  induction depth with
  | zero => exact True.intro
  | succ depth ih =>
      exact ⟨trimmed, Nat.le_of_eq one.symm, safe, safe, ih, True.intro⟩

theorem Forest.wellFormed_chain (depth : Nat) : (chain label depth).WellFormed label where
  writable := writable_chain trimmed depth
  roots := by
    cases depth with
    | zero => exact fun _ h => absurd h List.not_mem_nil
    | succ depth =>
        intro root h
        rw [chain, nodes, nodes, List.mem_singleton] at h
        simp only [h, true_and]
        exact distinct_chain label depth

/-- Such a trace is read whatever its depth is. -/
theorem Profile.ofLines_chainLines (strictSections : Bool) (depth : Nat) :
    ofLines { topLevelLabel := label, strictSections } (chainLines label depth) =
      .ok ⟨.chain label depth, { lines := 2 * depth, opens := depth, closes := depth }, []⟩ := by
  have read := (Forest.wellFormed_chain trimmed depth).readBack strictSections
  rw [Forest.callSum_chain] at read
  rw [← read]
  apply ofLines_congr
  rw [map_ofLine_chainLines trimmed, Forest.map_ofLine_trace_chain trimmed]

/-- Nothing stops the reading of such a trace. -/
theorem TraceSource.not_stopsAt_chainLines (depth : Nat) (stop : Thrown) :
    ¬StopsAt ⟨chainLines label depth, none⟩ stop := by
  intro stops
  have stopped := Run.readTrace_stopped label false "" stops
  rw [Run.readTrace_lines, Profile.ofLines_chainLines trimmed] at stopped
  cases stopped

end

/-! ### The length of the report -/

theorem Node.units_entry_chain {layout : Layout} (plain : layout.showSelf = false)
    (label : String) (children : Forest) :
    Text.units ((entry layout ⟨label, .ofNat 1, .ofNat 1, children⟩).toList) =
      Text.units label.toList + 17 := by
  have one : (Binary64.ofNat 1).text = "1" := Binary64.text_ofNat (by decide)
  have parts : Text.units " ".toList = 1 ∧ Text.units " count: ".toList = 8 ∧
      Text.units "1".toList = 1 ∧ Text.units " sum: ".toList = 6 ∧ Text.units "".toList = 0 := by
    decide
  simp only [entry, plain, one, Bool.false_eq_true, if_false, String.toList_append,
    Text.units_append, parts]
  omega

/-- The indents add up to the square of the depth, and every line has an entry and an end. -/
theorem Forest.endedUnits_chain (layout : Layout) (plain : layout.showSelf = false)
    (label : String) (level depth : Nat) :
    let width := Text.units layout.indentUnit.toList
    2 * Text.endedUnits ((chain label depth).lineUnitsBefore layout [] level) + depth * width =
      depth * (2 * (Text.units label.toList + 18) + (2 * level + depth) * width) := by
  intro width
  induction depth generalizing level with
  | zero => simp [chain, lineUnitsBefore, Text.endedUnits]
  | succ depth ih =>
      specialize ih (level + 1)
      simp only [chain, lineUnitsBefore, Text.endedUnits_cons, Node.lineUnits,
        Node.units_entry_chain plain]
      generalize Text.endedUnits ((chain label depth).lineUnitsBefore layout [] (level + 1)) =
        below at ih ⊢
      calc 2 * (level * width + (Text.units label.toList + 17) + 1 + below) + (depth + 1) * width
          = (2 * below + depth * width) +
              (2 * (Text.units label.toList + 18) + (2 * level + 1) * width) := by ring
        _ = _ := by
            rw [ih]
            ring

namespace Run

/-- Without flat totals the report is in range if and only if its whole text is. -/
theorem outputError?_tree (flags : Flags) (text : flags.json = false) (single : flags.flat = false)
    (limits : Limits) (settings : Settings) (roots : Forest) :
    outputError? limits flags settings roots =
      if limits.textUnits < Text.endedUnits (roots.lineUnits (layout flags settings)) then
        some .textTooLong
      else none := by
  have flat : flatLines flags roots = [] := by
    rw [flatLines, single]
    exact if_neg fun asked => Bool.false_ne_true asked.1
  rw [outputError?, text, flat]
  simp only [Bool.false_eq_true, if_false, List.map_nil, List.append_nil, List.length_nil,
    Nat.not_lt_zero]
  generalize roots.lineUnits (layout flags settings) = lengths
  by_cases long : lengths.any (limits.textUnits < ·)
  · obtain ⟨length, mem, tooLong⟩ := List.any_eq_true.1 long
    have exceeds := Nat.lt_trans (of_decide_eq_true tooLong) (Text.lt_endedUnits_of_mem mem)
    rw [if_pos long, if_pos exceeds]
  · rw [if_neg long]

/-- How a run on calls that lie each inside the one before ends is a matter of the depth, the indent
and the range of the host. -/
theorem ending_ofArguments_deep {label path : String} {strictSections : Bool}
    {arguments : List String} {source : String → TraceSource} {depth : Nat}
    (trimmed : Text.trim label.toList = label.toList)
    (asked : Arguments.read arguments = ⟨{ strictSections }, .profile path label⟩)
    (deep : source path = ⟨chainLines label depth, none⟩) (limits : Limits) (env : Environment) :
    let width := (Settings.load env).indentWidth
    (ofArguments limits env source arguments).ending =
      if 2 * limits.textUnits + depth * width <
          depth * (2 * (Text.units label.toList + 18) + depth * width) then .rejected .textTooLong
      else .returned 0 := by
  intro width
  have length := Forest.endedUnits_chain (layout { strictSections } (Settings.load env)) rfl
    label 0 depth
  have indent : Text.units (layout { strictSections } (Settings.load env)).indentUnit.toList =
      width := by
    rw [layout, String.toList_ofList, Text.units_replicate]
    exact Nat.mul_one width
  have tree := outputError?_tree { strictSections } rfl rfl limits (Settings.load env)
    (.chain label depth)
  rw [Forest.lineUnits] at tree
  have read : readTrace { topLevelLabel := label, strictSections } path
      ⟨chainLines label depth, none⟩ = .ok _ :=
    (readTrace_lines ..).trans (congrArg _ (Profile.ofLines_chainLines trimmed ..))
  rw [ofArguments, asked]
  simp only [profile, deep, read, showing, tree]
  rw [indent] at length
  generalize Text.endedUnits ((Forest.chain label depth).lineUnitsBefore
    (layout { strictSections } (Settings.load env)) [] 0) = total at length ⊢
  have twice : limits.textUnits < total ↔ 2 * limits.textUnits + depth * width <
      depth * (2 * (Text.units label.toList + 18) + depth * width) := by
    rw [Nat.mul_zero, Nat.zero_add] at length
    omega
  by_cases long : limits.textUnits < total
  · rw [if_pos long, if_pos (twice.1 long)]
  · rw [if_neg long, if_neg (mt twice.2 long)]

/-- The environment that sets the indent and nothing else. -/
def indentedBy (width : String) : Environment :=
  fun name => if name = "SPAN_TREE_INDENT" then some width else none

/-- A source of twenty thousand calls, each inside the one before. -/
def deepSource (_ : String) : TraceSource :=
  ⟨chainLines "A" 20000, none⟩

theorem indentedBy_width :
    (Settings.load (indentedBy "2")).indentWidth = 2 ∧
      (Settings.load (indentedBy "3")).indentWidth = 3 := by decide +kernel

/-- How a run on such calls ends, by the indent. -/
theorem ending_deepSource {env : Environment} {width : Nat}
    (indent : (Settings.load env).indentWidth = width) :
    (ofArguments {} env deepSource ["deep.trace", "A"]).ending =
      if 2 * 536870888 + 20000 * width < 20000 * (2 * (1 + 18) + 20000 * width) then
        .rejected .textTooLong
      else .returned 0 := by
  have trimmed : Text.trim "A".toList = "A".toList := by decide +kernel
  have asked : Arguments.read ["deep.trace", "A"] = ⟨{}, .profile "deep.trace" "A"⟩ := by
    decide +kernel
  have single : Text.units "A".toList = 1 := by decide
  have range : ({} : Limits).textUnits = 536870888 := rfl
  have deep : deepSource "deep.trace" = ⟨chainLines "A" 20000, none⟩ := rfl
  rw [ending_ofArguments_deep trimmed asked deep, indent, single, range]

/-- With an indent of three spaces a run is rejected, though nothing stops the reading. -/
theorem ofArguments_deep_rejected :
    (∀ stop, ¬(deepSource "deep.trace").StopsAt stop) ∧
      (ofArguments {} (indentedBy "3") deepSource ["deep.trace", "A"]).ending =
        .rejected .textTooLong := by
  have trimmed : Text.trim "A".toList = "A".toList := by decide +kernel
  have exceeds : 2 * 536870888 + 20000 * 3 < 20000 * (2 * (1 + 18) + 20000 * 3) := by decide
  refine ⟨TraceSource.not_stopsAt_chainLines trimmed 20000, ?_⟩
  rw [ending_deepSource indentedBy_width.2, if_pos exceeds]

/-- With an indent of two spaces the same run returns, so the presentation alone decides how it
ends. -/
theorem ofArguments_deep_by_indent :
    DifferInPresentation (indentedBy "2") (indentedBy "3") ["deep.trace", "A"]
        ["deep.trace", "A"] ∧
      (ofArguments {} (indentedBy "2") deepSource ["deep.trace", "A"]).ending = .returned 0 ∧
      (ofArguments {} (indentedBy "3") deepSource ["deep.trace", "A"]).ending =
        .rejected .textTooLong := by
  have fits : ¬2 * 536870888 + 20000 * 2 < 20000 * (2 * (1 + 18) + 20000 * 2) := by decide
  have exceeds : 2 * 536870888 + 20000 * 3 < 20000 * (2 * (1 + 18) + 20000 * 3) := by decide
  refine ⟨⟨rfl, ?_⟩, ?_, ?_⟩
  · intro name other
    rw [presentationVariables, List.mem_cons, not_or] at other
    rw [indentedBy, indentedBy, if_neg other.1, if_neg other.1]
  · rw [ending_deepSource indentedBy_width.1, if_neg fits]
  · rw [ending_deepSource indentedBy_width.2, if_pos exceeds]

end Run
end CallCost
