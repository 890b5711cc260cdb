import CallCost.Proofs.ScanInvariant
import CallCost.Proofs.StoredTrees
import CallCost.Trace.StoredScan

/-!
The pass on stored trees. Each of its steps keeps every node under its own label and is the step of
the plain pass once the keys are forgotten, so whatever is done to a pass, all that holds of the
plain one holds of it too.
-/

namespace CallCost
namespace StoredScan

/-- Every node below an open span or a closed section is stored under its own label. -/
structure Keyed (s : StoredScan) : Prop where
  spans : ∀ span ∈ s.spans, span.node.children.Keyed
  sections : ∀ root ∈ s.sections, root.children.Keyed

section Steps

variable (o : ScanOptions)

theorem plain_note (s : StoredScan) (line : Nat) (anomaly : Anomaly) :
    (s.note line anomaly).plain = s.plain.note line anomaly := by
  rw [note, Scan.note]
  by_cases room : s.issues.length < Scan.maxIssues
  · rw [if_pos room, if_pos (show s.plain.issues.length < Scan.maxIssues from room)]
    rfl
  · rw [if_neg room, if_neg (show ¬s.plain.issues.length < Scan.maxIssues from room)]

theorem Keyed.note {s : StoredScan} (h : s.Keyed) (line : Nat) (anomaly : Anomaly) :
    (s.note line anomaly).Keyed := by
  rw [StoredScan.note]
  split
  · exact ⟨h.spans, h.sections⟩
  · exact h

theorem plain_openSpan (s : StoredScan) (label : String) :
    (s.openSpan o label).plain = s.plain.openSpan o label := by
  obtain ⟨stats, spans, skipDepth, sections, issues⟩ := s
  simp only [openSpan, Scan.openSpan, plain, List.map_eq_nil_iff]
  split
  · rfl
  · split
    · exact plain_note ..
    · rfl

theorem Keyed.openSpan {s : StoredScan} (h : s.Keyed) (label : String) :
    (s.openSpan o label).Keyed := by
  simp only [StoredScan.openSpan]
  split
  · exact ⟨h.spans, h.sections⟩
  · split
    · apply Keyed.note
      exact ⟨h.spans, h.sections⟩
    · exact ⟨List.forall_mem_cons.2 ⟨True.intro, h.spans⟩, h.sections⟩

theorem plain_settle {s : StoredScan} (h : s.Keyed) {n : StoredNode} (hn : n.children.Keyed) :
    (s.settle n).plain = s.plain.settle n.plain := by
  obtain ⟨stats, spans, skipDepth, sections, issues⟩ := s
  cases spans with
  | nil => rfl
  | cons parent outer =>
      have below := StoredForest.plain_add (h.spans parent List.mem_cons_self) hn
      simp only [settle, Scan.settle, plain, List.map_cons, StoredSpan.plain, StoredNode.plain,
        below]

theorem Keyed.settle {s : StoredScan} (h : s.Keyed) {n : StoredNode} (hn : n.children.Keyed) :
    (s.settle n).Keyed := by
  obtain ⟨stats, spans, skipDepth, sections, issues⟩ := s
  cases spans with
  | nil => exact ⟨h.spans, List.forall_mem_cons.2 ⟨hn, h.sections⟩⟩
  | cons parent outer =>
      obtain ⟨inner, rest⟩ := List.forall_mem_cons.1 h.spans
      exact ⟨List.forall_mem_cons.2 ⟨inner.add hn, rest⟩, h.sections⟩

theorem plain_closeSpan {s : StoredScan} (h : s.Keyed) (cycles : Nat) :
    (s.closeSpan cycles).plain = s.plain.closeSpan cycles := by
  obtain ⟨stats, spans, skipDepth, sections, issues⟩ := s
  simp only [closeSpan, Scan.closeSpan]
  by_cases skipping : 0 < skipDepth
  · rw [if_pos skipping, if_pos (show 0 < Scan.skipDepth _ from skipping)]
    rfl
  · rw [if_neg skipping, if_neg (show ¬0 < Scan.skipDepth _ from skipping)]
    cases spans with
    | nil => exact plain_note ..
    | cons innermost outer =>
        obtain ⟨inner, rest⟩ := List.forall_mem_cons.1 h.spans
        apply plain_settle
        · exact ⟨rest, h.sections⟩
        · exact inner

theorem Keyed.closeSpan {s : StoredScan} (h : s.Keyed) (cycles : Nat) :
    (s.closeSpan cycles).Keyed := by
  obtain ⟨stats, spans, skipDepth, sections, issues⟩ := s
  simp only [StoredScan.closeSpan]
  split
  · exact ⟨h.spans, h.sections⟩
  · cases spans with
    | nil =>
        apply Keyed.note
        exact ⟨h.spans, h.sections⟩
    | cons innermost outer =>
        obtain ⟨inner, rest⟩ := List.forall_mem_cons.1 h.spans
        apply Keyed.settle
        · exact ⟨rest, h.sections⟩
        · exact inner

/-- A line does the same to both passes and is refused by both. -/
theorem plain_push {s : StoredScan} (h : s.Keyed) (line : String) :
    (s.push o line).1.plain = (s.plain.push o line).1 ∧
      (s.push o line).2 = (s.plain.push o line).2 := by
  have counted : Keyed { s with stats.lines := s.stats.lines + 1 } := ⟨h.spans, h.sections⟩
  simp only [push, Scan.push]
  cases Marker.ofLine o.glyphs line with
  | error cause => exact ⟨rfl, rfl⟩
  | ok marker =>
      refine ⟨?_, rfl⟩
      cases marker with
      | opened label => exact plain_openSpan o _ label
      | closed cycles => exact plain_closeSpan counted cycles
      | ignored => rfl

theorem Keyed.push {s : StoredScan} (h : s.Keyed) (line : String) : (s.push o line).1.Keyed := by
  have counted : Keyed { s with stats.lines := s.stats.lines + 1 } := ⟨h.spans, h.sections⟩
  simp only [StoredScan.push]
  cases Marker.ofLine o.glyphs line with
  | error cause => exact counted
  | ok marker =>
      cases marker with
      | opened label => exact counted.openSpan o label
      | closed cycles => exact counted.closeSpan cycles
      | ignored => exact counted

theorem plain_foldl_note (spans : List StoredSpan) (s : StoredScan) :
    (spans.foldl (fun s span => s.note span.line (.openUnclosed span.node.label)) s).plain =
      (spans.map StoredSpan.plain).foldl
        (fun s span => s.note span.line (.openUnclosed span.node.label)) s.plain := by
  induction spans generalizing s with
  | nil => rfl
  | cons span rest ih =>
      rw [List.foldl_cons, ih, plain_note]
      rfl

theorem plain_finish (s : StoredScan) : s.finish.plain = s.plain.finish := by
  have noted := plain_foldl_note s.spans.reverse
    { s with stats.unclosedAtEnd := s.spans.length }
  have open_ : s.plain.spans.length = s.spans.length := List.length_map ..
  rw [List.map_reverse] at noted
  rw [Scan.finish, open_]
  exact congrArg (fun t : Scan => { t with spans := [] }) noted

theorem Keyed.foldl_note {s : StoredScan} (h : s.Keyed) (spans : List StoredSpan) :
    (spans.foldl (fun s span => s.note span.line (.openUnclosed span.node.label)) s).Keyed := by
  induction spans generalizing s with
  | nil => exact h
  | cons span rest ih => exact ih (h.note ..)

theorem Keyed.finish {s : StoredScan} (h : s.Keyed) : s.finish.Keyed := by
  have counted : Keyed { s with stats.unclosedAtEnd := s.spans.length } := ⟨h.spans, h.sections⟩
  exact ⟨fun _ h => absurd h List.not_mem_nil, (counted.foldl_note s.spans.reverse).sections⟩

end Steps

def act (o : ScanOptions) (s : StoredScan) : Action → StoredScan
  | .line text => (s.push o text).1
  | .finish => s.finish

def perform (o : ScanOptions) (s : StoredScan) (actions : List Action) : StoredScan :=
  actions.foldl (act o) s

/-- Whatever is done to a pass, every node stays under its own label, and the same done to the plain
pass leads to the same state without keys. -/
theorem Keyed.perform {s : StoredScan} (h : s.Keyed) (o : ScanOptions) (actions : List Action) :
    (s.perform o actions).Keyed ∧ (s.perform o actions).plain = s.plain.perform o actions := by
  induction actions generalizing s with
  | nil => exact ⟨h, rfl⟩
  | cons action rest ih =>
      cases action with
      | line text =>
          obtain ⟨keyed, same⟩ := ih (h.push o text)
          rw [(plain_push o h text).1] at same
          exact ⟨keyed, same⟩
      | finish =>
          obtain ⟨keyed, same⟩ := ih h.finish
          rw [plain_finish] at same
          exact ⟨keyed, same⟩

/-- What holds of a pass on stored trees at every moment. -/
structure Sound (o : ScanOptions) (s : StoredScan) : Prop where
  plain : Scan.Sound o s.plain
  keyed : s.Keyed

/-- After any lines, malformed ones included, and any ends the pass is sound, and without its keys
it is the plain pass. -/
theorem sound_perform (o : ScanOptions) (actions : List Action)
    (few : actions.countP Action.isLine ≤ Binary64.maxSafe) :
    Sound o (perform o {} actions) ∧
      (perform o {} actions).plain = Scan.perform o {} actions := by
  have start : Keyed {} :=
    ⟨fun _ h => absurd h List.not_mem_nil, fun _ h => absurd h List.not_mem_nil⟩
  obtain ⟨keyed, same⟩ := start.perform o actions
  refine ⟨⟨?_, keyed⟩, same⟩
  rw [same]
  exact Scan.sound_after o actions few

theorem sound_perform_resumed :
    let o : ScanOptions := { topLevelLabel := "A", strictSections := true }
    let actions : List Action := [.line "┌╴A", .line "┌╴B", .line "└╴x", .line "└╴7", .line "┌╴B",
      .line "└╴9007199254740991", .line "└╴1", .finish, .line "└╴2", .line "┌╴ C ", .line "┌╴A",
      .finish, .line "└╴3", .line "└╴4", .line "┌╴A", .line "┌╴ D"]
    actions.countP Action.isLine ≤ Binary64.maxSafe ∧ Sound o (perform o {} actions) ∧
      (perform o {} actions).plain = Scan.perform o {} actions := by
  intro o actions
  have few : actions.countP Action.isLine ≤ Binary64.maxSafe := by decide
  exact ⟨few, sound_perform o actions few⟩

end StoredScan
end CallCost
