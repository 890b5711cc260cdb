import CallCost.Proofs.CallSums
import CallCost.Proofs.ScanSteps

/-!
Open and close markers are accounted for. At every moment of a pass each open marker is skipped,
belongs to a span that is still open, or is one call of one node; each close marker is unmatched,
ends a skipped span, or is one call of one node.
-/

namespace CallCost

namespace Scan

theorem roots_cons (s : Scan) (n : Node) (stats : Stats) (spans : List OpenSpan) :
    roots { s with stats, spans, sections := n :: s.sections } = s.roots ++ n.toForest := by
  rw [roots, List.reverse_cons, Forest.ofNodes_append]
  rfl

/-- The calls of all nodes: those of the closed sections and those below the open spans. -/
def callSum (s : Scan) : Nat :=
  s.roots.callSum + (s.spans.map fun span => span.node.children.callSum).sum

/-- Of the close markers, those that end a span in a skipped section. Without strict sections
no section is skipped as a whole. -/
def closedInSkipped (o : ScanOptions) (s : Scan) : Nat :=
  if o.strictSections then s.stats.skippedOpens - s.skipDepth else 0

structure Balanced (o : ScanOptions) (s : Scan) : Prop where
  opens : s.stats.opens = s.stats.skippedOpens + s.spans.length + s.callSum
  closes : s.stats.closes = s.stats.unmatchedCloses + s.callSum + s.closedInSkipped o
  depth : s.skipDepth ≤ s.stats.skippedOpens
  idle : ∀ span ∈ s.spans, span.node.calls = 0
  /-- The calls of every node are a whole number, so that the sums are those of the numbers. -/
  safeRoots : s.roots.SafeCalls
  safeSpans : ∀ span ∈ s.spans, span.node.children.SafeCalls

/-- What a pass keeps from line to line, besides the balance. -/
structure Accounted (o : ScanOptions) (s : Scan) : Prop extends Balanced o s where
  opens_le : s.stats.opens ≤ s.stats.lines
  strict : 0 < s.skipDepth → o.strictSections = true

theorem accounted_start (o : ScanOptions) : Accounted o {} where
  opens := rfl
  closes := by
    rw [closedInSkipped]
    split <;> rfl
  depth := Nat.le_refl 0
  idle := fun _ h => absurd h List.not_mem_nil
  safeRoots := True.intro
  safeSpans := fun _ h => absurd h List.not_mem_nil
  opens_le := Nat.le_refl 0
  strict := fun h => absurd h (Nat.lt_irrefl 0)

theorem hasCalls_closed {n : Node} (idle : n.calls = 0) (safe : n.children.SafeCalls)
    (cycles : Nat) : (n.closed cycles).toForest.HasCalls (1 + n.children.callSum) := by
  have one : (n.closed cycles).calls.whole = 1 := by
    rw [Node.calls_closed idle, Binary64.whole_ofNat (by decide)]
  have safeCalls : (n.closed cycles).calls.IsSafe := by
    rw [Node.calls_closed idle]
    exact Binary64.isSafe_ofNat (by decide)
  rw [← one]
  exact Forest.HasCalls.toForest safeCalls ⟨safe, rfl⟩

theorem callSum_openSpan (s : Scan) (stats : Stats) (label : String) (line : Nat) :
    callSum { s with stats, spans := ⟨.opened label, line⟩ :: s.spans } = s.callSum := by
  change s.roots.callSum + (0 + _) = _
  rw [Nat.zero_add]
  rfl

/-- The end of a section counts its root once. -/
theorem callSum_closeSection {s : Scan} {span : OpenSpan} (inside : s.spans = [span])
    (idle : span.node.calls = 0) (safe : span.node.children.SafeCalls) (cycles : Nat)
    (stats : Stats) :
    callSum { s with stats, spans := [], sections := span.node.closed cycles :: s.sections } =
      s.callSum + 1 := by
  rw [callSum, callSum, roots_cons, Forest.callSum_append, (hasCalls_closed idle safe cycles).2,
    inside]
  simp only [List.map_cons, List.map_nil, List.sum_cons, List.sum_nil]
  omega

/-- The end of an inner span counts it once below its parent. -/
theorem callSum_closeInner {s : Scan} {span parent : OpenSpan} {outer : List OpenSpan}
    (inside : s.spans = span :: parent :: outer) (idle : span.node.calls = 0)
    (safe : span.node.children.SafeCalls) (parentSafe : parent.node.children.SafeCalls)
    (cycles : Nat) (room : s.callSum + 1 ≤ Binary64.maxSafe) (stats : Stats) (line : Nat) :
    (parent.node.adopt (span.node.closed cycles)).children.SafeCalls ∧
      callSum { s with
        stats, spans := ⟨parent.node.adopt (span.node.closed cycles), line⟩ :: outer } =
        s.callSum + 1 := by
  have before : s.callSum = s.roots.callSum + (span.node.children.callSum +
      (parent.node.children.callSum +
        (outer.map fun span => span.node.children.callSum).sum)) := by
    rw [callSum, inside]
    rfl
  have adopted : (parent.node.adopt (span.node.closed cycles)).children.HasCalls
      (parent.node.children.callSum + (1 + span.node.children.callSum)) := by
    rw [Node.adopt, ← Forest.merge_toForest]
    exact Forest.HasCalls.merge ⟨parentSafe, rfl⟩ (hasCalls_closed idle safe cycles) (by omega)
  refine ⟨adopted.1, ?_⟩
  change s.roots.callSum + ((parent.node.adopt (span.node.closed cycles)).children.callSum +
    (outer.map fun span => span.node.children.callSum).sum) = _
  rw [adopted.2, before]
  omega

theorem Accounted.note {o : ScanOptions} {s : Scan} (h : Accounted o s) (line : Nat)
    (anomaly : Anomaly) : Accounted o (s.note line anomaly) := by
  obtain ⟨⟨opens, closes, depth, idle, safeRoots, safeSpans⟩, opens_le, strict⟩ := h
  rw [note_eq]
  exact ⟨⟨opens, closes, depth, idle, safeRoots, safeSpans⟩, opens_le, strict⟩

theorem Accounted.step {o : ScanOptions} {s t : Scan} {marker : Marker} (h : Accounted o s)
    (step : Step o s marker t) (room : t.stats.lines ≤ Binary64.maxSafe) : Accounted o t := by
  obtain ⟨⟨opens, closes, depth, idle, safeRoots, safeSpans⟩, opens_le, strict⟩ := h
  rw [closedInSkipped] at closes
  cases step with
  | ignored =>
      exact ⟨⟨opens, closes, depth, idle, safeRoots, safeSpans⟩, Nat.le_succ_of_le opens_le,
        strict⟩
  | openDeeper label skipping =>
      have on := strict skipping
      rw [if_pos on] at closes
      refine ⟨⟨?_, ?_, Nat.succ_le_succ depth, idle, safeRoots, safeSpans⟩,
        Nat.succ_le_succ opens_le, fun _ => on⟩
      · change s.stats.opens + 1 = s.stats.skippedOpens + 1 + s.spans.length + s.callSum
        omega
      · rw [closedInSkipped, if_pos on]
        change s.stats.closes = s.stats.unmatchedCloses + s.callSum +
          (s.stats.skippedOpens + 1 - (s.skipDepth + 1))
        omega
  | openSkipped label awake outside other =>
      rw [awake] at closes
      apply Accounted.note
      refine ⟨⟨?_, ?_, ?_, idle, safeRoots, safeSpans⟩, Nat.succ_le_succ opens_le, ?_⟩
      · change s.stats.opens + 1 = s.stats.skippedOpens + 1 + s.spans.length + s.callSum
        omega
      · change s.stats.closes = s.stats.unmatchedCloses + s.callSum +
          (if o.strictSections then s.stats.skippedOpens + 1 - if o.strictSections then 1 else 0
            else 0)
        cases on : o.strictSections <;> simp only [on, if_true, if_false, Bool.false_eq_true]
          at closes ⊢ <;> omega
      · change (if o.strictSections then 1 else 0) ≤ s.stats.skippedOpens + 1
        split <;> omega
      · change 0 < (if o.strictSections then 1 else 0) → o.strictSections = true
        split <;> simp_all
  | openSpan label awake wanted =>
      refine ⟨⟨?_, ?_, depth, ?_, safeRoots, ?_⟩, Nat.succ_le_succ opens_le, strict⟩
      · rw [callSum_openSpan]
        change s.stats.opens + 1 = s.stats.skippedOpens + (s.spans.length + 1) + s.callSum
        omega
      · rw [callSum_openSpan]
        exact closes
      · exact List.forall_mem_cons.2 ⟨rfl, idle⟩
      · exact List.forall_mem_cons.2 ⟨True.intro, safeSpans⟩
  | closeDeeper cycles skipping =>
      have on := strict skipping
      rw [if_pos on] at closes
      refine ⟨⟨opens, ?_, Nat.le_trans (Nat.sub_le _ _) depth, idle, safeRoots, safeSpans⟩,
        Nat.le_succ_of_le opens_le, fun _ => on⟩
      rw [closedInSkipped, if_pos on]
      change s.stats.closes + 1 = s.stats.unmatchedCloses + s.callSum +
        (s.stats.skippedOpens - (s.skipDepth - 1))
      omega
  | closeUnmatched cycles awake outside =>
      apply Accounted.note
      refine ⟨⟨opens, ?_, depth, idle, safeRoots, safeSpans⟩, Nat.le_succ_of_le opens_le, strict⟩
      change s.stats.closes + 1 = s.stats.unmatchedCloses + 1 + s.callSum +
        (if o.strictSections then s.stats.skippedOpens - s.skipDepth else 0)
      omega
  | closeSection cycles span awake inside =>
      have here : span ∈ s.spans := inside ▸ List.mem_singleton_self span
      have counted := callSum_closeSection inside (idle span here) (safeSpans span here) cycles
      have closedSafe := hasCalls_closed (idle span here) (safeSpans span here) cycles
      rw [inside] at opens
      refine ⟨⟨?_, ?_, depth, ?_, ?_, ?_⟩, Nat.le_succ_of_le opens_le, strict⟩
      · rw [counted]
        change s.stats.opens = s.stats.skippedOpens + 0 + (s.callSum + 1)
        change s.stats.opens = s.stats.skippedOpens + 1 + s.callSum at opens
        omega
      · rw [counted]
        change s.stats.closes + 1 = s.stats.unmatchedCloses + (s.callSum + 1) +
          (if o.strictSections then s.stats.skippedOpens - s.skipDepth else 0)
        omega
      · exact fun _ h => absurd h List.not_mem_nil
      · rw [roots_cons]
        exact safeRoots.append closedSafe.1
      · exact fun _ h => absurd h List.not_mem_nil
  | closeInner cycles span parent outer awake inside =>
      rw [inside] at opens idle safeSpans
      change s.stats.opens = s.stats.skippedOpens + (outer.length + 1 + 1) + s.callSum at opens
      change s.stats.lines + 1 ≤ Binary64.maxSafe at room
      obtain ⟨spanIdle, othersIdle⟩ := List.forall_mem_cons.1 idle
      obtain ⟨parentIdle, outerIdle⟩ := List.forall_mem_cons.1 othersIdle
      obtain ⟨spanSafe, othersSafe⟩ := List.forall_mem_cons.1 safeSpans
      obtain ⟨parentSafe, outerSafe⟩ := List.forall_mem_cons.1 othersSafe
      -- Only here are calls added to calls. There are no more of them than lines.
      have counted := callSum_closeInner inside spanIdle spanSafe parentSafe cycles (by omega)
      refine ⟨⟨?_, ?_, depth, ?_, safeRoots, ?_⟩, Nat.le_succ_of_le opens_le, strict⟩
      · rw [(counted _ _).2]
        change s.stats.opens = s.stats.skippedOpens + (outer.length + 1) + (s.callSum + 1)
        omega
      · rw [(counted _ _).2]
        change s.stats.closes + 1 = s.stats.unmatchedCloses + (s.callSum + 1) +
          (if o.strictSections then s.stats.skippedOpens - s.skipDepth else 0)
        omega
      · exact List.forall_mem_cons.2 ⟨parentIdle, outerIdle⟩
      · exact List.forall_mem_cons.2 ⟨(counted s.stats parent.line).1, outerSafe⟩

theorem accounted_after (o : ScanOptions) (lines : List String)
    (few : lines.length ≤ Binary64.maxSafe) : Accounted o (after o {} lines) := by
  have kept : (after o {} lines).stats.lines ≤ Binary64.maxSafe →
      Accounted o (after o {} lines) := by
    apply after_induction (motive := fun s => s.stats.lines ≤ Binary64.maxSafe → Accounted o s)
    · intro s marker t h step room
      have earlier : s.stats.lines ≤ Binary64.maxSafe := by
        rw [step.lines] at room
        exact Nat.le_of_succ_le room
      exact (h earlier).step step room
    · exact fun _ => accounted_start o
  apply kept
  rw [lines_after]
  change 0 + lines.length ≤ Binary64.maxSafe
  omega

/-- After any lines, malformed ones included, the balance holds; a run without strict sections
that leaves no span open has exactly as many calls as it has matched closes. -/
theorem balanced_after (o : ScanOptions) (lines : List String)
    (few : lines.length ≤ Binary64.maxSafe) :
    let s := after o {} lines
    Balanced o s ∧
      (o.strictSections = false → s.spans = [] →
        s.roots.totalCalls = .ofNat (s.stats.closes - s.stats.unmatchedCloses) ∧
        s.stats.closes - s.stats.unmatchedCloses = s.stats.opens - s.stats.skippedOpens) := by
  intro s
  have accounted : Accounted o s := accounted_after o lines few
  refine ⟨accounted.toBalanced, fun off idle => ?_⟩
  have opens := accounted.opens
  have closes := accounted.closes
  have calls : s.callSum = s.roots.callSum := by
    rw [callSum, idle]
    rfl
  rw [idle, calls, List.length_nil] at opens
  rw [closedInSkipped, off, calls] at closes
  simp only [Bool.false_eq_true, if_false] at closes
  have total : s.stats.lines = 0 + lines.length := lines_after o {} lines
  have opens_le := accounted.opens_le
  constructor
  · rw [Forest.totalCalls_eq accounted.safeRoots (by omega)]
    congr 1
    omega
  · omega

theorem balanced_after_malformed_close :
    let s := after { topLevelLabel := "A" } {}
      ["┌╴B", "└╴7", "┌╴A", "┌╴B", "└╴x", "└╴10 cycles", "┌╴A", "└╴1", "└╴5"]
    9 ≤ Binary64.maxSafe ∧ Balanced { topLevelLabel := "A" } s ∧ s.spans = [] ∧
      s.roots.totalCalls = .ofNat 3 := by
  have h := balanced_after { topLevelLabel := "A" }
    ["┌╴B", "└╴7", "┌╴A", "┌╴B", "└╴x", "└╴10 cycles", "┌╴A", "└╴1", "└╴5"] (by decide)
  exact ⟨by decide, h.1, rfl, (h.2 rfl rfl).1⟩

end Scan
end CallCost
