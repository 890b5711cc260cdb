import CallCost.Proofs.CallSums
import CallCost.Proofs.MarkerLines
import CallCost.Proofs.Sections

/-!
The canonical trace of a call-cost forest, and the forest read back from it. A node is written as
one call around its children, which has all its cycles, and further calls that cost nothing; a
pass merges the further calls into the first one.
-/

namespace CallCost

/-- A call around the lines of its inner calls. -/
def callLines (depth : Nat) (label : String) (inner : List String) (cycles : Nat) : List String :=
  openingLine depth label :: (inner ++ [closingLine depth cycles])

namespace Forest

def trace (depth : Nat) : Forest → List String
  | nil => []
  | cons label calls cycles children siblings =>
      callLines depth label (children.trace (depth + 1)) cycles.whole ++
        (List.replicate (calls.whole - 1) (callLines depth label [] 0)).flatten ++
        siblings.trace depth

example : trace 0 (cons "main" (.ofNat 1) (.ofNat 1234567)
      (cons "work" (.ofNat 2) (.ofNat 1000) nil nil) nil) =
    ["┌╴main", "│ ┌╴work", "│ └╴1,000 cycles", "│ ┌╴work", "│ └╴0 cycles",
      "└╴1,234,567 cycles"] := by decide +kernel

/-- Every node has a label that trimming leaves as it is, at least one call, and safe numbers. -/
def Writable : Forest → Prop
  | nil => True
  | cons label calls cycles children siblings =>
      Text.trim label.toList = label.toList ∧ 1 ≤ calls.whole ∧ calls.IsSafe ∧ cycles.IsSafe ∧
        children.Writable ∧ siblings.Writable

/-- A forest that a trace can have: its roots are single calls of the top-level label. -/
structure WellFormed (topLevelLabel : String) (f : Forest) : Prop where
  writable : f.Writable
  roots : ∀ root ∈ f.nodes,
    root.label = topLevelLabel ∧ root.calls = .ofNat 1 ∧ root.children.Distinct

theorem insertWith_append_toForest (mergeChildren : Forest → Forest) {f : Forest} {m n : Node}
    (same : m.label = n.label) (fresh : m.label ∉ f.labels) :
    (f ++ m.toForest).insertWith mergeChildren n =
      f ++ Node.toForest ⟨m.label, m.calls + n.calls, m.cycles + n.cycles,
        mergeChildren m.children⟩ := by
  induction f with
  | nil => exact if_pos same
  | cons label calls cycles children siblings _ ih =>
      simp only [labels, List.mem_cons, not_or] at fresh
      have other : label ≠ n.label := fun h => fresh.1 (same.trans h.symm)
      change insertWith mergeChildren n (cons label calls cycles children (siblings ++ _)) = _
      rw [insertWith, if_neg other, ih fresh.2]
      rfl

/-- A further call of the last node of a row is counted there. -/
theorem add_call {front : Forest} {label : String} (fresh : label ∉ front.labels)
    {calls cycles : Nat} (hcalls : calls ≤ Binary64.maxSafe) (hcycles : cycles ≤ Binary64.maxSafe)
    (children : Forest) :
    (front ++ Node.toForest ⟨label, .ofNat calls, .ofNat cycles, children⟩).add
        ⟨label, .ofNat 1, .ofNat 0, nil⟩ =
      front ++ Node.toForest ⟨label, .ofNat (calls + 1), .ofNat cycles, children⟩ := by
  rw [add, insertWith_append_toForest]
  · simp only [merge_nil, Binary64.ofNat_add hcalls (by decide : 1 ≤ Binary64.maxSafe),
      Binary64.ofNat_add hcycles (by decide : 0 ≤ Binary64.maxSafe), Nat.add_zero]
  · rfl
  · exact fresh

end Forest

namespace Scan

/-- What is merged below the innermost open span so far. -/
def current (s : Scan) : Forest :=
  match s.spans with
  | [] => .nil
  | span :: _ => span.node.children

/-- The pass with more completed calls, which leave a forest below the innermost open span. -/
def grown (s : Scan) (calls : Nat) (children : Forest) : Scan :=
  { s with
    stats.lines := s.stats.lines + 2 * calls
    stats.opens := s.stats.opens + calls
    stats.closes := s.stats.closes + calls
    spans := s.spans.modifyHead fun span => ⟨{ span.node with children }, span.line⟩ }

/-- A span is open and nothing is being skipped. -/
def Inside (s : Scan) : Prop :=
  s.skipDepth = 0 ∧ s.spans ≠ []

theorem Inside.entered {s : Scan} (awake : s.skipDepth = 0) (label : String) :
    (s.entered label).Inside :=
  ⟨awake, List.cons_ne_nil _ _⟩

theorem Inside.grown {s : Scan} (h : s.Inside) (calls : Nat) (children : Forest) :
    (s.grown calls children).Inside := by
  obtain ⟨awake, inside⟩ := h
  refine ⟨awake, ?_⟩
  rw [Scan.grown, ne_eq, List.modifyHead_eq_nil_iff]
  exact inside

theorem current_grown {s : Scan} (h : s.Inside) (calls : Nat) (children : Forest) :
    (s.grown calls children).current = children := by
  obtain ⟨stats, spans, skipDepth, sections, issues⟩ := s
  cases spans with
  | nil => exact absurd rfl h.2
  | cons span outer => rfl

theorem grown_zero (s : Scan) : s.grown 0 s.current = s := by
  obtain ⟨stats, spans, skipDepth, sections, issues⟩ := s
  cases spans <;> rfl

theorem grown_grown (s : Scan) (m n : Nat) (f g : Forest) :
    (s.grown m f).grown n g = s.grown (m + n) g := by
  simp only [grown, List.modifyHead_modifyHead, Nat.mul_add, Nat.add_assoc]
  rfl

/-- Lines that complete some calls and put a forest at the end of what is merged so far, as long
as its labels are new there. -/
def Appends (o : ScanOptions) (lines : List String) (calls : Nat) (f : Forest) : Prop :=
  ∀ s : Scan, s.Inside → (∀ label ∈ f.labels, label ∉ s.current.labels) →
    s.after o lines = s.grown calls (s.current ++ f)

theorem appends_nil (o : ScanOptions) : Appends o [] 0 .nil := by
  intro s _ _
  rw [Forest.append_nil, grown_zero]
  rfl

section Calls

variable {o : ScanOptions} {s : Scan} {label : String} {inner : List String} {cycles : Nat}
  {calls : Nat} {children : Forest}

theorem Appends.append {xs ys : List String} {m n : Nat} {f g : Forest} (hf : Appends o xs m f)
    (hg : Appends o ys n g) (apart : ∀ label ∈ g.labels, label ∉ f.labels) :
    Appends o (xs ++ ys) (m + n) (f ++ g) := by
  intro s inside fresh
  simp only [Forest.labels_append, List.mem_append] at fresh
  have first := hf s inside fun label hl => fresh label (.inl hl)
  have second := hg _ (inside.grown m (s.current ++ f))
  rw [current_grown inside] at second
  rw [after_append, first, second, grown_grown, Forest.append_assoc]
  intro label hl
  rw [Forest.labels_append, List.mem_append, not_or]
  exact ⟨fresh label (.inr hl), apart label hl⟩

theorem after_openingLine (glyphs : o.glyphs = {})
    (trimmed : Text.trim label.toList = label.toList) (below : Appends o inner calls children)
    (depth : Nat) (awake : s.skipDepth = 0) (wanted : s.spans = [] → label = o.topLevelLabel) :
    s.after o (openingLine depth label :: inner) = (s.entered label).grown calls children := by
  have opens : o.glyphs.read (openingLine depth label) = .opened label :=
    glyphs ▸ Glyphs.read_eq (ofLine_openingLine depth trimmed)
  rw [after_cons, push_opened opens awake wanted]
  exact below _ (.entered awake label) fun _ _ => List.not_mem_nil

theorem closed_eq (safe : cycles ≤ Binary64.maxSafe) :
    Node.closed ⟨label, 0, 0, children⟩ cycles = ⟨label, .ofNat 1, .ofNat cycles, children⟩ := by
  rw [Node.closed, Binary64.zero_add_ofNat (by decide), Binary64.zero_add_ofNat safe]

theorem after_call (glyphs : o.glyphs = {})
    (trimmed : Text.trim label.toList = label.toList) (safe : cycles ≤ Binary64.maxSafe)
    (below : Appends o inner calls children) (depth : Nat) (inside : s.Inside) :
    s.after o (callLines depth label inner cycles) =
      s.grown (calls + 1) (s.current.add ⟨label, .ofNat 1, .ofNat cycles, children⟩) := by
  have closes : o.glyphs.read (closingLine depth cycles) = .closed cycles :=
    glyphs ▸ Glyphs.read_eq (ofLine_closingLine depth safe)
  have opened := after_openingLine glyphs trimmed below depth inside.1
    fun outside => absurd outside inside.2
  obtain ⟨parent, outer, spans⟩ := List.exists_cons_of_ne_nil inside.2
  have nested : ((s.entered label).grown calls children).spans =
      ⟨⟨label, 0, 0, children⟩, s.stats.lines + 1⟩ :: parent :: outer := by
    rw [grown, entered, spans]
    rfl
  rw [callLines, ← List.cons_append, after_append, opened, after_cons,
    push_closed_inner closes (Inside.grown (.entered inside.1 label) _ _).1 nested, closed_eq safe]
  simp only [after, List.foldl_nil, grown, entered, current, spans]
  congr 2
  all_goals omega

theorem after_call_section (glyphs : o.glyphs = {})
    (trimmed : Text.trim label.toList = label.toList) (safe : cycles ≤ Binary64.maxSafe)
    (below : Appends o inner calls children) (depth : Nat) (idle : s.Idle)
    (wanted : label = o.topLevelLabel) :
    s.after o (callLines depth label inner cycles) =
      { s.grown (calls + 1) .nil with
        sections := ⟨label, .ofNat 1, .ofNat cycles, children⟩ :: s.sections } := by
  have closes : o.glyphs.read (closingLine depth cycles) = .closed cycles :=
    glyphs ▸ Glyphs.read_eq (ofLine_closingLine depth safe)
  have opened := after_openingLine glyphs trimmed below depth idle.2 fun _ => wanted
  have single : ((s.entered label).grown calls children).spans =
      [⟨⟨label, 0, 0, children⟩, s.stats.lines + 1⟩] := by
    rw [grown, entered, idle.1]
    rfl
  rw [callLines, ← List.cons_append, after_append, opened, after_cons,
    push_closed_section closes (Inside.grown (.entered idle.2 label) _ _).1 single, closed_eq safe]
  simp only [after, List.foldl_nil, grown, entered, idle.1]
  congr 2
  all_goals omega

theorem after_further_calls {front : Forest} {k : Nat} (glyphs : o.glyphs = {})
    (trimmed : Text.trim label.toList = label.toList) (fresh : label ∉ front.labels)
    (safe : cycles ≤ Binary64.maxSafe) (depth : Nat) (further : Nat)
    (room : k + further ≤ Binary64.maxSafe) (inside : s.Inside)
    (last : s.current = front ++ Node.toForest ⟨label, .ofNat k, .ofNat cycles, children⟩) :
    s.after o (List.replicate further (callLines depth label [] 0)).flatten =
      s.grown further
        (front ++ Node.toForest ⟨label, .ofNat (k + further), .ofNat cycles, children⟩) := by
  induction further generalizing s k with
  | zero =>
      rw [Nat.add_zero, ← last, grown_zero]
      rfl
  | succ further ih =>
      have first := after_call glyphs trimmed (Nat.zero_le _) (appends_nil o) depth inside
      -- The node stays the last of the row, so the next call finds it there again.
      rw [last, Forest.add_call fresh (by omega) safe] at first
      have rest := ih (k := k + 1) (by omega) (inside.grown _ _)
        (current_grown inside (0 + 1) _)
      have total : k + 1 + further = k + (further + 1) := by omega
      have steps : 0 + 1 + further = further + 1 := by omega
      rw [List.replicate_succ, List.flatten_cons, after_append, first, rest, grown_grown, total,
        steps]

theorem appends_calls {total cost : Binary64} (glyphs : o.glyphs = {})
    (trimmed : Text.trim label.toList = label.toList) (called : 1 ≤ total.whole)
    (safeTotal : total.IsSafe) (safeCost : cost.IsSafe) (below : Appends o inner calls children)
    (depth : Nat) :
    Appends o (callLines depth label inner cost.whole ++
        (List.replicate (total.whole - 1) (callLines depth label [] 0)).flatten)
      (total.whole + calls) (Node.toForest ⟨label, total, cost, children⟩) := by
  intro s inside new
  have fresh : label ∉ s.current.labels := new label List.mem_cons_self
  have first := after_call glyphs trimmed safeCost.1 below depth inside
  rw [Forest.add, Forest.insertWith_of_not_mem _ _ _ fresh] at first
  have whole : 1 + (total.whole - 1) = total.whole := by omega
  have further := after_further_calls glyphs trimmed fresh safeCost.1 depth (total.whole - 1)
    (Nat.le_trans (Nat.le_of_eq whole) safeTotal.1) (inside.grown (calls + 1) (s.current ++
      Node.toForest ⟨label, .ofNat 1, .ofNat cost.whole, children⟩)) (current_grown inside _ _)
  have steps : calls + 1 + (total.whole - 1) = total.whole + calls := by omega
  rw [after_append, first, further, grown_grown, whole, steps, ← safeTotal.2, ← safeCost.2]

end Calls

theorem appends_trace {o : ScanOptions} (glyphs : o.glyphs = {}) {f : Forest}
    (writable : f.Writable) (distinct : f.Distinct) (depth : Nat) :
    Appends o (f.trace depth) f.callSum f := by
  induction f generalizing depth with
  | nil => exact appends_nil o
  | cons label calls cycles children siblings ihc ihs =>
      obtain ⟨trimmed, called, safeCalls, safeCycles, writableChildren, writableSiblings⟩ :=
        writable
      obtain ⟨new, distinctChildren, distinctSiblings⟩ := distinct
      have below := ihc writableChildren distinctChildren (depth + 1)
      have own := appends_calls glyphs trimmed called safeCalls safeCycles below depth
      apply own.append (ihs writableSiblings distinctSiblings depth)
      intro l hl same
      obtain rfl : l = label := List.mem_singleton.1 same
      exact new hl

/-- Every root is written as one section. -/
theorem after_roots {o : ScanOptions} (glyphs : o.glyphs = {}) {f : Forest}
    (wellFormed : f.WellFormed o.topLevelLabel) {s : Scan} (idle : s.Idle) :
    s.after o (f.trace 0) =
      { s.grown f.callSum .nil with sections := f.nodes.reverse ++ s.sections } := by
  induction f generalizing s with
  | nil =>
      obtain ⟨stats, spans, skipDepth, sections, issues⟩ := s
      obtain ⟨rfl, _⟩ := idle
      rfl
  | cons label calls cycles children siblings _ ih =>
      obtain ⟨⟨trimmed, _, _, safeCycles, writableChildren, writableSiblings⟩, roots⟩ := wellFormed
      obtain ⟨wanted, single, distinct⟩ := roots _ List.mem_cons_self
      change calls = .ofNat 1 at single
      have one : calls.whole = 1 := by rw [single, Binary64.whole_ofNat (by decide)]
      have below := appends_trace glyphs writableChildren distinct 1
      have first := after_call_section glyphs trimmed safeCycles.1 below 0 idle wanted
      rw [← safeCycles.2, ← single] at first
      have rest := ih ⟨writableSiblings, fun root h => roots root (List.mem_cons_of_mem _ h)⟩
        (s := { s.grown (children.callSum + 1) .nil with
          sections := ⟨label, calls, cycles, children⟩ :: s.sections })
        ⟨by rw [grown, idle.1]; rfl, idle.2⟩
      rw [Forest.trace, one, Nat.sub_self, List.replicate_zero, List.flatten_nil, List.append_nil,
        after_append, first, rest]
      simp only [grown, idle.1, Forest.callSum, Forest.nodes, one, List.reverse_cons,
        List.append_assoc, List.singleton_append, List.modifyHead_nil]
      congr 2
      all_goals omega

end Scan

theorem ofLine_of_mem_callLines {depth : Nat} {label : String} {inner : List String} {cycles : Nat}
    (trimmed : Text.trim label.toList = label.toList) (safe : cycles ≤ Binary64.maxSafe)
    (sound : ∀ line ∈ inner, ¬Glyphs.Malformed {} line) :
    ∀ line ∈ callLines depth label inner cycles, ¬Glyphs.Malformed {} line := by
  intro line h
  rw [callLines, List.mem_cons, List.mem_append, List.mem_singleton] at h
  rcases h with rfl | h | rfl
  · rintro ⟨cause, hc⟩
    rw [ofLine_openingLine depth trimmed] at hc
    cases hc
  · exact sound line h
  · rintro ⟨cause, hc⟩
    rw [ofLine_closingLine depth safe] at hc
    cases hc

theorem Forest.Writable.not_malformed {f : Forest} (h : f.Writable) (depth : Nat) :
    ∀ line ∈ f.trace depth, ¬Glyphs.Malformed {} line := by
  induction f generalizing depth with
  | nil =>
      intro line hl
      cases hl
  | cons label calls cycles children siblings ihc ihs =>
      obtain ⟨trimmed, _, _, safeCycles, writableChildren, writableSiblings⟩ := h
      intro line hl
      rw [trace, List.mem_append, List.mem_append, List.mem_flatten] at hl
      rcases hl with (hl | ⟨call, hcall, hl⟩) | hl
      · exact ofLine_of_mem_callLines trimmed safeCycles.1 (ihc writableChildren _) line hl
      · rw [List.eq_of_mem_replicate hcall] at hl
        refine ofLine_of_mem_callLines trimmed (Nat.zero_le _) ?_ line hl
        intro line hl
        cases hl
      · exact ihs writableSiblings depth line hl

theorem Forest.Writable.safeCalls {f : Forest} (h : f.Writable) : f.SafeCalls := by
  induction f with
  | nil => exact True.intro
  | cons label calls cycles children siblings ihc ihs =>
      obtain ⟨_, _, safeCalls, _, writableChildren, writableSiblings⟩ := h
      exact ⟨safeCalls, ihc writableChildren, ihs writableSiblings⟩

theorem Forest.WellFormed.readBack {topLevelLabel : String} {f : Forest}
    (wellFormed : f.WellFormed topLevelLabel) (strictSections : Bool) :
    Profile.ofLines { topLevelLabel, strictSections } (f.trace 0) =
      .ok ⟨f, { lines := 2 * f.callSum, opens := f.callSum, closes := f.callSum }, []⟩ := by
  rw [Profile.ofLines_eq _ _ (wellFormed.writable.not_malformed 0),
    Scan.after_roots (o := { topLevelLabel, strictSections }) rfl wellFormed ⟨rfl, rfl⟩,
    Scan.profile, Scan.roots_finish, Scan.stats_finish, Scan.roots, List.append_nil,
    List.reverse_reverse, Forest.ofNodes_nodes]
  simp only [Scan.grown, Nat.zero_add]
  rfl

/-- The canonical trace of a forest is read back as that forest, with sections strict or not. -/
theorem ofLines_trace {topLevelLabel : String} {f : Forest}
    (wellFormed : f.WellFormed topLevelLabel) (few : 2 * f.callSum ≤ Binary64.maxSafe)
    (strictSections : Bool) :
    Profile.ofLines { topLevelLabel, strictSections } (f.trace 0) =
        .ok ⟨f, { lines := 2 * f.callSum, opens := f.callSum, closes := f.callSum }, []⟩ ∧
      f.totalCalls = .ofNat f.callSum := by
  constructor
  · exact wellFormed.readBack strictSections
  · exact Forest.totalCalls_eq wellFormed.writable.safeCalls (by omega)

theorem ofLines_trace_repeated_root :
    let f : Forest := .cons "main" (.ofNat 1) (.ofNat 1234567)
      (.cons "work" (.ofNat 3) (.ofNat 1000) (.cons "work" (.ofNat 1) 0 .nil .nil)
        (.cons "" (.ofNat 1) (.ofNat 7) .nil .nil))
      (.cons "main" (.ofNat 1) 0 .nil .nil)
    f.WellFormed "main" ∧ 2 * f.callSum ≤ Binary64.maxSafe ∧
      Profile.ofLines { topLevelLabel := "main", strictSections := true } (f.trace 0) =
          .ok ⟨f, { lines := 2 * f.callSum, opens := f.callSum, closes := f.callSum }, []⟩ ∧
        f.totalCalls = .ofNat f.callSum := by
  intro f
  have wellFormed : f.WellFormed "main" := by
    constructor
    · simp only [f, Forest.Writable, Binary64.IsSafe]
      decide +kernel
    · simp [f, Forest.nodes, Forest.Distinct, Forest.labels]
  have few : 2 * f.callSum ≤ Binary64.maxSafe := by decide +kernel
  exact ⟨wellFormed, few, ofLines_trace wellFormed few true⟩

end CallCost
