import CallCost.CallTree.Rows
import CallCost.CommandLine.Run
import CallCost.Proofs.MarkerLines
import CallCost.Proofs.Numerals
import CallCost.Proofs.SelfCosts
import CallCost.Proofs.TreePaths
import Mathlib.Data.List.Basic

/-!
The lines of a report with an indent. A line gives back its depth, its label and its numbers: the
numbers stand behind the last spaces, and a trimmed label has no space in front that could be
taken for indent. The depths in pre-order give back the forest, and the text that a run writes
gives back the lines.
-/

namespace CallCost

/-! ### One line -/

/-- The last place of a separator splits a text in one way. -/
theorem eq_of_append_cons_eq {α : Type} {x : α} {front front' last last' : List α}
    (h : x ∉ last) (h' : x ∉ last') (same : front ++ x :: last = front' ++ x :: last') :
    front = front' ∧ last = last' := by
  rcases List.append_eq_append_iff.1 same with ⟨between, rfl, tail⟩ | ⟨between, rfl, tail⟩
  · cases between with
    | nil => simpa using tail
    | cons y between =>
        rw [List.cons_append, List.cons.injEq] at tail
        exact absurd (by simp [tail.2]) h
  · cases between with
    | nil => simpa [eq_comm] using tail
    | cons y between =>
        rw [List.cons_append, List.cons.injEq] at tail
        exact absurd (by simp [tail.2]) h'

/-- Spaces in front of a text without a space in front are a number and the text. -/
theorem eq_of_spaces_append_eq {m n : Nat} {text text' : List Char}
    (h : text.head? ≠ some ' ') (h' : text'.head? ≠ some ' ')
    (same : List.replicate m ' ' ++ text = List.replicate n ' ' ++ text') :
    m = n ∧ text = text' := by
  have drop {k : Nat} {t : List Char} (ht : t.head? ≠ some ' ') :
      (List.replicate k ' ' ++ t).dropWhile (· = ' ') = t := by
    rw [List.dropWhile_append_of_pos (by simp)]
    cases t with
    | nil => rfl
    | cons c t => exact List.dropWhile_cons_of_neg (by simpa using ht)
  have texts : text = text' := by rw [← drop (k := m) h, same, drop h']
  have lengths := congrArg List.length same
  simp only [texts, List.length_append, List.length_replicate] at lengths
  exact ⟨Nat.add_right_cancel lengths, texts⟩

theorem Text.IsTrimmed.head?_ne_space {text : String} (h : IsTrimmed text) :
    text.toList.head? ≠ some ' ' := by
  intro space
  rw [← h] at space
  exact absurd (isBlank_of_head?_trim _ space) (by decide)

theorem Text.toList_repeated_spaces (count width : Nat) :
    (repeated count (String.ofList (List.replicate width ' '))).toList =
      List.replicate (count * width) ' ' := by
  rw [repeated_eq, String.toList_join, List.flatMap_def, List.map_replicate,
    String.toList_ofList, List.flatten_replicate_replicate]

/-- The layout without own costs and with an indent of so many spaces. -/
def Layout.spaces (indentWidth : Nat) : Layout :=
  { indentUnit := String.ofList (List.replicate indentWidth ' ') }

/-- The label is trimmed and the numbers are safe whole numbers. -/
structure Node.Plain (n : Node) : Prop extends n.HasSafe where
  label : Text.IsTrimmed n.label

instance (n : Node) : Decidable n.Plain :=
  decidable_of_iff (n.HasSafe ∧ Text.trim n.label.toList = n.label.toList)
    ⟨fun h => ⟨h.1, h.2⟩, fun h => ⟨h.toHasSafe, h.label⟩⟩

namespace Row

/-- A node without its children. -/
def node (r : Row) : Node :=
  ⟨r.label, r.calls, r.cycles, .nil⟩

def line (indentWidth : Nat) (r : Row) : String :=
  r.node.line (.spaces indentWidth) r.depth

variable {indentWidth : Nat} {r s : Row}

theorem toList_line (h : r.node.Plain) :
    (r.line indentWidth).toList =
      List.replicate (r.depth * indentWidth + 1) ' ' ++ r.label.toList ++
        " count:".toList ++ ' ' :: Nat.toDigits 10 r.calls.whole ++
        " sum:".toList ++ ' ' :: Nat.toDigits 10 r.cycles.whole := by
  have calls : r.calls.text.toList = Nat.toDigits 10 r.calls.whole := h.calls.toList_text
  have cycles : r.cycles.text.toList = Nat.toDigits 10 r.cycles.whole := h.cycles.toList_text
  unfold line Node.line Node.entry Layout.spaces
  rw [String.toList_append, Text.toList_repeated_spaces, List.replicate_succ']
  simp [node, calls, cycles]

theorem line_injective (indented : 1 ≤ indentWidth) (hr : r.node.Plain) (hs : s.node.Plain)
    (same : r.line indentWidth = s.line indentWidth) : r = s := by
  have digits (n : Nat) : ' ' ∉ Nat.toDigits 10 n := not_mem_toDigits rfl n
  have texts := congrArg String.toList same
  rw [toList_line hr, toList_line hs] at texts
  obtain ⟨texts, cycles⟩ := eq_of_append_cons_eq (digits _) (digits _) texts
  obtain ⟨texts, calls⟩ := eq_of_append_cons_eq (digits _) (digits _)
    (List.append_cancel_right texts)
  obtain ⟨indents, labels⟩ := eq_of_spaces_append_eq hr.label.head?_ne_space
    hs.label.head?_ne_space (List.append_cancel_right texts)
  rw [Row.mk.injEq]
  exact ⟨Nat.eq_of_mul_eq_mul_right indented (Nat.succ.inj indents), String.toList_inj.1 labels,
    hr.calls.eq_of_toDigits_eq hs.calls calls, hr.cycles.eq_of_toDigits_eq hs.cycles cycles⟩

/-- A line has a line feed only in its label. -/
theorem lineFeed_not_mem_line (h : r.node.Plain) (label : '\n' ∉ r.label.toList) :
    '\n' ∉ (r.line indentWidth).toList := by
  have digits (n : Nat) : '\n' ∉ Nat.toDigits 10 n := not_mem_toDigits rfl n
  rw [toList_line h]
  simp [label, digits]

/-- A line ends in a digit. -/
theorem isDigit_of_getLast?_line (h : r.node.Plain) {c : Char}
    (last : (r.line indentWidth).toList.getLast? = some c) : c.isDigit = true := by
  rw [toList_line h, List.append_cons, List.getLast?_append_of_ne_nil _ Nat.toDigits_ne_nil]
    at last
  exact isDigit_of_mem_toDigits (List.mem_of_getLast? last)

end Row

/-! ### The text of lines -/

theorem intercalate_concat_nil {α : Type} (separator : List α) {pieces : List (List α)}
    (some_ : pieces ≠ []) :
    separator.intercalate (pieces ++ [[]]) = separator.intercalate pieces ++ separator := by
  induction pieces with
  | nil => exact absurd rfl some_
  | cons piece rest ih =>
      cases rest with
      | nil => simp [List.intercalate_cons_cons]
      | cons next rest =>
          simp only [List.cons_append, List.intercalate_cons_cons, List.append_assoc] at ih ⊢
          rw [ih (List.cons_ne_nil next rest)]

/-- Lines that are written with a line feed behind each are read back. -/
theorem Text.lines_intercalate {lines : List (List Char)} (some_ : lines ≠ [])
    (closed : ∀ line ∈ lines, '\n' ∉ line) (kept : ∀ line ∈ lines, line.getLast? ≠ some '\r') :
    Text.lines (['\n'].intercalate lines ++ ['\n']) = lines := by
  have pieces : (['\n'].intercalate lines ++ ['\n']).splitOn '\n' = lines ++ [[]] := by
    rw [← intercalate_concat_nil _ some_]
    apply List.splitOn_intercalate
    · simpa [or_imp, forall_and] using closed
    · simp
  have same : lines.map dropReturn = lines :=
    (List.map_congr_left fun line hl => if_neg (kept line hl)).trans lines.map_id'
  rw [Text.lines, pieces, terminated, List.dropLast_concat]
  simp [same]

namespace Forest

/-! ### The depths of the lines -/

theorem depth_of_head?_rowsBefore (f : Forest) {after : List Row} {depth : Nat}
    (h : ∀ r ∈ after.head?, r.depth < depth) :
    ∀ r ∈ (f.rowsBefore after depth).head?, r.depth < depth + 1 := by
  cases f with
  | nil => exact fun r hr => Nat.lt_succ_of_lt (h r hr)
  | cons =>
      rintro r ⟨⟩
      exact Nat.lt_succ_self depth

/-- The rows of a forest end where a row of a lesser depth, or nothing, follows. -/
theorem rowsBefore_injective {f g : Forest} {xs ys : List Row} {depth : Nat}
    (hx : ∀ r ∈ xs.head?, r.depth < depth) (hy : ∀ r ∈ ys.head?, r.depth < depth)
    (h : f.rowsBefore xs depth = g.rowsBefore ys depth) : f = g ∧ xs = ys := by
  induction f generalizing g xs ys depth with
  | nil =>
      cases g with
      | nil => exact ⟨rfl, h⟩
      | cons =>
          rw [rowsBefore] at h
          subst h
          exact absurd (hx _ rfl) (Nat.lt_irrefl _)
  | cons label calls cycles children siblings ihc ihs =>
      cases g with
      | nil =>
          rw [rowsBefore, rowsBefore] at h
          subst h
          exact absurd (hy _ rfl) (Nat.lt_irrefl _)
      | cons label' calls' cycles' children' siblings' =>
          simp only [rowsBefore, List.cons.injEq, Row.mk.injEq] at h
          obtain ⟨⟨_, rfl, rfl, rfl⟩, rest⟩ := h
          obtain ⟨rfl, beside⟩ := ihc (siblings.depth_of_head?_rowsBefore hx)
            (siblings'.depth_of_head?_rowsBefore hy) rest
          obtain ⟨rfl, after⟩ := ihs hx hy beside
          exact ⟨rfl, after⟩

theorem rows_injective {f g : Forest} (h : f.rows = g.rows) : f = g :=
  (rowsBefore_injective (by simp) (by simp) h).1

/-! ### The lines of a forest -/

/-- What holds of every node, whatever children it has, holds of every row. -/
theorem Each.of_mem_rowsBefore {p : Node → Prop} (bare : ∀ n, p n → p { n with children := nil })
    {f : Forest} (h : f.Each p) (depth : Nat) : ∀ r ∈ f.rowsBefore [] depth, p r.node := by
  induction f generalizing depth with
  | nil => exact fun r hr => absurd hr List.not_mem_nil
  | cons label calls cycles children siblings ihc ihs =>
      obtain ⟨own, below, beside⟩ := h
      rw [rowsBefore, rowsBefore_eq]
      intro r hr
      rcases List.mem_cons.1 hr with rfl | hr
      · exact bare _ own
      · exact (List.mem_append.1 hr).elim (ihc below _ r) (ihs beside _ r)

theorem Each.plain_of_mem_rows {f : Forest} (h : f.Each Node.Plain) :
    ∀ r ∈ f.rows, r.node.Plain :=
  h.of_mem_rowsBefore (fun _ own => ⟨⟨own.calls, own.cycles⟩, own.label⟩) 0

/-- The lines of a report are those of the rows. -/
theorem linesBefore_eq_map (indentWidth : Nat) (f : Forest) (after : List String) (depth : Nat) :
    f.linesBefore (.spaces indentWidth) after depth =
      (f.rowsBefore [] depth).map (Row.line indentWidth) ++ after := by
  induction f generalizing after depth with
  | nil => rfl
  | cons label calls cycles children siblings ihc ihs =>
      rw [linesBefore, rowsBefore, children.rowsBefore_eq, ihc, ihs]
      simp only [List.map_cons, List.map_append, List.cons_append, List.append_assoc]
      rfl

theorem lines_eq_map (indentWidth : Nat) (f : Forest) :
    f.lines (.spaces indentWidth) = f.rows.map (Row.line indentWidth) := by
  rw [lines, linesBefore_eq_map, List.append_nil, rows]

variable {indentWidth : Nat} {f g : Forest}

theorem eq_of_lines_eq (indented : 1 ≤ indentWidth) (hf : f.Each Node.Plain)
    (hg : g.Each Node.Plain)
    (same : f.rows.map (Row.line indentWidth) = g.rows.map (Row.line indentWidth)) : f = g := by
  apply rows_injective
  apply List.ext_getElem
  · simpa using congrArg List.length same
  · intro i hi hj
    apply Row.line_injective indented
    · exact hf.plain_of_mem_rows _ (List.getElem_mem hi)
    · exact hg.plain_of_mem_rows _ (List.getElem_mem hj)
    · simpa [hi, hj] using congrArg (·[i]?) same

theorem output_eq (some_ : f ≠ nil) (strictSections trace : Bool) :
    Run.output { strictSections } { indentWidth, trace } f =
      ["\n".intercalate (f.lines (.spaces indentWidth)) ++ "\n"] := by
  cases f with
  | nil => exact absurd rfl some_
  | cons => exact congrArg (fun lines => ["\n".intercalate lines ++ "\n"]) (List.append_nil _)

/-- Without line feeds in labels the text of the rows is read back line by line. -/
theorem lines_text (some_ : f ≠ nil) (plain : f.Each Node.Plain)
    (closed : f.Each (fun n => '\n' ∉ n.label.toList)) :
    traceLines ("\n".intercalate (f.rows.map (Row.line indentWidth)) ++ "\n") =
      f.rows.map (Row.line indentWidth) := by
  have closed : ∀ r ∈ f.rows, '\n' ∉ r.label.toList :=
    closed.of_mem_rowsBefore (fun _ own => own) 0
  have feed : "\n".toList = ['\n'] := rfl
  rw [traceLines, String.toList_append, String.toList_intercalate, feed, Text.lines_intercalate]
  · simp
  · cases f with
    | nil => exact absurd rfl some_
    | cons => exact List.cons_ne_nil _ _
  · simp only [List.forall_mem_map]
    exact fun r hr => Row.lineFeed_not_mem_line (plain.plain_of_mem_rows r hr) (closed r hr)
  · simp only [List.forall_mem_map]
    intro r hr last
    exact absurd (Row.isDigit_of_getLast?_line (plain.plain_of_mem_rows r hr) last) (by decide)

/-- With an indent no two forests of trimmed labels and safe whole numbers have the same lines,
and where no label has a line feed the text of a run is made of just these lines. -/
theorem lines_lossless (indented : 1 ≤ indentWidth) (plain : f.Each Node.Plain) :
    let text := "\n".intercalate (f.lines (.spaces indentWidth)) ++ "\n"
    (∀ g : Forest, g.Each Node.Plain →
        g.lines (.spaces indentWidth) = f.lines (.spaces indentWidth) → g = f) ∧
      (f ≠ nil → f.Each (fun n => '\n' ∉ n.label.toList) → ∀ strictSections trace,
        Run.output { strictSections } { indentWidth, trace } f = [text] ∧
          traceLines text = f.lines (.spaces indentWidth)) := by
  intro text
  refine ⟨fun g plain' same => ?_, fun some_ closed strictSections trace => ⟨?_, ?_⟩⟩
  · rw [lines_eq_map, lines_eq_map] at same
    exact eq_of_lines_eq indented plain' plain same
  · exact output_eq some_ strictSections trace
  · simp only [text, lines_eq_map]
    exact lines_text some_ plain closed

/-- Empty labels, a label that looks like the end of a line, and roots that share a label. The
other forest has the inner node beside the outer one. -/
theorem lines_lossless_lookalike :
    let n := Binary64.ofNat
    let last : Forest :=
      .cons "a count: 1 sum: 12" (n 3) (n 0) .nil (.cons "" (n 0) (n 7) .nil .nil)
    let f : Forest := .cons "" (n 1) (n 12) (.cons "" (n 2) (n 5) .nil .nil) last
    let g : Forest := .cons "" (n 1) (n 12) .nil (.cons "" (n 2) (n 5) .nil last)
    let text := "\n".intercalate (f.lines (.spaces 1)) ++ "\n"
    1 ≤ 1 ∧ f.Each Node.Plain ∧ g.Each Node.Plain ∧ g.lines (.spaces 1) ≠ f.lines (.spaces 1) ∧
      Run.output {} { indentWidth := 1, trace := false } f = [text] ∧
      traceLines text = f.lines (.spaces 1) := by
  intro n last f g text
  have plain : f.Each Node.Plain := by decide +kernel
  have plain' : g.Each Node.Plain := by decide +kernel
  have apart : g ≠ f := by decide +kernel
  have closed : f.Each (fun n => '\n' ∉ n.label.toList) := by decide +kernel
  obtain ⟨unique, readBack⟩ := lines_lossless (Nat.le_refl 1) plain
  obtain ⟨written, lines⟩ := readBack nofun closed false false
  exact ⟨Nat.le_refl 1, plain, plain', fun same => apart (unique g plain' same), written, lines⟩

end Forest
end CallCost
