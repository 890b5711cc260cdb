import CallCost.Proofs.JsonProjection
import CallCost.Proofs.SelfCosts
import CallCost.Proofs.TreePaths

/-!
The JSON text of a forest, written from a work list. The list holds what is still to be written,
texts as they are and trees; a tree gives way to its opening, its children with commas between
them and its closing brackets. The writer comes to an end for every forest, and what it has
written then is the compact text of the JSON value of the forest.
-/

namespace CallCost

/-- What a writer has still to write. -/
inductive Pending where
  | text (chars : List Char)
  | tree (n : Node)

/-- The trees of a row with a comma between each two. -/
def Forest.pending : Forest → List Pending
  | nil => []
  | cons label calls cycles children siblings =>
      .tree ⟨label, calls, cycles, children⟩ ::
        match siblings with
        | nil => []
        | cons .. => .text [','] :: siblings.pending

/-- The text of a node up to its first child. -/
def Node.jsonOpening (n : Node) : List Char :=
  "\x7b\"label\":".toList ++ (Json.quote n.label ++
    (",\"callCount\":".toList ++ (n.calls.text.toList ++
      (",\"totalCycles\":".toList ++ (n.cycles.text.toList ++
        (",\"selfCycles\":".toList ++ (n.selfCycles.text.toList ++
          ",\"children\":[".toList)))))))

/-- A writer part way through. What it writes next is in front. -/
structure JsonWriter where
  written : List Char
  pending : List Pending

namespace JsonWriter

def start (f : Forest) : JsonWriter :=
  ⟨['['], f.pending ++ [.text [']']]⟩

def step (w : JsonWriter) : JsonWriter :=
  match w.pending with
  | [] => w
  | .text chars :: rest => ⟨w.written ++ chars, rest⟩
  | .tree n :: rest =>
      ⟨w.written ++ n.jsonOpening, n.children.pending ++ .text [']', '\x7d'] :: rest⟩

/-- With such a work list a writer writes the text and comes to an end, whatever it has written
before. -/
def Writes (pending : List Pending) (text : List Char) : Prop :=
  ∀ written, ∃ steps, step^[steps] ⟨written, pending⟩ = ⟨written ++ text, []⟩

theorem Writes.nil : Writes [] [] :=
  fun written => ⟨0, by rw [List.append_nil]; rfl⟩

theorem Writes.text {rest : List Pending} {after : List Char} (h : Writes rest after)
    (chars : List Char) : Writes (.text chars :: rest) (chars ++ after) := by
  intro written
  obtain ⟨steps, ends⟩ := h (written ++ chars)
  rw [List.append_assoc] at ends
  exact ⟨steps + 1, ends⟩

theorem Writes.tree {n : Node} {rest : List Pending} {after : List Char}
    (h : Writes (n.children.pending ++ .text [']', '\x7d'] :: rest) after) :
    Writes (.tree n :: rest) (n.jsonOpening ++ after) := by
  intro written
  obtain ⟨steps, ends⟩ := h (written ++ n.jsonOpening)
  rw [List.append_assoc] at ends
  exact ⟨steps + 1, ends⟩

end JsonWriter

theorem Json.numberText_eq {x : Binary64} (h : ∃ units : Nat, x = .finite units) :
    numberText x = x.text.toList := by
  obtain ⟨units, rfl⟩ := h
  rfl

namespace Forest

/-- What stands between a node and the end of its row. -/
def jsonAfter (after : List Char) : Forest → List Char
  | nil => after
  | siblings@(cons ..) => ',' :: siblings.jsonBefore after

theorem jsonBefore_cons (after : List Char) (label : String) (calls cycles : Binary64)
    (children siblings : Forest) :
    (cons label calls cycles children siblings).jsonBefore after =
      Node.jsonOpening ⟨label, calls, cycles, children⟩ ++
        children.jsonBefore (']' :: '\x7d' :: siblings.jsonAfter after) := by
  unfold Node.jsonOpening
  simp only [List.append_assoc]
  cases siblings <;> rfl

/-- A writer gets through a row of trees to what follows it. -/
theorem writes_pending (f : Forest) {rest : List Pending} {after : List Char}
    (h : JsonWriter.Writes rest after) :
    JsonWriter.Writes (f.pending ++ rest) (f.jsonBefore after) := by
  induction f generalizing rest after with
  | nil => exact h
  | cons label calls cycles children siblings ihc ihs =>
      rw [jsonBefore_cons]
      apply JsonWriter.Writes.tree
      apply ihc
      refine JsonWriter.Writes.text ?_ [']', '\x7d']
      cases siblings with
      | nil => exact h
      | cons => exact (ihs h).text [',']

/-- The text of an object with the fields of a node. -/
theorem render_node {n : Node} (own : n.HasAmounts)
    (below : ∀ child ∈ n.children.nodes, child.cycles.IsAmount) (items : List Json) :
    Json.render (.object [("label", .string n.label), ("callCount", .number n.calls),
        ("totalCycles", .number n.cycles), ("selfCycles", .number n.selfCycles),
        ("children", .array items)]) =
      n.jsonOpening ++ (Json.renderItems items ++ [']', '\x7d']) := by
  have names : Json.quote "label" = "\"label\"".toList ∧
      Json.quote "callCount" = "\"callCount\"".toList ∧
      Json.quote "totalCycles" = "\"totalCycles\"".toList ∧
      Json.quote "selfCycles" = "\"selfCycles\"".toList ∧
      Json.quote "children" = "\"children\"".toList := ⟨rfl, rfl, rfl, rfl, rfl⟩
  have calls := Json.numberText_eq own.calls.finite
  have cycles := Json.numberText_eq own.cycles.finite
  have selfCycles := Json.numberText_eq (Node.selfCycles_finite own.cycles below)
  unfold Node.jsonOpening
  simp only [Json.render, Json.renderFields, calls, cycles, selfCycles, names]
  simp

/-- Written in front of any text, the text of the roots is that of the JSON items. -/
theorem jsonBefore_eq {f : Forest} (amounts : f.Each Node.HasAmounts) (after : List Char) :
    f.jsonBefore after = Json.renderItems f.toJsonList ++ after := by
  induction f generalizing after with
  | nil => rfl
  | cons label calls cycles children siblings ihc ihs =>
      obtain ⟨own, below, beside⟩ := amounts
      have item := render_node own (fun child hc => (below.mem_nodes child hc).cycles)
        children.toJsonList
      rw [jsonBefore_cons, ihc below]
      cases siblings with
      | nil => simp [toJsonList, Json.renderItems, jsonAfter, item]
      | cons => simp [toJsonList, Json.renderItems, jsonAfter, item, ihs beside]

theorem jsonText_eq {f : Forest} (amounts : f.Each Node.HasAmounts) :
    f.jsonText = f.toJson.text := by
  rw [jsonText, jsonBefore_eq amounts, toJson, Json.text, Json.render]

/-- Writer and projection come to an end for every forest. Where all numbers are finite and not
below zero, what is written is the text of the value that is projected. -/
theorem jsonWriter_agrees (f : Forest) :
    (∃ steps, JsonWriter.step^[steps] (.start f) = ⟨f.jsonText.toList, []⟩) ∧
      (∃ steps objects, JsonProjection.step^[steps] (.start f) = ⟨objects, []⟩ ∧
        .array ((List.range f.nodes.length).map (JsonProjection.value objects f.size)) =
          f.toJson) ∧
      (f.Each Node.HasAmounts → f.jsonText = f.toJson.text) := by
  refine ⟨?_, ?_, jsonText_eq⟩
  · have ends := f.writes_pending (JsonWriter.Writes.nil.text [']'])
    obtain ⟨steps, written⟩ := ends ['[']
    exact ⟨steps, by simpa [jsonText, JsonWriter.start] using written⟩
  · obtain ⟨steps, objects, run, items⟩ := JsonProjection.start_ends f
    exact ⟨steps, objects, run, congrArg Json.array items⟩

/-- A half, the least positive number and a power of two, under labels that need an escape and
roots that share one. -/
theorem jsonWriter_agrees_fractions :
    let half := Binary64.finite (twoPow 1073)
    let large := Binary64.finite (twoPow 2000)
    let f : Forest :=
      .cons "a\"\\" 0 half
        (.cons "\n" 0 (.finite 1) .nil (.cons "" 0 large (.cons "b" 0 0 .nil .nil) .nil))
        (.cons "a\"\\" 0 0 .nil .nil)
    f.Each Node.HasAmounts ∧ f.jsonText = f.toJson.text := by
  intro half large f
  have zero : Binary64.IsAmount 0 := ⟨0, by decide, rfl⟩
  have one : (Binary64.finite 1).IsAmount := ⟨1, by decide, rfl⟩
  have half : half.IsAmount := ⟨twoPow 1073, by decide +kernel, rfl⟩
  have large : large.IsAmount := ⟨twoPow 2000, by decide +kernel, rfl⟩
  have amounts : f.Each Node.HasAmounts :=
    ⟨⟨zero, half⟩, ⟨⟨zero, one⟩, trivial, ⟨zero, large⟩, ⟨⟨zero, zero⟩, trivial, trivial⟩, trivial⟩,
      ⟨zero, zero⟩, trivial, trivial⟩
  exact ⟨amounts, f.jsonWriter_agrees.2.2 amounts⟩

end Forest
end CallCost
