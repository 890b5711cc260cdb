import CallCost.CallTree.Totals
import CallCost.Json.Basic

/-!
A forest in JSON: an array of objects, each with its label, its numbers, its own cost and its
children. The text is written in one pass from the end of the forest to its start.
-/

namespace CallCost

namespace Forest

def toJsonList : Forest → List Json
  | nil => []
  | cons label calls cycles children siblings =>
      .object [("label", .string label), ("callCount", .number calls),
        ("totalCycles", .number cycles),
        ("selfCycles", .number (Node.selfCycles ⟨label, calls, cycles, children⟩)),
        ("children", .array children.toJsonList)] :: siblings.toJsonList

def toJson (f : Forest) : Json :=
  .array f.toJsonList

/-- The text of the roots with commas between them, in front of the text that follows. -/
def jsonBefore (after : List Char) : Forest → List Char
  | nil => after
  | cons label calls cycles children siblings =>
      let own := Node.selfCycles ⟨label, calls, cycles, children⟩
      let following :=
        match siblings with
        | nil => after
        | cons .. => ',' :: siblings.jsonBefore after
      "\x7b\"label\":".toList ++ (Json.quote label ++
        (",\"callCount\":".toList ++ (calls.text.toList ++
          (",\"totalCycles\":".toList ++ (cycles.text.toList ++
            (",\"selfCycles\":".toList ++ (own.text.toList ++
              (",\"children\":[".toList ++
                children.jsonBefore (']' :: '\x7d' :: following)))))))))

/-- The compact JSON text of a forest. -/
def jsonText (f : Forest) : String :=
  String.ofList ('[' :: f.jsonBefore [']'])

end Forest
end CallCost
