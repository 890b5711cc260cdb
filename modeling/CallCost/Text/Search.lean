/-!
The first occurrence of a pattern in a text. The empty pattern occurs at the very start.
-/

namespace CallCost.Text

/-- What follows the first occurrence of `pattern`, if there is one. -/
def after? (pattern : List Char) : List Char → Option (List Char)
  | [] => pattern.isPrefixOf? []
  | c :: rest =>
      match pattern.isPrefixOf? (c :: rest) with
      | some following => some following
      | none => after? pattern rest

theorem after?_nil (text : List Char) : after? [] text = some text := by
  cases text <;> rfl

end CallCost.Text
