/-!
Environment variables.
-/

namespace CallCost

/-- The value of each environment variable that is set. -/
abbrev Environment := String → Option String

end CallCost
