/-!
Anomalies in a trace that do not stop its reading.
-/

namespace CallCost

inductive Severity where
  | info
  | warning
  deriving DecidableEq

inductive Anomaly where
  /-- A span opened outside every section, with another label than the one sections have. -/
  | openSkipped (label topLevelLabel : String)
  | closeUnmatched
  | openUnclosed (label : String)
  deriving DecidableEq

structure Issue where
  line : Nat
  anomaly : Anomaly
  deriving DecidableEq

def Severity.text : Severity → String
  | .info => "info"
  | .warning => "warning"

namespace Anomaly

def severity : Anomaly → Severity
  | openSkipped .. => .info
  | closeUnmatched => .warning
  | openUnclosed _ => .warning

def code : Anomaly → String
  | openSkipped .. => "open.skipped"
  | closeUnmatched => "close.unmatched"
  | openUnclosed _ => "open.unclosed"

def message : Anomaly → String
  | openSkipped label topLevelLabel =>
      "Skipped section \"" ++ label ++ "\" outside \"" ++ topLevelLabel ++ "\""
  | closeUnmatched => "Close marker without an open span"
  | openUnclosed label => "Span \"" ++ label ++ "\" was never closed"

end Anomaly
end CallCost
