import CallCost.Settings.Environment
import CallCost.Settings.Numeral
import CallCost.Text.Blank
import CallCost.Text.UpperCase

/-!
Settings from environment variables. A setting is named with or without the common start of the
variables and in any case; a blank value is no value, and a value that cannot be read gives the
default.
-/

namespace CallCost
namespace Settings

/-- The common start of the names of all variables. -/
def variableStart : List Char := "SPAN_TREE_".toList

/-- The variable that holds a setting. -/
def variableName (name : String) : String :=
  let upper := Text.upper name.toList
  String.ofList (if variableStart.isPrefixOf upper then upper else variableStart ++ upper)

/-- The trimmed value of a setting. -/
def get? (env : Environment) (name : String) : Option String := do
  let value := Text.trim (← env (variableName name)).toList
  guard (value ≠ [])
  some (String.ofList value)

/-- The greatest whole number not above a value that is written as a finite numeral. -/
def whole? (value : String) : Option Binary64 :=
  match readNumeral? value.toList with
  | some (.finite units) => some (Binary64.finite units).floor
  | _ => none

/-- A numeric setting, brought between two bounds. The default is clamped too; between bounds in
the wrong order the lower one wins. -/
def number (env : Environment) (name : String) (default low high : Binary64) : Binary64 :=
  let value := ((get? env name).bind whole?).getD default
  Binary64.maximum low (Binary64.minimum high value)

/-- The truth value of a word in any ASCII case. No other letter has a lower case that occurs in
these words. -/
def truth? (word : String) : Option Bool :=
  let word := String.ofList (word.toList.map Char.toLower)
  if word ∈ ["1", "true", "yes", "on"] then some true
  else if word ∈ ["0", "false", "no", "off"] then some false
  else none

def bool (env : Environment) (name : String) (default : Bool) : Bool :=
  ((get? env name).bind truth?).getD default

end Settings

/-- The settings of a run. -/
structure Settings where
  indentWidth : Nat
  trace : Bool
  deriving DecidableEq

def Settings.load (env : Environment) : Settings where
  indentWidth := ((number env "indent" (.ofNat 2) 0 (.ofNat 8)).toInt?.getD 0).toNat
  trace := bool env "trace" false

end CallCost
