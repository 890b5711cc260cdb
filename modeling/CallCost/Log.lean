import CallCost.Json.FieldOrder

/-!
Diagnostic lines. A line has a time, a level and parts with a space between them. Trace lines are
written only while tracing is on, error lines always; all go to one sink, which is the standard
error stream until another one is set.
-/

namespace CallCost

/-- Whether a value counts as yes. All values do except null, false, zero, `nan` and the empty
string. -/
def Json.countsAsYes : Json → Bool
  | .null => false
  | .bool b => b
  | .number n => n ≠ 0 && n ≠ .nan
  | .string s => s ≠ ""
  | .array _ => true
  | .object _ => true

namespace Log

/-- The record of where an error arose. An unreadable one spoils the whole line it is in. -/
inductive Backtrace where
  | absent
  | text (s : String)
  | unreadable

structure Fault where
  name : String
  message : String
  backtrace : Backtrace

inductive Part where
  | value (j : Json)
  /-- A value that was never set. -/
  | unset
  | integer (n : Int)
  | fault (f : Fault)
  /-- An object that holds itself. -/
  | cyclicObject
  /-- An array of some items and then itself. -/
  | cyclicArray (items : List Json)

/-- The field that stands in the way of the plain form of the object it is in. -/
def plainFormField : String := "toString"

mutual

/-- The plain form of a JSON value: objects show no content, arrays their items with commas. -/
def plainValue? : Json → Option String
  | .null => some "null"
  | .bool b => some (if b then "true" else "false")
  | .number n => some n.text
  | .string s => some s
  | .array items => (plainItems? items).map (",".intercalate ·)
  | .object fields =>
      if (fields.lookup plainFormField).isSome then none else some "[object Object]"

/-- The plain forms of items; a null item is left blank. -/
def plainItems? : List Json → Option (List String)
  | [] => some []
  | .null :: rest => (plainItems? rest).map ("" :: ·)
  | item :: rest => do
      let first ← plainValue? item
      let rest ← plainItems? rest
      return first :: rest

end

namespace Fault

/-- The name and the message of an error, or the one that is not empty. -/
def plain (f : Fault) : String :=
  if f.name = "" then f.message
  else if f.message = "" then f.name
  else f.name ++ ": " ++ f.message

/-- The name, the message and the record below them. A record that cannot be read gives
nothing. -/
def detailed? (f : Fault) : Option String :=
  let head := f.name ++ ": " ++ f.message
  match f.backtrace with
  | .absent => some head
  | .text s => some (if s = "" then head else head ++ "\n" ++ s)
  | .unreadable => none

end Fault

namespace Part

def plain? : Part → Option String
  | value j => plainValue? j
  | unset => some "undefined"
  | integer n => some (toString n)
  | fault f => some f.plain
  | cyclicObject => some "[object Object]"
  | cyclicArray items => (plainItems? items).map fun texts => ",".intercalate (texts ++ [""])

/-- The full form of a part: arrays and objects as JSON, errors with their record. What holds
itself has no JSON and keeps its plain form. -/
def detailed? : Part → Option String
  | value (.array items) => some (Json.array items).listed.text
  | value (.object fields) => some (Json.object fields).listed.text
  | fault f => f.detailed?
  | part => part.plain?

end Part

/-- The text of a line. One part without a full form makes every part plain, and one part
without a plain form then leaves the line without a text. -/
def joined? (parts : List Part) : Option String :=
  (parts.mapM Part.detailed? <|> parts.mapM Part.plain?).map (" ".intercalate ·)

/-- The reason why a line cannot be written: a part of it has no plain form. -/
structure NoPlainForm where
  deriving DecidableEq

def NoPlainForm.message : NoPlainForm → String
  | ⟨⟩ => "Cannot convert object to primitive value"

inductive Level where
  | error
  | trace
  deriving DecidableEq

def Level.text : Level → String
  | .error => "ERROR"
  | .trace => "TRACE"

/-- A time of day, each figure with two digits. -/
def timeText (hour minute second : Nat) : String :=
  let figure (n : Nat) := if n < 10 then "0" ++ toString n else toString n
  figure hour ++ ":" ++ figure minute ++ ":" ++ figure second

/-- A line as it goes to the sink, without its end. -/
def line (time : String) (level : Level) (text : String) : String :=
  "[" ++ time ++ "] " ++ level.text ++ " " ++ text

inductive Sink where
  | standardError
  | custom
  deriving DecidableEq

/-- What a sink is given for a line: the standard error stream gets the line end too. -/
def Sink.written (line : String) : Sink → String
  | .standardError => line ++ "\n"
  | .custom => line

end Log

structure Logger where
  tracing : Bool := false
  sink : Log.Sink := .standardError

namespace Logger

/-- The line that a logger writes for a message, if it writes one. A message that is not written
is never put into words. -/
def line? (l : Logger) (time : String) (level : Log.Level) (parts : List Log.Part) :
    Except Log.NoPlainForm (Option String) :=
  if level = .error ∨ l.tracing then
    match Log.joined? parts with
    | some text => .ok (some (Log.line time level text))
    | none => .error ⟨⟩
  else .ok none

def setTracing (l : Logger) (enabled : Json) : Logger :=
  { l with tracing := enabled.countsAsYes }

end Logger
end CallCost
