import ZoneHistory.Text.Blank

/-!
# Diagnoses

A `Diagnosis` is what a caller is told about a problem: its kind, and a message
that may be empty. `Diagnosis.text` is the one line form.
-/

namespace ZoneHistory

/-- The kinds of problems. -/
inductive Kind where
  | general
  | unknownZone
  | malformedTable
  | range
  | parse
  | internal
  deriving DecidableEq, Repr

/-- The name under which a kind is shown. -/
def Kind.name : Kind → String
  | .general => "Error"
  | .unknownZone => "UnknownZone"
  | .malformedTable => "MalformedRuleTable"
  | .range => "RangeError"
  | .parse => "ParseError"
  | .internal => "ImplementationError"

/-- A kind of problem with a message. -/
structure Diagnosis where
  kind : Kind
  message : String
  deriving DecidableEq, Repr

/-- The name of the kind, followed by the message without the blanks around it, if any is left. -/
def Diagnosis.text (d : Diagnosis) : String :=
  let message := Text.trim d.message
  if message.isEmpty then d.kind.name else d.kind.name ++ ": " ++ message

end ZoneHistory
