import ZoneHistory.Reading
import ZoneHistory.Regime

/-!
# Problems

Every way in which a conversion, a check or the reading of claims can fail, with
its kind and its wording.
-/

namespace ZoneHistory

/-- Why a question has no answer. -/
inductive Problem where
  /-- Fields do not make a date, a time or an offset. -/
  | field (e : FieldError)
  /-- A zone is unknown or malformed. -/
  | zone (e : ZoneError)
  /-- An instant is not valid. -/
  | instantOutOfRange
  /-- A reading belongs to an instant that is not valid. -/
  | readingOutOfRange
  /-- No instant has the reading and no transition skips it. -/
  | noSkippingTransition
  /-- A skipped reading is rejected. -/
  | readingInGap
  /-- A repeated reading is rejected. -/
  | readingAmbiguous
  /-- A text names no weekday. -/
  | weekdayName
  /-- A text names no way to disambiguate. -/
  | disambiguationName
  /-- The claim at `index` of a file about `zone` has fields that are out of range. -/
  | claim (zone : String) (index : Nat) (e : FieldError)
  /-- A text is not JSON of the expected form. -/
  | json
  /-- A file cannot be read. -/
  | file
  deriving DecidableEq, Repr

namespace Problem

def kind : Problem → Kind
  | field _ => .range
  | zone e => e.kind
  | instantOutOfRange | readingOutOfRange | readingInGap | readingAmbiguous => .range
  | noSkippingTransition => .internal
  | weekdayName | disambiguationName | claim _ _ _ | json => .parse
  | file => .general

def message : Problem → String
  | field e => e.message
  | zone e => e.message
  | instantOutOfRange => "Instant is outside the valid range."
  | readingOutOfRange => "Wall clock time is outside the representable range."
  | noSkippingTransition => "No transition skips the wall clock time."
  | readingInGap => "Wall clock time falls in a gap."
  | readingAmbiguous => "Wall clock time is ambiguous."
  | weekdayName => "Invalid weekday."
  | disambiguationName => "Invalid disambiguation option."
  | claim name index e => name ++ " vector " ++ Text.natural index ++ ": " ++ e.message
  | json => "the text is not JSON of the expected form"
  | file => "the file cannot be read"

def diagnosis (p : Problem) : Diagnosis :=
  ⟨p.kind, p.message⟩

end Problem

def Calendar.Weekday.parse (s : String) : Except Problem Calendar.Weekday :=
  match ofName? s with
  | some w => .ok w
  | none => .error .weekdayName

end ZoneHistory
