import ZoneHistory.Offset
import ZoneHistory.Source.Context
import ZoneHistory.Text.Pieces

/-!
# How a line gives its abbreviation

An abbreviation is given as such, or as a pair for standard and daylight saving
time, or as `%z` for the offset itself, or with `%s` where a set of rules would
put a letter. There are no such sets, so `%s` stands for nothing.
-/

namespace ZoneHistory.Source

inductive Designation where
  /-- The abbreviation itself. -/
  | plain (text : String)
  /-- The offset in digits. -/
  | numeric
  /-- One abbreviation for standard time and one for daylight saving time. -/
  | pair (standard daylight : String)
  /-- An abbreviation with places for a letter. -/
  | lettered (text : String)
  deriving DecidableEq, Repr

namespace Designation

/-- The characters without any `%s`. -/
def withoutLetters : List Char → List Char
  | '%' :: 's' :: rest => withoutLetters rest
  | c :: rest => c :: withoutLetters rest
  | [] => []

/-- The abbreviation for an offset. -/
def abbreviation (total : Offset) (daylight : Bool) : Designation → String
  | plain text => text
  | numeric => total.numericText
  | pair standardText daylightText => if daylight then daylightText else standardText
  | lettered text => String.ofList (withoutLetters text.toList)

def ofText (s : String) : Designation :=
  if Text.contains "%s" s then lettered s
  else if Text.contains "%z" s then numeric
  else
    match Text.splitOnce? "/" s with
    | some (standard, daylight) => pair standard daylight
    | none => plain s

def parse (s : String) : Parse Designation :=
  .within "Abbr. Format" (return ofText s)

end Designation

end ZoneHistory.Source
