/-!
# Months by name

The twelve months with their numbers and the three letter names under which zone
sources give them.
-/

namespace ZoneHistory.Calendar

inductive Month where
  | january
  | february
  | march
  | april
  | may
  | june
  | july
  | august
  | september
  | october
  | november
  | december
  deriving DecidableEq, Repr

namespace Month

def all : List Month :=
  [january, february, march, april, may, june, july, august, september, october, november,
    december]

/-- The number of a month, from 1 for January. -/
def number : Month → Nat
  | january => 1
  | february => 2
  | march => 3
  | april => 4
  | may => 5
  | june => 6
  | july => 7
  | august => 8
  | september => 9
  | october => 10
  | november => 11
  | december => 12

/-- The first three letters of the English name. -/
def abbreviation : Month → String
  | january => "Jan"
  | february => "Feb"
  | march => "Mar"
  | april => "Apr"
  | may => "May"
  | june => "Jun"
  | july => "Jul"
  | august => "Aug"
  | september => "Sep"
  | october => "Oct"
  | november => "Nov"
  | december => "Dec"

/-- The month with a three letter name. -/
def ofAbbreviation? (s : String) : Option Month :=
  all.find? fun m => s == m.abbreviation

theorem ofAbbreviation?_abbreviation (m : Month) : ofAbbreviation? m.abbreviation = some m := by
  cases m <;> decide

end Month

end ZoneHistory.Calendar
