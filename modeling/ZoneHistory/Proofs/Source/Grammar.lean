import ZoneHistory.Proofs.Text.Numerals
import ZoneHistory.Proofs.Text.Pieces
import ZoneHistory.Source.Document

/-!
# The grammar of source text

How the parts of a source are written, from the columns of a line up to the whole text,
and which values can be written at all. None of it mentions a parser.

A column is spelled in characters (`Amount.Spelled`, `DaySelector.Spelled` and so on).
The columns of an entry (`Entry.Columns`) stand in a line with blanks between them,
and a comment may follow. A document is written in lines (`Document.Lines`): each zone
as a header and its further lines, each link as a line, and blank lines anywhere.

`Document.WellFormed` says which documents there are: names fit into a column, numbers
lie in their ranges, and each line of a zone says when it ends, apart from the last.
-/

namespace ZoneHistory.Source

open Calendar Text

/-! ## Amounts -/

namespace Amount

/-- Hours fit into a signed byte, and only a minus sign in front of the amount leaves room for
one of their own. -/
structure WellFormed (a : Amount) : Prop where
  hour : -128 ≤ a.hour ∧ a.hour ≤ 127
  positive : a.negative = false → 0 ≤ a.hour
  minute : a.minute < 60
  second : a.second < 60

/-- Hours, and then minutes and seconds, each after a colon. What is left out is zero. -/
inductive Size (hour : Int) : Nat → Nat → List Char → Prop
  | hour {hs : List Char} : Signed hour hs → Size hour 0 0 hs
  | minute {minute : Nat} {hs ms : List Char} : Signed hour hs → Signed minute ms →
      Size hour minute 0 (hs ++ ':' :: ms)
  | second {minute second : Nat} {hs ms ss : List Char} : Signed hour hs → Signed minute ms →
      Signed second ss → Size hour minute second (hs ++ ':' :: (ms ++ ':' :: ss))

/-- A minus sign in front belongs to the amount; a second one is that of the hours. -/
inductive Spelled : Amount → List Char → Prop
  | positive {hour : Int} {minute second : Nat} {cs : List Char} : Size hour minute second cs →
      cs.head? ≠ some '-' → Spelled ⟨false, hour, minute, second⟩ cs
  | negative {hour : Int} {minute second : Nat} {cs : List Char} : Size hour minute second cs →
      Spelled ⟨true, hour, minute, second⟩ ('-' :: cs)

end Amount

/-- A digit comes first, apart from minus signs. -/
def StartsNumeric (cs : List Char) : Prop :=
  ∃ (signs : Nat) (c : Char) (rest : List Char),
    cs = List.replicate signs '-' ++ c :: rest ∧ c.isDigit = true

/-- A daylight saving amount, in which no plus sign comes first. -/
inductive SpelledSaving : Option Amount → List Char → Prop
  | none : SpelledSaving none ['-']
  | amount {a : Amount} {cs : List Char} : a.Spelled cs → StartsNumeric cs →
      SpelledSaving (some a) cs

/-! ## Abbreviations -/

namespace Designation

/-- What stands in a column decides the kind of a designation: `%s`, then `%z`, then the first
slash. -/
inductive Spelled : Designation → List Char → Prop
  | lettered {text : String} : "%s".toList <:+: text.toList → Spelled (lettered text) text.toList
  | numeric {cs : List Char} : ¬"%s".toList <:+: cs → "%z".toList <:+: cs → Spelled numeric cs
  | pair {standard daylight : String} {cs : List Char} :
      cs = standard.toList ++ '/' :: daylight.toList → '/' ∉ standard.toList →
      ¬"%s".toList <:+: cs → ¬"%z".toList <:+: cs → Spelled (pair standard daylight) cs
  | plain {text : String} : '/' ∉ text.toList → ¬"%s".toList <:+: text.toList →
      ¬"%z".toList <:+: text.toList → Spelled (plain text) text.toList

/-- Some column spells the designation. -/
def WellFormed (d : Designation) : Prop :=
  ∃ cs, IsWord isBlank cs ∧ '#' ∉ cs ∧ d.Spelled cs

end Designation

/-! ## Ends -/

inductive SpelledWeekday : Weekday → List Char → Prop
  | abbreviation {w : Weekday} : SpelledWeekday w w.abbreviation.toList
  | tues : SpelledWeekday .tuesday "Tues".toList
  | thurs : SpelledWeekday .thursday "Thurs".toList

inductive DaySelector.Spelled : DaySelector → List Char → Prop
  | last {w : Weekday} {cs : List Char} : SpelledWeekday w cs →
      Spelled (.last w) ("last".toList ++ cs)
  | onOrAfter {w : Weekday} {d : Nat} {cs ds : List Char} : SpelledWeekday w cs → Unsigned d ds →
      Spelled (.onOrAfter w d) (cs ++ (">=".toList ++ ds))
  | onOrBefore {w : Weekday} {d : Nat} {cs ds : List Char} : SpelledWeekday w cs → Unsigned d ds →
      Spelled (.onOrBefore w d) (cs ++ ("<=".toList ++ ds))
  | day {d : Nat} {ds : List Char} : Unsigned d ds → Spelled (.day d) ds

/-- The clocks and their letters. -/
def clockLetters : List (Clock × Char) :=
  [(.wall, 'w'), (.standard, 's'), (.universal, 'u'), (.universal, 'g'), (.universal, 'z')]

/-- The last letter of a time names its clock; without one it is the wall clock. -/
inductive ClockTime.Spelled : ClockTime → List Char → Prop
  | wall {a : Amount} {cs : List Char} : a.Spelled cs → Spelled ⟨.wall, a⟩ cs
  | named {clock : Clock} {letter : Char} {a : Amount} {cs : List Char} :
      (clock, letter) ∈ clockLetters → a.Spelled cs → Spelled ⟨clock, a⟩ (cs ++ [letter])

/-- What a column spells, or the default if the column is left out. -/
def Given {α : Type} (R : α → List Char → Prop) (default a : α) : Option (List Char) → Prop
  | none => a = default
  | some cs => R a cs

/-- The year and at most three further columns. -/
structure Until.Columns (u : Until) (year : List Char) (rest : List (List Char)) : Prop where
  year : Signed u.year year
  month : Given (fun m cs => cs = m.abbreviation.toList) .january u.month rest[0]?
  day : Given DaySelector.Spelled (.day 1) u.day rest[1]?
  time : Given ClockTime.Spelled .midnight u.time rest[2]?
  length : rest.length ≤ 3

/-! ## Entries -/

/-- The columns from the fourth one on: none, or those of an end. -/
inductive EndColumns : Option Until → List (List Char) → Prop
  | none : EndColumns none []
  | some {u : Until} {year : List Char} {rest : List (List Char)} : u.Columns year rest →
      EndColumns (some u) (year :: rest)

namespace Entry

inductive Columns (e : Entry) : List (List Char) → Prop
  | mk {standard saving designation : List Char} {ends : List (List Char)} :
      e.standard.Spelled standard → SpelledSaving e.saving saving →
      e.designation.Spelled designation → EndColumns e.ends ends →
      Columns e (standard :: saving :: designation :: ends)

structure WellFormed (e : Entry) : Prop where
  standard : e.standard.WellFormed
  saving : ∀ a, e.saving = some a → a.WellFormed
  designation : e.designation.WellFormed
  ends : ∀ u, e.ends = some u → u.Valid ∧ u.time.amount.WellFormed

end Entry

/-! ## Lines -/

/-- A line is its content and perhaps a comment from the first number sign on. -/
inductive Commented : List Char → List Char → Prop
  | bare {content : List Char} : '#' ∉ content → Commented content content
  | comment {content text : List Char} : '#' ∉ content →
      Commented content (content ++ '#' :: text)

def BlankLine (line : List Char) : Prop :=
  ∃ content, Commented content line ∧ IsGap isBlank content

/-- A further line of a zone. -/
def EntryLine (e : Entry) (line : List Char) : Prop :=
  ∃ content, Commented content line ∧ ∃ columns, Spaced isBlank columns content ∧ e.Columns columns

/-- The first line of a zone. Up to the identifier, the gaps are made of ASCII blanks. -/
inductive HeaderLine (identifier : String) (e : Entry) : List Char → Prop
  | mk {lead gap rest line : List Char} {columns : List (List Char)} :
      IsGap isAsciiBlank lead → gap ≠ [] → IsGap isAsciiBlank gap →
      IsWord isAsciiBlank identifier.toList → Detached isAsciiBlank rest →
      Spaced isBlank columns rest → e.Columns columns →
      Commented (lead ++ ("Zone".toList ++ (gap ++ (identifier.toList ++ rest)))) line →
      HeaderLine identifier e line

/-- A line with a link. Columns after the name are of no interest. -/
def LinkLine (name target : String) (line : List Char) : Prop :=
  ∃ content, Commented content line ∧
    ∃ extra, Spaced isBlank ("Link".toList :: target.toList :: name.toList :: extra) content

/-! ## Zones and documents -/

/-- There is a last entry, which has no end, and all others have one. -/
def Terminated (entries : List Entry) : Prop :=
  (∀ e ∈ entries.dropLast, e.ends ≠ none) ∧ ∃ e, entries.getLast? = some e ∧ e.ends = none

structure ZoneBlock.WellFormed (b : ZoneBlock) : Prop where
  identifier : IsWord isAsciiBlank b.identifier.toList ∧ '#' ∉ b.identifier.toList
  entries : ∀ e ∈ b.entries, e.WellFormed
  terminated : Terminated b.entries

/-- The entries stand on further lines of a zone, in order and perhaps with blank lines. -/
inductive EntryLines : List Entry → List (List Char) → Prop
  | nil : EntryLines [] []
  | blank {es : List Entry} {line : List Char} {lines : List (List Char)} : BlankLine line →
      EntryLines es lines → EntryLines es (line :: lines)
  | entry {e : Entry} {es : List Entry} {line : List Char} {lines : List (List Char)} :
      EntryLine e line → EntryLines es lines → EntryLines (e :: es) (line :: lines)

namespace Document

/-- A name of a link is a column. -/
def IsName (s : String) : Prop :=
  IsWord isBlank s.toList ∧ '#' ∉ s.toList

structure WellFormed (d : Document) : Prop where
  zones : ∀ b ∈ d.zones, b.WellFormed
  links : ∀ link ∈ d.links, IsName link.1 ∧ IsName link.2

/-- The lines hold the zones and the links, each in their order. -/
inductive Lines : List ZoneBlock → List (String × String) → List (List Char) → Prop
  | nil : Lines [] [] []
  | blank {zones : List ZoneBlock} {links : List (String × String)} {line : List Char}
      {lines : List (List Char)} : BlankLine line → Lines zones links lines →
      Lines zones links (line :: lines)
  | zone {zones : List ZoneBlock} {links : List (String × String)} {identifier : String}
      {e : Entry} {es : List Entry} {line : List Char} {further lines : List (List Char)} :
      HeaderLine identifier e line → EntryLines es further → Lines zones links lines →
      Lines (⟨identifier, e :: es⟩ :: zones) links (line :: (further ++ lines))
  | link {zones : List ZoneBlock} {links : List (String × String)} {name target : String}
      {line : List Char} {lines : List (List Char)} : LinkLine name target line →
      Lines zones links lines → Lines zones ((name, target) :: links) (line :: lines)

/-- The text is a way to write the document. -/
def Written (d : Document) (text : String) : Prop :=
  ∃ lines, Lined lines text.toList ∧ Lines d.zones d.links lines

end Document

end ZoneHistory.Source
