import ZoneHistory.Text.Blank

/-!
# Cutting a text into pieces

`pieces` cuts a list of characters at every separator and keeps empty pieces;
`words` drops them, which gives the maximal runs between separators; `lines`
ends a piece at a line feed, with the carriage return before it if there is
one. `splitAt?` cuts once, at the first occurrence of a pattern.

All of them work on `List Char`; the functions on `String` at the end are the
ones that other modules call.
-/

namespace ZoneHistory.Text

/-! ## Pieces and words -/

/-- The piece before the first separator, and the pieces after each separator. -/
def cut (separates : Char → Bool) (cs : List Char) : List Char × List (List Char) :=
  cs.foldr (fun c p => if separates c then ([], p.1 :: p.2) else (c :: p.1, p.2)) ([], [])

/-- All pieces between separators, empty ones included; there is always one more than separators. -/
def pieces (separates : Char → Bool) (cs : List Char) : List (List Char) :=
  (cut separates cs).1 :: (cut separates cs).2

/-- The maximal runs of characters that are no separators. -/
def words (separates : Char → Bool) (cs : List Char) : List (List Char) :=
  (pieces separates cs).filter (!·.isEmpty)

/-! ## Lines -/

/-- A line without the carriage return that stood before its line feed. -/
def dropReturn (line : List Char) : List Char :=
  if line.getLast? = some '\r' then line.dropLast else line

/-- The lines of a text. Each ends at a line feed or at a carriage return and a
line feed; what follows the last line feed is a line too unless it is empty, and
keeps a carriage return at its end. -/
def linesOf (cs : List Char) : List (List Char) :=
  let ps := pieces (· == '\n') cs
  let ended := ps.dropLast.map dropReturn
  match ps.getLast? with
  | none | some [] => ended
  | some rest => ended ++ [rest]

/-! ## One cut -/

/-- What stands before and after the first occurrence of `pattern`. -/
def splitAt? (pattern : List Char) : List Char → Option (List Char × List Char)
  | [] => if pattern.isEmpty then some ([], []) else none
  | c :: cs =>
    if pattern.isPrefixOf (c :: cs) then some ([], (c :: cs).drop pattern.length)
    else (splitAt? pattern cs).map fun p => (c :: p.1, p.2)

def occurs (pattern cs : List Char) : Bool :=
  (splitAt? pattern cs).isSome

/-! ## On strings -/

/-- The columns of a text: the runs between Unicode blanks. -/
def columns (s : String) : List String :=
  (words isBlank s.toList).map String.ofList

/-- The columns of a text, where only the ASCII blanks separate. -/
def asciiColumns (s : String) : List String :=
  (words isAsciiBlank s.toList).map String.ofList

def lines (s : String) : List String :=
  (linesOf s.toList).map String.ofList

/-- The strings in order, with one space between any two. -/
def joinBySpace (ss : List String) : String :=
  String.intercalate " " ss

/-- The two parts of a text around the first occurrence of `pattern`. -/
def splitOnce? (pattern s : String) : Option (String × String) :=
  (splitAt? pattern.toList s.toList).map fun p => (String.ofList p.1, String.ofList p.2)

def contains (pattern s : String) : Bool :=
  occurs pattern.toList s.toList

/-- What follows `lead` at the start of `s`. -/
def after? (lead s : String) : Option String :=
  if lead.toList.isPrefixOf s.toList then some (String.ofList (s.toList.drop lead.length)) else none

/-- What stands before the character `final` at the end of `s`. -/
def before? (final : Char) (s : String) : Option String :=
  if s.toList.getLast? = some final then some (String.ofList s.toList.dropLast) else none

end ZoneHistory.Text
