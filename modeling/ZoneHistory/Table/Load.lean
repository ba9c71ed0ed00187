import ZoneHistory.Table

/-!
# Loading a table

A source of zones may hold some that are malformed or named twice. A `Load` is
what comes of it: the table of those that could be entered, and every other one
with the reason. `Load.build` enters all zones in order and then all aliases in
order, whatever the source.
-/

namespace ZoneHistory

/-- A table and what could not be entered into it. -/
structure Load where
  table : Table
  rejected : List (String × ZoneError)
  deriving DecidableEq, Repr

namespace Load

def empty : Load := ⟨Table.empty, []⟩

/-- Takes the result of entering `name`: the new table or a rejection. -/
def record (l : Load) (name : String) : Except ZoneError Table → Load
  | .ok table => { l with table }
  | .error e => { l with rejected := l.rejected ++ [(name, e)] }

/-- Enters a zone, if it could be made. -/
def enterZone (l : Load) (name : String) (zone : Except ZoneError Zone) : Load :=
  l.record name (zone >>= l.table.insert)

def enterLink (l : Load) (name target : String) : Load :=
  l.record name (l.table.link name target)

/-- Enters the zones, then the aliases. Zones come with their names, aliases with their
targets. -/
def build (zones : List (String × Except ZoneError Zone)) (links : List (String × String)) : Load :=
  links.foldl (fun l p => l.enterLink p.1 p.2) (zones.foldl (fun l p => l.enterZone p.1 p.2) empty)

end Load

end ZoneHistory
