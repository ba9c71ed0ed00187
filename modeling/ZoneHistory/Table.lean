import ZoneHistory.Dictionary
import ZoneHistory.Zone

/-!
# Tables of zones

A `Table` holds zones in the order in which they came, and aliases for them. A
name belongs to whoever came first: `Table.insert` and `Table.link` refuse a name
that a zone or an alias has. An alias may point to a zone that is not there yet,
but never to another alias.
-/

namespace ZoneHistory

/-- Zones in order, and the target of each alias. -/
structure Table where
  zones : List Zone
  links : Dictionary String
  deriving DecidableEq, Repr

namespace Table

def empty : Table := ⟨[], []⟩

def find? (t : Table) (identifier : String) : Option Zone :=
  t.zones.find? (·.identifier = identifier)

/-- Whether a zone or an alias has the name. -/
def contains (t : Table) (name : String) : Bool :=
  (t.find? name).isSome || t.links.hasKey name

/-- The table with a further zone at its end. -/
def insert (t : Table) (z : Zone) : Except ZoneError Table :=
  if t.contains z.identifier then .error (.malformed z.identifier .duplicateName)
  else .ok { t with zones := t.zones ++ [z] }

/-- The table with a further alias. -/
def link (t : Table) (name target : String) : Except ZoneError Table :=
  if t.contains name then .error (.malformed name .duplicateName)
  else .ok { t with links := t.links.insert name target }

/-- A zone can be inserted exactly if its name is free, and it then stands after all others. -/
theorem insert_eq_ok_iff {t t' : Table} {z : Zone} :
    t.insert z = .ok t' ↔
      t.contains z.identifier = false ∧ t' = { t with zones := t.zones ++ [z] } := by
  unfold insert
  split
  next h => simp [h]
  next h =>
    simp only [Bool.not_eq_true] at h
    simp only [Except.ok.injEq, h, true_and]
    exact eq_comm

/-- An alias can be entered exactly if its name is free. -/
theorem link_eq_ok_iff {t t' : Table} {name target : String} :
    t.link name target = .ok t' ↔
      t.contains name = false ∧ t' = { t with links := t.links.insert name target } := by
  unfold link
  split
  next h => simp [h]
  next h =>
    simp only [Bool.not_eq_true] at h
    simp only [Except.ok.injEq, h, true_and]
    exact eq_comm

def ofZones (zones : List Zone) : Except ZoneError Table :=
  zones.foldlM insert empty

/-- The identifier of the zone that a name stands for: the name itself or the target of the
alias. -/
def resolve (t : Table) (name : String) : Option String :=
  match t.find? name with
  | some z => some z.identifier
  | none => do
    let target ← t.links.get? name
    let z ← t.find? target
    return z.identifier

/-- The zone that a name stands for. -/
def zone (t : Table) (name : String) : Except ZoneError Zone :=
  match (t.resolve name).bind t.find? with
  | some z => .ok z
  | none => .error (.unknown name)

/-- The regime in effect at an instant in the zone that a name stands for. -/
def regimeAt (t : Table) (name : String) (instant : Instant) : Except ZoneError Regime :=
  (t.zone name).map (·.regimeAt instant)

end Table

end ZoneHistory
