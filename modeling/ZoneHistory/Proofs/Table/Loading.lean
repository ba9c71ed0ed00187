import ZoneHistory.Loading
import ZoneHistory.Proofs.Table.History

/-!
# What loading enters

Loading a table carries out operations, first all zones that could be made and
then all aliases (`Load.operations`), so a loaded table has a history like any
other (`table_build`) and is well formed. Each of its zones comes from an item of
the source (`mem_zones_build`).
-/

namespace ZoneHistory

namespace Load

/-- The operations that are carried out when zones and links are loaded. -/
def operations (zones : List (String × Except ZoneError Zone)) (links : List (String × String)) :
    List Table.Operation :=
  zones.filterMap (fun p => p.2.toOption.map .insert) ++ links.map fun p => .link p.1 p.2

theorem table_record_enter (l : Load) (name : String) (op : Table.Operation) :
    (l.record name (l.table.enter op)).table = l.table.after [op] := by
  rw [Table.after]
  cases l.table.enter op with
  | error e => rfl
  | ok t => rfl

theorem table_enterZone_ok (l : Load) (name : String) (z : Zone) :
    (l.enterZone name (.ok z)).table = l.table.after [.insert z] :=
  l.table_record_enter name (.insert z)

theorem table_enterLink (l : Load) (name target : String) :
    (l.enterLink name target).table = l.table.after [.link name target] :=
  l.table_record_enter name (.link name target)

theorem table_foldl_enterZone (zones : List (String × Except ZoneError Zone)) (l : Load) :
    (zones.foldl (fun l p => l.enterZone p.1 p.2) l).table =
      l.table.after (zones.filterMap fun p => p.2.toOption.map .insert) := by
  induction zones generalizing l with
  | nil => rfl
  | cons p zones ih =>
      obtain ⟨name, zone⟩ := p
      rw [List.foldl_cons, ih]
      cases zone with
      | error e => rfl
      | ok z =>
          rw [table_enterZone_ok, ← Table.after_append]
          rfl

theorem table_foldl_enterLink (links : List (String × String)) (l : Load) :
    (links.foldl (fun l p => l.enterLink p.1 p.2) l).table =
      l.table.after (links.map fun p => .link p.1 p.2) := by
  induction links generalizing l with
  | nil => rfl
  | cons p links ih =>
      rw [List.foldl_cons, ih, table_enterLink, ← Table.after_append]
      rfl

theorem table_build (zones : List (String × Except ZoneError Zone))
    (links : List (String × String)) :
    (build zones links).table = Table.empty.after (operations zones links) := by
  rw [build, table_foldl_enterLink, table_foldl_enterZone, ← Table.after_append]
  rfl

theorem insert_mem_operations_iff {zones : List (String × Except ZoneError Zone)}
    {links : List (String × String)} {z : Zone} :
    .insert z ∈ operations zones links ↔ ∃ p ∈ zones, p.2 = .ok z := by
  rw [operations, List.mem_append, List.mem_filterMap]
  constructor
  · rintro (⟨⟨name, zone⟩, hp, hzone⟩ | hlink)
    · refine ⟨_, hp, ?_⟩
      cases zone with
      | error e => cases hzone
      | ok y => cases hzone; rfl
    · obtain ⟨p, -, h⟩ := List.mem_map.mp hlink
      cases h
  · rintro ⟨p, hp, hzone⟩
    exact Or.inl ⟨p, hp, by rw [hzone]; rfl⟩

variable {zones : List (String × Except ZoneError Zone)} {links : List (String × String)}

theorem wellFormed_build (h : ∀ p ∈ zones, ∀ z, p.2 = .ok z → z.Accepted) :
    (build zones links).table.WellFormed := by
  rw [table_build]
  refine Table.wellFormed_after fun op hop z hz => ?_
  obtain ⟨p, hp, hok⟩ := insert_mem_operations_iff.mp (hz ▸ hop)
  exact h p hp z hok

theorem mem_zones_build {z : Zone} (h : z ∈ (build zones links).table.zones) :
    ∃ p ∈ zones, p.2 = .ok z := by
  rw [table_build] at h
  exact insert_mem_operations_iff.mp (Table.insert_mem_of_mem_zones_after h)

end Load

end ZoneHistory
