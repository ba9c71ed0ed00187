import ZoneHistory.Proofs.Dictionary
import ZoneHistory.Proofs.Zone.History
import ZoneHistory.Table

/-!
# The history of a table

A table comes about by `Operation`s, each of which enters a zone or an alias. One
that fails leaves the table as it is (`Table.after`); `Table.entered` keeps those
that succeed.

What one operation preserves (`WellFormed.enter`), every history does
(`wellFormed_after`): identifiers are distinct, no alias is an identifier and the
aliases ascend. The table knows of its history only the zones entered, in order,
and which aliases were entered with which targets (`zones_after`,
`get?_links_after`), so the order of the aliases leaves no trace in it
(`after_eq_of_perm`).
-/

namespace ZoneHistory

namespace Table

/-! ## Operations -/

/-- A zone or an alias to be entered into a table. -/
inductive Operation where
  | insert (z : Zone)
  | link (name target : String)

namespace Operation

def zone? : Operation → Option Zone
  | insert z => some z
  | link _ _ => none

def link? : Operation → Option (String × String)
  | insert _ => none
  | link name target => some (name, target)

/-- A zone to be entered was made from accepted regimes. -/
def Accepted (op : Operation) : Prop :=
  ∀ z, op = insert z → z.Accepted

end Operation

def enter (t : Table) : Operation → Except ZoneError Table
  | .insert z => t.insert z
  | .link name target => t.link name target

/-- The table after some operations, of which those that fail leave it as it is. -/
def after (t : Table) : List Operation → Table
  | [] => t
  | op :: rest =>
    match t.enter op with
    | .ok t' => t'.after rest
    | .error _ => t.after rest

/-- The operations that succeed when all are carried out in order. -/
def entered (t : Table) : List Operation → List Operation
  | [] => []
  | op :: rest =>
    match t.enter op with
    | .ok t' => op :: t'.entered rest
    | .error _ => t.entered rest

def zonesOf (ops : List Operation) : List Zone :=
  ops.filterMap Operation.zone?

def linksOf (ops : List Operation) : List (String × String) :=
  ops.filterMap Operation.link?

theorem after_append (t : Table) (ops ops' : List Operation) :
    t.after (ops ++ ops') = (t.after ops).after ops' := by
  induction ops generalizing t with
  | nil => rfl
  | cons op ops ih =>
      rw [List.cons_append, after, after]
      cases t.enter op with
      | error e => exact ih t
      | ok t' => exact ih t'

/-! ## Names -/

theorem find?_eq_none_iff {t : Table} {name : String} :
    t.find? name = none ↔ ∀ z ∈ t.zones, z.identifier ≠ name := by
  simp [find?, List.find?_eq_none]

theorem contains_eq_false_iff {t : Table} {name : String} :
    t.contains name = false ↔
      (∀ z ∈ t.zones, z.identifier ≠ name) ∧ t.links.get? name = none := by
  rw [contains, Bool.or_eq_false_iff, Dictionary.hasKey_eq_isSome_get?, Option.isSome_eq_false_iff,
    Option.isNone_iff_eq_none, Option.isSome_eq_false_iff, Option.isNone_iff_eq_none,
    find?_eq_none_iff]

/-- The zones are accepted and have names of their own, which no alias has either. -/
structure WellFormed (t : Table) : Prop where
  accepted : ∀ z ∈ t.zones, z.Accepted
  distinct : t.zones.Pairwise fun a b => a.identifier ≠ b.identifier
  ascending : t.links.Ascending
  disjoint : ∀ z ∈ t.zones, t.links.get? z.identifier = none

theorem wellFormed_empty : WellFormed empty :=
  ⟨nofun, List.Pairwise.nil, Dictionary.Ascending.nil, nofun⟩

theorem WellFormed.insert {t t' : Table} (h : t.WellFormed) {z : Zone} (hz : z.Accepted)
    (hok : t.insert z = .ok t') : t'.WellFormed := by
  obtain ⟨hfree, rfl⟩ := insert_eq_ok_iff.mp hok
  obtain ⟨hzones, hlinks⟩ := contains_eq_false_iff.mp hfree
  refine ⟨fun y hy => ?_, List.pairwise_append.mpr ⟨h.distinct, List.pairwise_singleton _ _, ?_⟩,
    h.ascending, fun y hy => ?_⟩
  · rcases List.mem_append.mp hy with hy | hy
    · exact h.accepted y hy
    · exact List.mem_singleton.mp hy ▸ hz
  · intro y hy x hx
    exact List.mem_singleton.mp hx ▸ hzones y hy
  · rcases List.mem_append.mp hy with hy | hy
    · exact h.disjoint y hy
    · exact List.mem_singleton.mp hy ▸ hlinks

theorem WellFormed.link {t t' : Table} (h : t.WellFormed) {name target : String}
    (hok : t.link name target = .ok t') : t'.WellFormed := by
  obtain ⟨hfree, rfl⟩ := link_eq_ok_iff.mp hok
  obtain ⟨hzones, -⟩ := contains_eq_false_iff.mp hfree
  refine ⟨h.accepted, h.distinct, h.ascending.insert name target, fun z hz => ?_⟩
  rw [Dictionary.get?_insert_of_ne (hzones z hz)]
  exact h.disjoint z hz

/-- Each zone is found under its identifier if no two zones share one. -/
theorem find?_identifier {t : Table}
    (h : t.zones.Pairwise fun a b => a.identifier ≠ b.identifier) {z : Zone} (hz : z ∈ t.zones) :
    t.find? z.identifier = some z := by
  obtain ⟨before, after, heq⟩ := List.mem_iff_append.mp hz
  rw [heq] at h
  refine List.find?_eq_some_iff_append.mpr ⟨decide_eq_true rfl, before, after, heq, ?_⟩
  intro y hy
  simpa using (List.pairwise_append.mp h).2.2 y hy z List.mem_cons_self

theorem WellFormed.zone_identifier {t : Table} (h : t.WellFormed) {z : Zone} (hz : z ∈ t.zones) :
    t.zone z.identifier = .ok z := by
  have hfind := find?_identifier h.distinct hz
  simp only [zone, resolve, hfind, Option.bind_some]

theorem WellFormed.enter {t t' : Table} (h : t.WellFormed) {op : Operation} (hop : op.Accepted)
    (hok : t.enter op = .ok t') : t'.WellFormed := by
  cases op with
  | insert z => exact h.insert (hop z rfl) hok
  | link name target => exact h.link hok

theorem WellFormed.after : ∀ {t : Table}, t.WellFormed → ∀ {ops : List Operation},
    (∀ op ∈ ops, op.Accepted) → (t.after ops).WellFormed
  | t, h, [], _ => h
  | t, h, op :: rest, hops => by
      have hrest : ∀ op ∈ rest, op.Accepted := fun o ho => hops o (List.mem_cons_of_mem _ ho)
      rw [Table.after]
      split
      next t' hok => exact (h.enter (hops op List.mem_cons_self) hok).after hrest
      next => exact h.after hrest

theorem wellFormed_after {ops : List Operation} (h : ∀ op ∈ ops, op.Accepted) :
    (empty.after ops).WellFormed :=
  wellFormed_empty.after h

/-! ## What a table keeps of its history -/

theorem zones_enter {t t' : Table} {op : Operation} (h : t.enter op = .ok t') :
    t'.zones = t.zones ++ zonesOf [op] := by
  cases op with
  | insert z =>
      obtain ⟨-, rfl⟩ := insert_eq_ok_iff.mp h
      rfl
  | link name target =>
      obtain ⟨-, rfl⟩ := link_eq_ok_iff.mp h
      exact (List.append_nil t.zones).symm

theorem zones_after : ∀ (t : Table) (ops : List Operation),
    (t.after ops).zones = t.zones ++ zonesOf (t.entered ops)
  | t, [] => (List.append_nil t.zones).symm
  | t, op :: rest => by
      rw [after, entered]
      cases h : t.enter op with
      | error e => exact zones_after t rest
      | ok t' =>
          have hsplit :
              zonesOf (op :: t'.entered rest) = zonesOf [op] ++ zonesOf (t'.entered rest) :=
            List.filterMap_append (l := [op])
          rw [zones_after t' rest, zones_enter h, hsplit, List.append_assoc]

theorem entered_sublist : ∀ (t : Table) (ops : List Operation), (t.entered ops).Sublist ops
  | _, [] => List.Sublist.slnil
  | t, op :: rest => by
      rw [entered]
      split
      next t' _ => exact (entered_sublist t' rest).cons_cons op
      next => exact (entered_sublist t rest).cons op

/-- A zone of a table was entered into it. -/
theorem insert_mem_of_mem_zones_after {ops : List Operation} {z : Zone}
    (h : z ∈ (empty.after ops).zones) : Operation.insert z ∈ ops := by
  rw [zones_after] at h
  obtain ⟨op, hop, hzone⟩ := List.mem_filterMap.mp h
  cases op with
  | insert z' =>
      obtain rfl := Option.some.inj hzone
      exact (entered_sublist empty ops).subset hop
  | link name target => cases hzone

theorem get?_links_enter {t t' : Table} {op : Operation} (h : t.enter op = .ok t')
    (name target : String) :
    t'.links.get? name = some target ↔
      t.links.get? name = some target ∨ (name, target) ∈ linksOf [op] := by
  cases op with
  | insert z =>
      obtain ⟨-, rfl⟩ := insert_eq_ok_iff.mp h
      simp [linksOf, Operation.link?]
  | link name' target' =>
      obtain ⟨hfree, rfl⟩ := link_eq_ok_iff.mp h
      obtain ⟨-, hnone⟩ := contains_eq_false_iff.mp hfree
      by_cases heq : name = name'
      · subst heq
        simp [Dictionary.get?_insert_self, hnone, linksOf, Operation.link?, eq_comm]
      · simp [Dictionary.get?_insert_of_ne heq, heq, linksOf, Operation.link?]

theorem get?_links_after (name target : String) : ∀ (t : Table) (ops : List Operation),
    (t.after ops).links.get? name = some target ↔
      t.links.get? name = some target ∨ (name, target) ∈ linksOf (t.entered ops)
  | t, [] => by simp [after, entered, linksOf]
  | t, op :: rest => by
      rw [after, entered]
      cases h : t.enter op with
      | error e => exact get?_links_after name target t rest
      | ok t' =>
          have hsplit :
              linksOf (op :: t'.entered rest) = linksOf [op] ++ linksOf (t'.entered rest) :=
            List.filterMap_append (l := [op])
          rw [get?_links_after name target t' rest, get?_links_enter h, hsplit, List.mem_append,
            or_assoc]

/-- Histories that enter the same zones in the same order, and the same aliases in any order and
at any point, lead to the same table. -/
theorem after_eq_of_perm {ops ops' : List Operation} (hops : ∀ op ∈ ops, op.Accepted)
    (hops' : ∀ op ∈ ops', op.Accepted)
    (hzones : zonesOf (empty.entered ops') = zonesOf (empty.entered ops))
    (hlinks : (linksOf (empty.entered ops')).Perm (linksOf (empty.entered ops))) :
    empty.after ops' = empty.after ops := by
  have hlinks : (empty.after ops').links = (empty.after ops).links := by
    refine (wellFormed_after hops').ascending.ext (wellFormed_after hops).ascending fun name => ?_
    refine Option.ext fun target => ?_
    rw [get?_links_after, get?_links_after, hlinks.mem_iff]
  have hzones : (empty.after ops').zones = (empty.after ops).zones := by
    rw [zones_after, zones_after, hzones]
  calc empty.after ops' = ⟨(empty.after ops').zones, (empty.after ops').links⟩ := rfl
    _ = ⟨(empty.after ops).zones, (empty.after ops).links⟩ := by rw [hzones, hlinks]

end Table

end ZoneHistory
