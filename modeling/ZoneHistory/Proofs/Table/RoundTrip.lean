import Mathlib.Data.List.Forall2
import ZoneHistory.Loading
import ZoneHistory.Proofs.Json.Records
import ZoneHistory.Proofs.Json.RoundTrip
import ZoneHistory.Proofs.Table.History

/-!
# Writing a table and loading it again

Main statement: whatever the history of a table, its JSON text loads without a
rejection and gives the table back, and the order in which aliases were entered does
not show in the text (`ofJson_toJson`).

Two steps make it up. The text is read back as the records that were written
(`TableRecords.read?_toValue_pretty`), because all numbers in them fit their ranges, and
these say what is in the table (`TableRecords.Describes`). The records then make the
table again (`TableRecords.load_ofTable`): each regime and zone passes its checks a
second time, and the zones can be entered before all aliases because no alias has the
name of a zone.
-/

namespace ZoneHistory

open Json

/-! ## Records that can be written -/

namespace RegimeRecord

/-- The numbers of the record are in the ranges that a reader accepts. -/
structure InRange (r : RegimeRecord) : Prop where
  start : ∀ ms, r.start = some ms → Text.IntegerRange.signed64.contains ms = true
  standard : Text.IntegerRange.signed32.contains r.standard = true
  saving : ∀ minutes, r.saving = some minutes → Text.IntegerRange.signed32.contains minutes = true

theorem ofValue?_toValue {r : RegimeRecord} (h : r.InRange) : ofValue? r.toValue = some r := by
  have hfields := fields?_record [
    ("effective_from", .intOrNull r.start), ("standard_offset", .int r.standard),
    ("dst_offset", .intOrNull r.saving), ("abbreviation", .text r.abbreviation)] (by simp)
  have hstart := Value.orNull?_intOrNull h.start
  have hstandard := Value.int?_int h.standard
  have hsaving := Value.orNull?_intOrNull h.saving
  have htext : (Value.text r.abbreviation).text? = some r.abbreviation := rfl
  simp only [List.map_cons, List.map_nil] at hfields
  rw [ofValue?, toValue, hfields]
  simp only [bind, Option.bind, pure, Option.getD_some, hstart, hstandard, hsaving, htext]

theorem inRange_of_ofValue? {v : Value} {r : RegimeRecord} (h : ofValue? v = some r) :
    r.InRange := by
  obtain ⟨fields, -, h⟩ := Option.bind_eq_some_iff.mp h
  split at h
  next start standard saving abbreviation =>
    obtain ⟨start, hstart, h⟩ := Option.bind_eq_some_iff.mp h
    obtain ⟨value, -, h⟩ := Option.bind_eq_some_iff.mp h
    obtain ⟨standard, hstandard, h⟩ := Option.bind_eq_some_iff.mp h
    obtain ⟨saving, hsaving, h⟩ := Option.bind_eq_some_iff.mp h
    obtain ⟨_, -, h⟩ := Option.bind_eq_some_iff.mp h
    obtain ⟨_, -, h⟩ := Option.bind_eq_some_iff.mp h
    cases h
    exact ⟨fun ms => Value.contains_of_orNull? hstart, Value.contains_of_int? hstandard,
      fun minutes => Value.contains_of_orNull? hsaving⟩
  next => cases h

theorem exact_toValue (r : RegimeRecord) : r.toValue.Exact := by
  have hnull (n : Option Int) : (Value.intOrNull n).Exact := by cases n <;> trivial
  rw [toValue, exact_record_iff]
  simp only [List.forall_mem_cons]
  exact ⟨hnull _, trivial, hnull _, trivial, nofun⟩

end RegimeRecord

namespace HistoryRecord

theorem ofValue?_toValue {e : HistoryRecord} (h : ∀ r ∈ e.regimes, r.InRange) :
    ofValue? e.toValue = some e := by
  have hfields := fields?_record [("identifier", .text e.identifier),
    ("regimes", .array (e.regimes.map RegimeRecord.toValue))] (by simp)
  have htext : (Value.text e.identifier).text? = some e.identifier := rfl
  have hregimes := Value.items?_map RegimeRecord.ofValue? _ fun r (hr : r ∈ e.regimes) =>
    RegimeRecord.ofValue?_toValue (h r hr)
  simp only [List.map_cons, List.map_nil] at hfields
  rw [ofValue?, toValue, hfields]
  simp only [bind, Option.bind, pure, htext, hregimes]

theorem inRange_of_ofValue? {v : Value} {e : HistoryRecord} (h : ofValue? v = some e) :
    ∀ r ∈ e.regimes, r.InRange := by
  obtain ⟨fields, -, h⟩ := Option.bind_eq_some_iff.mp h
  split at h
  next identifier regimes =>
    obtain ⟨_, -, h⟩ := Option.bind_eq_some_iff.mp h
    obtain ⟨_, -, h⟩ := Option.bind_eq_some_iff.mp h
    obtain ⟨_, -, h⟩ := Option.bind_eq_some_iff.mp h
    obtain ⟨regimes, hregimes, h⟩ := Option.bind_eq_some_iff.mp h
    cases h
    intro r hr
    obtain ⟨w, hw⟩ := Value.exists_of_mem_items? hregimes r hr
    exact RegimeRecord.inRange_of_ofValue? hw
  next => cases h

theorem exact_toValue (e : HistoryRecord) : e.toValue.Exact := by
  rw [toValue, exact_record_iff]
  simp only [List.forall_mem_cons]
  exact ⟨trivial, exact_array_map RegimeRecord.exact_toValue _, nofun⟩

end HistoryRecord

namespace TableRecords

/-- All numbers are in range, and the aliases ascend. -/
structure Writable (r : TableRecords) : Prop where
  inRange : ∀ e ∈ r.zones, ∀ g ∈ e.regimes, g.InRange
  ascending : r.links.Ascending

theorem ofValue?_toValue {r : TableRecords} (h : r.Writable) : ofValue? r.toValue = some r := by
  have hfields := fields?_record [
    ("zones", .array (r.zones.map HistoryRecord.toValue)),
    ("links", .record (r.links.map fun link => (link.1, .text link.2)))] (by simp)
  have hzones := Value.items?_map HistoryRecord.ofValue? _ fun e (he : e ∈ r.zones) =>
    HistoryRecord.ofValue?_toValue (h.inRange e he)
  have hlinks := Value.dictionary?_record Value.text? Value.text (fun _ => rfl) h.ascending
  simp only [List.map_cons, List.map_nil] at hfields
  rw [ofValue?, toValue, hfields]
  simp only [bind, Option.bind, pure, hzones, hlinks]

theorem exact_toValue (r : TableRecords) : r.toValue.Exact := by
  have hlinks : (Value.record (r.links.map fun link => (link.1, .text link.2))).Exact :=
    exact_record_iff.mpr (List.forall_mem_map.mpr fun _ _ => trivial)
  rw [toValue, exact_record_iff]
  simp only [List.forall_mem_cons]
  exact ⟨exact_array_map HistoryRecord.exact_toValue _, hlinks, nofun⟩

theorem read?_toValue_pretty {r : TableRecords} (h : r.Writable) :
    read? r.toValue.pretty = some r := by
  rw [read?, read?_pretty r.exact_toValue]
  exact ofValue?_toValue h

/-- Records that were read can be written again. -/
theorem writable_of_read? {text : String} {r : TableRecords} (h : read? text = some r) :
    r.Writable := by
  obtain ⟨v, -, h⟩ := Option.bind_eq_some_iff.mp h
  obtain ⟨fields, -, h⟩ := Option.bind_eq_some_iff.mp h
  split at h
  next zones links =>
    obtain ⟨_, -, h⟩ := Option.bind_eq_some_iff.mp h
    obtain ⟨zones, hzones, h⟩ := Option.bind_eq_some_iff.mp h
    have hparts : zones = r.zones ∧ r.links.Ascending := by
      dsimp only at h
      split at h
      · cases h
        exact ⟨rfl, .nil⟩
      · obtain ⟨links, hlinks, h⟩ := Option.bind_eq_some_iff.mp h
        cases h
        exact ⟨rfl, Value.ascending_of_dictionary? hlinks⟩
    obtain ⟨rfl, hascending⟩ := hparts
    refine ⟨fun e he => ?_, hascending⟩
    obtain ⟨w, hw⟩ := Value.exists_of_mem_items? hzones e he
    exact HistoryRecord.inRange_of_ofValue? hw
  next => cases h

end TableRecords

/-! ## What records say -/

/-- The record says what the regime is. One that is in effect from the beginning of time has no
start. -/
structure RegimeRecord.Describes (r : RegimeRecord) (g : Regime) : Prop where
  beginning : r.start = none ↔ g.start = Instant.beginning
  start : ∀ ms, r.start = some ms → g.start = ⟨ms⟩
  standard : r.standard = g.standard.minutes
  saving : Option.Rel (fun minutes o => minutes = o.minutes) r.saving g.saving
  abbreviation : r.abbreviation = g.abbreviation

structure HistoryRecord.Describes (e : HistoryRecord) (z : Zone) : Prop where
  identifier : e.identifier = z.identifier
  regimes : List.Forall₂ RegimeRecord.Describes e.regimes z.regimes

structure TableRecords.Describes (r : TableRecords) (t : Table) : Prop where
  zones : List.Forall₂ HistoryRecord.Describes r.zones t.zones
  links : r.links = t.links

theorem RegimeRecord.describes_ofRegime (g : Regime) : (ofRegime g).Describes g := by
  refine ⟨?_, fun ms h => ?_, rfl, ?_, rfl⟩
  · simp [ofRegime]
  · simp only [ofRegime] at h
    split at h
    · cases h
    · cases h
      rfl
  · simp only [ofRegime]
    cases g.saving with
    | none => exact .none
    | some o => exact .some rfl

theorem HistoryRecord.describes_ofZone (z : Zone) : (ofZone z).Describes z :=
  ⟨rfl, List.forall₂_map_left_iff.mpr (List.forall₂_same.mpr fun g _ =>
    RegimeRecord.describes_ofRegime g)⟩

theorem TableRecords.describes_ofTable (t : Table) : (ofTable t).Describes t :=
  ⟨List.forall₂_map_left_iff.mpr (List.forall₂_same.mpr fun z _ =>
    HistoryRecord.describes_ofZone z), rfl⟩

/-! ## From zones to records and back -/

theorem Regime.WellFormed.inRange_ofRegime {g : Regime} (hg : g.WellFormed) :
    (RegimeRecord.ofRegime g).InRange := by
  have hstandard := hg.standard
  have htotal := hg.total
  simp only [Offset.WithinDay, Offset.minutesPerDay] at hstandard htotal
  refine ⟨fun ms h => ?_, ?_, fun minutes h => ?_⟩
  · simp only [RegimeRecord.ofRegime] at h
    split at h
    · cases h
    next hstart =>
      have hvalid := hg.start.resolve_left hstart
      simp only [Instant.Valid, Instant.limitMs] at hvalid
      cases h
      refine Text.IntegerRange.contains_iff.mpr ?_
      simp only [Text.IntegerRange.signed64]
      omega
  · refine Text.IntegerRange.contains_iff.mpr ?_
    simp only [RegimeRecord.ofRegime, Text.IntegerRange.signed32]
    omega
  · simp only [RegimeRecord.ofRegime] at h
    cases hsaving : g.saving with
    | none => rw [hsaving] at h; cases h
    | some saving =>
        rw [hsaving] at h
        cases h
        simp only [Regime.total, Regime.savingOrZero, hsaving, Option.getD_some,
          Offset.minutes_add] at htotal
        refine Text.IntegerRange.contains_iff.mpr ?_
        simp only [Text.IntegerRange.signed32]
        omega

theorem RegimeRecord.toRegime_ofRegime {g : Regime} (hg : g.WellFormed) :
    (ofRegime g).toRegime = .ok g := by
  have hmake : Regime.make g.start g.standard g.saving g.abbreviation = .ok g :=
    Regime.make_eq_ok_iff.mpr ⟨rfl, hg⟩
  have hsaving : (g.saving.map (·.minutes)).map (fun minutes => (⟨minutes⟩ : Offset)) =
      g.saving := by
    cases g.saving <;> rfl
  by_cases h : g.start = Instant.beginning
  · simp only [toRegime, ofRegime, if_pos h, hsaving]
    rw [← h]
    exact hmake
  · simp only [toRegime, ofRegime, if_neg h, hsaving]
    exact hmake

theorem mapM_eq_ok {α β ε : Type} {f : α → Except ε β} :
    ∀ {l : List β} {g : β → α}, (∀ b ∈ l, f (g b) = .ok b) → (l.map g).mapM f = .ok l
  | [], _, _ => rfl
  | b :: l, g, h => by
      rw [List.map_cons, List.mapM_cons, h b List.mem_cons_self,
        mapM_eq_ok fun c hc => h c (List.mem_cons_of_mem _ hc)]
      rfl

theorem HistoryRecord.toZone_ofZone {z : Zone} (hz : z.WellFormed) : (ofZone z).toZone = .ok z := by
  have hregimes := mapM_eq_ok (f := RegimeRecord.toRegime) (g := RegimeRecord.ofRegime)
    (l := z.regimes) fun g hg => RegimeRecord.toRegime_ofRegime (hz.regimes g hg)
  rw [toZone, ofZone, hregimes]
  exact Zone.make_eq_ok_iff.mpr ⟨rfl, rfl, Zone.firstDisorder?_eq_none_iff.mpr hz.ascending⟩

/-! ## Entering everything again -/

namespace Load

theorem foldl_enterZone : ∀ (zones : List Zone) {rest : List Zone},
    (zones ++ rest).Pairwise (fun a b => a.identifier ≠ b.identifier) →
      (rest.map fun z => (z.identifier, Except.ok z)).foldl (fun l p => l.enterZone p.1 p.2)
        ⟨⟨zones, []⟩, []⟩ = (⟨⟨zones ++ rest, []⟩, []⟩ : Load)
  | zones, [], _ => by rw [List.append_nil]; rfl
  | zones, z :: rest, h => by
      have hfree : (⟨zones, []⟩ : Table).contains z.identifier = false :=
        Table.contains_eq_false_iff.mpr
          ⟨fun y hy => (List.pairwise_append.mp h).2.2 y hy z List.mem_cons_self, rfl⟩
      have hinsert : (⟨zones, []⟩ : Table).insert z = .ok ⟨zones ++ [z], []⟩ :=
        Table.insert_eq_ok_iff.mpr ⟨hfree, rfl⟩
      have hstep : enterZone ⟨⟨zones, []⟩, []⟩ z.identifier (.ok z) =
          ⟨⟨zones ++ [z], []⟩, []⟩ := by
        show record _ _ ((⟨zones, []⟩ : Table).insert z) = _
        rw [hinsert]
        rfl
      rw [List.append_cons] at h ⊢
      rw [List.map_cons, List.foldl_cons, hstep]
      exact foldl_enterZone _ h

theorem foldl_enterLink {zones : List Zone} : ∀ (links : Dictionary String)
    {rest : Dictionary String},
    Dictionary.Ascending (links ++ rest) →
      (∀ p ∈ rest, ∀ z ∈ zones, z.identifier ≠ p.1) →
      rest.foldl (fun l p => l.enterLink p.1 p.2) ⟨⟨zones, links⟩, []⟩ =
        (⟨⟨zones, links ++ rest⟩, []⟩ : Load)
  | links, [], _, _ => by rw [List.append_nil]; rfl
  | links, p :: rest, h, hzones => by
      have hbefore : ∀ q ∈ links, q.1 < p.1 := fun q hq =>
        (List.pairwise_append.mp h).2.2 q hq p List.mem_cons_self
      have hnone : links.get? p.1 = none := by
        simp only [Dictionary.get?, Option.map_eq_none_iff, List.find?_eq_none, decide_eq_true_eq]
        exact fun q hq => ne_of_lt (hbefore q hq)
      have hlink : (⟨zones, links⟩ : Table).link p.1 p.2 = .ok ⟨zones, links ++ [p]⟩ := by
        refine Table.link_eq_ok_iff.mpr ⟨?_, ?_⟩
        · exact Table.contains_eq_false_iff.mpr ⟨hzones p List.mem_cons_self, hnone⟩
        · rw [Dictionary.insert_of_gt hbefore]
      have hstep : enterLink ⟨⟨zones, links⟩, []⟩ p.1 p.2 = ⟨⟨zones, links ++ [p]⟩, []⟩ := by
        rw [enterLink, hlink]
        rfl
      rw [List.append_cons] at h ⊢
      rw [List.foldl_cons, hstep]
      exact foldl_enterLink _ h fun q hq => hzones q (List.mem_cons_of_mem _ hq)

/-- The zones and aliases of a table can be entered again, first all zones and then all
aliases. -/
theorem build_of_wellFormed {t : Table} (h : t.WellFormed) :
    build (t.zones.map fun z => (z.identifier, .ok z)) t.links = ⟨t, []⟩ := by
  have hdisjoint : ∀ p ∈ t.links, ∀ z ∈ t.zones, z.identifier ≠ p.1 := by
    rintro p hp z hz heq
    have hnone := h.disjoint z hz
    simp only [Dictionary.get?, Option.map_eq_none_iff, List.find?_eq_none, decide_eq_true_eq]
      at hnone
    exact hnone p hp heq.symm
  have hzones := foldl_enterZone [] h.distinct
  have hlinks := foldl_enterLink [] h.ascending hdisjoint
  rw [build]
  exact (congrArg (t.links.foldl fun l p => l.enterLink p.1 p.2) hzones).trans hlinks

end Load

/-! ## Tables -/

theorem TableRecords.writable_ofTable {t : Table} (h : t.WellFormed) : (ofTable t).Writable := by
  refine ⟨fun e he g hg => ?_, h.ascending⟩
  obtain ⟨z, hz, rfl⟩ := List.mem_map.mp he
  obtain ⟨r, hr, rfl⟩ := List.mem_map.mp hg
  exact ((Zone.accepted_iff_wellFormed.mp (h.accepted z hz)).regimes r hr).inRange_ofRegime

theorem TableRecords.load_ofTable {t : Table} (h : t.WellFormed) : (ofTable t).load = ⟨t, []⟩ := by
  have hzones : ((ofTable t).zones.map fun e => (e.identifier, e.toZone)) =
      t.zones.map fun z => (z.identifier, .ok z) := by
    rw [ofTable, List.map_map]
    refine List.map_congr_left fun z hz => ?_
    show (z.identifier, (HistoryRecord.ofZone z).toZone) = _
    rw [HistoryRecord.toZone_ofZone (Zone.accepted_iff_wellFormed.mp (h.accepted z hz))]
  rw [load, hzones]
  exact Load.build_of_wellFormed h

/-- The text of a table with any history is read back as records that say what is in the table, with
no start for the beginning of time. It loads as that table, with nothing rejected, and shows nothing
of the order in which the aliases came. -/
theorem ofJson_toJson {ops : List Table.Operation} (hops : ∀ op ∈ ops, op.Accepted) :
    (TableRecords.read? (Table.empty.after ops).toJson =
        some (TableRecords.ofTable (Table.empty.after ops)) ∧
      (TableRecords.ofTable (Table.empty.after ops)).Describes (Table.empty.after ops)) ∧
      Load.ofJson (Table.empty.after ops).toJson = .ok ⟨Table.empty.after ops, []⟩ ∧
      ∀ ops' : List Table.Operation, (∀ op ∈ ops', op.Accepted) →
        Table.zonesOf (Table.empty.entered ops') = Table.zonesOf (Table.empty.entered ops) →
        (Table.linksOf (Table.empty.entered ops')).Perm
          (Table.linksOf (Table.empty.entered ops)) →
        (Table.empty.after ops').toJson = (Table.empty.after ops).toJson := by
  have hwellFormed := Table.wellFormed_after hops
  have hread : TableRecords.read? (Table.empty.after ops).toJson =
      some (TableRecords.ofTable (Table.empty.after ops)) :=
    TableRecords.read?_toValue_pretty (TableRecords.writable_ofTable hwellFormed)
  refine ⟨⟨hread, TableRecords.describes_ofTable _⟩, ?_, fun ops' hops' hzones hlinks => ?_⟩
  · rw [Load.ofJson, hread]
    exact congrArg Except.ok (TableRecords.load_ofTable hwellFormed)
  · rw [Table.after_eq_of_perm hops hops' hzones hlinks]

/-- A zone that has an alias, an alias with a quote in its name that leads nowhere, and a second
zone of the same name, which is refused: the aliases may as well come in the other order, and one
of them before the zone. The first regime is written with a null for its start. -/
theorem ofJson_toJson_aliases_swapped :
    let z := Zone.ofChanges ⟨60⟩ [(⟨0⟩, ⟨120⟩)]
    let ops : List Table.Operation :=
      [.insert z, .link "Old" "Changes", .insert (Zone.ofChanges ⟨0⟩ []), .link "\"" "Ж"]
    let ops' : List Table.Operation := [.link "\"" "Ж", .insert z, .link "Old" "Changes"]
    let text := (Table.empty.after ops).toJson
    (∀ op ∈ ops, op.Accepted) ∧
      Table.empty.after ops = ⟨[z], [("\"", "Ж"), ("Old", "Changes")]⟩ ∧
      Value.read? text = some (.record [
        ("zones", .array [.record [("identifier", .text "Changes"), ("regimes", .array [
          .record [("effective_from", .null), ("standard_offset", .int 60),
            ("dst_offset", .null), ("abbreviation", .text "X")],
          .record [("effective_from", .int 0), ("standard_offset", .int 120),
            ("dst_offset", .null), ("abbreviation", .text "X")]])]]),
        ("links", .record [("\"", .text "Ж"), ("Old", .text "Changes")])]) ∧
      TableRecords.read? text = some ⟨[⟨"Changes", [⟨none, 60, none, "X"⟩,
        ⟨some 0, 120, none, "X"⟩]⟩], [("\"", "Ж"), ("Old", "Changes")]⟩ ∧
      Load.ofJson text = .ok ⟨Table.empty.after ops, []⟩ ∧
      (Table.empty.after ops').toJson = text := by
  intro z ops ops' text
  have hz : z.Accepted := Zone.accepted_ofChanges (by decide) (by decide) (by decide)
  have hsecond : (Zone.ofChanges ⟨0⟩ []).Accepted :=
    Zone.accepted_ofChanges (by decide) (by decide) (by decide)
  have hops : ∀ op ∈ ops, op.Accepted := by
    simpa [ops, Table.Operation.Accepted] using ⟨hz, hsecond⟩
  have hops' : ∀ op ∈ ops', op.Accepted := by
    simpa [ops', Table.Operation.Accepted] using hz
  obtain ⟨⟨hread, -⟩, hload, horder⟩ := ofJson_toJson hops
  exact ⟨hops, by decide +kernel, read?_pretty (TableRecords.exact_toValue _), hread, hload,
    horder ops' hops' (by decide +kernel) (by decide +kernel)⟩

end ZoneHistory
