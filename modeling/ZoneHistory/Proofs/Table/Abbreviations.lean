import ZoneHistory.Proofs.Source.Columns
import ZoneHistory.Proofs.Table.Invariant

/-!
# Abbreviations of loaded zones

Main statement: the abbreviations of a loaded zone are short and ASCII, but they may be empty
(`Load.abbreviations_of_loaded_zones`).

Nothing that leads to a regime asks for a character. A column of a source gives an empty
abbreviation where it consists of places for letters only, or of a pair whose half in use is
empty (`Designation.abbreviation_eq_empty_iff`); a record in JSON gives the text that it holds.
Both are passed to `Regime.make`, which refuses an abbreviation for its length and its
characters, and so never refuses the empty one.
-/

namespace ZoneHistory

/-! ## Columns that leave nothing -/

namespace Source.Designation

open Text

/-- The column gives an empty abbreviation: it has places for letters and nothing else, or it is a
pair without a half for standard time, or without one for daylight saving time, when that is in
effect. -/
inductive LeavesNothing : Bool → List Char → Prop
  | letters {daylight : Bool} (n : Nat) :
      LeavesNothing daylight (List.replicate (n + 1) "%s".toList).flatten
  | standard {half : List Char} : ¬"%s".toList <:+: '/' :: half → ¬"%z".toList <:+: '/' :: half →
      LeavesNothing false ('/' :: half)
  | daylight {half : List Char} : '/' ∉ half → ¬"%s".toList <:+: half ++ ['/'] →
      ¬"%z".toList <:+: half ++ ['/'] → LeavesNothing true (half ++ ['/'])

theorem withoutLetters_eq_nil_iff {cs : List Char} :
    withoutLetters cs = [] ↔ ∃ n, cs = (List.replicate n "%s".toList).flatten := by
  constructor
  · intro h
    induction cs using withoutLetters.induct with
    | case1 rest ih =>
        obtain ⟨n, rfl⟩ := ih h
        exact ⟨n + 1, rfl⟩
    | case2 c rest hplace ih =>
        rw [withoutLetters] at h
        · cases h
        · exact hplace
    | case3 => exact ⟨0, rfl⟩
  · rintro ⟨n, rfl⟩
    induction n with
    | zero => rfl
    | succ n ih => exact ih

theorem numericText_ne_empty (o : Offset) : o.numericText ≠ "" := by
  intro h
  have hchars := congrArg String.toList h
  rw [Offset.numericText] at hchars
  split at hchars <;> simp at hchars

theorem infix_of_letters (n : Nat) :
    "%s".toList <:+: (List.replicate (n + 1) "%s".toList).flatten :=
  ⟨[], (List.replicate n "%s".toList).flatten, rfl⟩

theorem abbreviation_eq_empty_iff {d : Designation} {column : List Char} (hne : column ≠ [])
    (h : d.Spelled column) (total : Offset) (daylight : Bool) :
    d.abbreviation total daylight = "" ↔ LeavesNothing daylight column := by
  cases h with
  | @lettered text hs =>
      have hempty : (lettered text).abbreviation total daylight = "" ↔
          ∃ n, text.toList = (List.replicate n "%s".toList).flatten := by
        rw [← withoutLetters_eq_nil_iff, ← String.toList_eq_nil_iff, abbreviation,
          String.toList_ofList]
      rw [hempty]
      constructor
      · rintro ⟨n, hn⟩
        cases n with
        | zero => exact absurd hn hne
        | succ n => exact hn ▸ .letters n
      · generalize text.toList = column at hs
        intro h
        cases h with
        | letters n => exact ⟨n + 1, rfl⟩
        | standard hnot => exact absurd hs hnot
        | daylight _ hnot => exact absurd hs hnot
  | numeric hs hz =>
      refine iff_of_false (numericText_ne_empty total) fun h => ?_
      cases h with
      | letters n => exact hs (infix_of_letters n)
      | standard _ hnot => exact hnot hz
      | daylight _ _ hnot => exact hnot hz
  | @pair standardText daylightText _ hcolumn hslash hs hz =>
      subst hcolumn
      cases daylight with
      | false =>
          have hempty : (pair standardText daylightText).abbreviation total false = "" ↔
              standardText.toList = [] := String.toList_eq_nil_iff.symm
          rw [hempty]
          constructor
          · intro hnil
            rw [hnil] at hs hz ⊢
            exact .standard hs hz
          · generalize hcolumn : standardText.toList ++ '/' :: daylightText.toList = column at hs
            intro h
            cases h with
            | letters n => exact absurd (infix_of_letters n) hs
            | standard =>
                by_contra hnil
                obtain ⟨c, cs, hcs⟩ := List.exists_cons_of_ne_nil hnil
                rw [hcs] at hcolumn hslash
                obtain ⟨rfl, -⟩ := List.cons.inj hcolumn
                exact hslash List.mem_cons_self
      | true =>
          have hempty : (pair standardText daylightText).abbreviation total true = "" ↔
              daylightText.toList = [] := String.toList_eq_nil_iff.symm
          rw [hempty]
          constructor
          · intro hnil
            rw [hnil] at hs hz ⊢
            exact .daylight hslash hs hz
          · generalize hcolumn : standardText.toList ++ '/' :: daylightText.toList = column at hs
            intro h
            cases h with
            | letters n => exact absurd (infix_of_letters n) hs
            | daylight hhalf =>
                -- the halves are what stands around the only slash
                rw [eq_comm, List.append_cons_inj_of_notMem hhalf List.not_mem_nil] at hcolumn
                exact hcolumn.2.2.symm
  | @plain text hslash hs hz =>
      refine iff_of_false (fun h => hne (String.toList_eq_nil_iff.mpr h)) ?_
      generalize text.toList = column at hslash hs
      intro h
      cases h with
      | letters n => exact hs (infix_of_letters n)
      | standard => exact hslash List.mem_cons_self
      | daylight => exact hslash (List.mem_append_right _ List.mem_cons_self)

end Source.Designation

/-! ## Regimes with an empty abbreviation -/

theorem isAbbreviation_empty : IsAbbreviation "" := by
  decide

namespace Regime

variable {start : Instant} {standard : Offset} {saving : Option Offset} {abbreviation : String}

/-- The abbreviation is the last thing that is looked at. -/
theorem make_eq_error_abbreviation {text : String}
    (h : make start standard saving abbreviation = .error (.abbreviation text)) :
    abbreviation = text ∧ ¬IsAbbreviation text := by
  simp only [make] at h
  split at h
  · cases h
  split at h
  · cases h
  split at h
  · cases h
  split at h
  next hnot =>
    cases h
    exact ⟨rfl, hnot⟩
  · cases h

/-- A regime without an abbreviation is judged on the other parts. -/
theorem exists_make_empty_iff : (∃ g, make start standard saving "" = .ok g) ↔
    (start = Instant.beginning ∨ start.Valid) ∧ standard.WithinDay ∧
      (standard + saving.getD Offset.zero).WithinDay := by
  constructor
  · rintro ⟨g, hg⟩
    obtain ⟨rfl, hwf⟩ := make_eq_ok_iff.mp hg
    exact ⟨hwf.start, hwf.standard, hwf.total⟩
  · rintro ⟨hstart, hstandard, htotal⟩
    exact ⟨_, make_eq_ok_iff.mpr ⟨rfl, hstart, hstandard, htotal, isAbbreviation_empty⟩⟩

end Regime

theorem Zone.make_ne_error_abbreviation {identifier : String} {regimes : List Regime}
    {text : String} : make identifier regimes ≠ .error (.abbreviation text) := by
  intro h
  rcases make_eq_error_iff.mp h with ⟨-, heq⟩ | ⟨_, -, heq⟩
  · cases heq
  · cases heq

/-! ## From the entries of a source -/

namespace Source

/-- The regime has the abbreviation that the column of the entry gives. -/
structure Entry.Abbreviates (e : Entry) (g : Regime) : Prop where
  abbreviation : g.abbreviation = e.abbreviation
  isAbbreviation : IsAbbreviation g.abbreviation
  empty_iff : ∃ column, Text.IsWord Text.isBlank column ∧ e.designation.Spelled column ∧
    (g.abbreviation = "" ↔ Designation.LeavesNothing g.isDaylight column)

theorem Entry.abbreviates_of_toRegime {e : Entry} (he : e.WellFormed) {start : Instant} {g : Regime}
    (h : e.toRegime start = .ok g) : e.Abbreviates g := by
  obtain ⟨rfl, hwf⟩ := Entry.toRegime_eq_ok_iff.mp h
  obtain ⟨column, hword, -, hspelled⟩ := he.designation
  exact ⟨rfl, hwf.abbreviation, column, hword, hspelled,
    Designation.abbreviation_eq_empty_iff hword.1 hspelled _ _⟩

namespace ZoneBlock

theorem abbreviates_of_regimesFrom : ∀ {es : List Entry} {start : Instant} {gs : List Regime},
    (∀ e ∈ es, e.WellFormed) → regimesFrom start es = .ok gs →
      List.Forall₂ Entry.Abbreviates es gs
  | [], _, _, _, h => by
      cases h
      exact .nil
  | e :: es, _, _, hwf, h => by
      obtain ⟨he, hes⟩ := List.forall_mem_cons.mp hwf
      obtain ⟨g, hg, later, hlater, rfl⟩ := regimesFrom_cons_eq_ok_iff.mp h
      exact .cons (Entry.abbreviates_of_toRegime he hg) (abbreviates_of_regimesFrom hes hlater)

theorem abbreviates_of_toZone {b : ZoneBlock} (hb : b.WellFormed) {z : Zone}
    (h : b.toZone = .ok z) : List.Forall₂ Entry.Abbreviates b.entries z.regimes := by
  obtain ⟨gs, hgs, hmake⟩ := toZone_eq_ok_iff.mp h
  obtain ⟨-, rfl, -⟩ := Zone.make_eq_ok_iff.mp hmake
  exact abbreviates_of_regimesFrom hb.entries hgs

theorem exists_of_regimesFrom_error {e : ZoneError} : ∀ {es : List Entry} {start : Instant},
    regimesFrom start es = .error e → ∃ entry ∈ es, ∃ t, entry.toRegime t = .error e
  | [], _, h => by cases h
  | entry :: es, start, h => by
      rcases bind_eq_error_iff.mp h with h | ⟨g, -, h⟩
      · exact ⟨entry, List.mem_cons_self, start, h⟩
      · rcases bind_eq_error_iff.mp h with h | ⟨later, -, h⟩
        · obtain ⟨entry', hmem, t, ht⟩ := exists_of_regimesFrom_error h
          exact ⟨entry', List.mem_cons_of_mem _ hmem, t, ht⟩
        · cases h

/-- An abbreviation that keeps a block from being a zone is that of one of its entries. -/
theorem exists_of_toZone_error {b : ZoneBlock} {text : String}
    (h : b.toZone = .error (.abbreviation text)) :
    ¬IsAbbreviation text ∧ ∃ e ∈ b.entries, e.abbreviation = text := by
  rcases bind_eq_error_iff.mp h with h | ⟨gs, -, h⟩
  · obtain ⟨e, he, t, ht⟩ := exists_of_regimesFrom_error h
    obtain ⟨htext, hnot⟩ := Regime.make_eq_error_abbreviation ht
    exact ⟨hnot, e, he, htext⟩
  · exact absurd h Zone.make_ne_error_abbreviation

end ZoneBlock

end Source

/-! ## From the records of a JSON text -/

/-- The regime has the abbreviation of the record. -/
structure RegimeRecord.Abbreviates (r : RegimeRecord) (g : Regime) : Prop where
  abbreviation : g.abbreviation = r.abbreviation
  isAbbreviation : IsAbbreviation g.abbreviation

namespace HistoryRecord

theorem abbreviates_of_toZone {e : HistoryRecord} {z : Zone} (h : e.toZone = .ok z) :
    List.Forall₂ RegimeRecord.Abbreviates e.regimes z.regimes := by
  obtain ⟨gs, hgs, hmake⟩ := bind_eq_ok_iff.mp h
  obtain ⟨-, rfl, -⟩ := Zone.make_eq_ok_iff.mp hmake
  refine (mapM_eq_ok_iff.mp hgs).imp fun r g hg => ?_
  obtain ⟨rfl, hwf⟩ := Regime.make_eq_ok_iff.mp hg
  exact ⟨rfl, hwf.abbreviation⟩

/-- An abbreviation that keeps a record from being a zone is that of one of its regimes. -/
theorem exists_of_toZone_error {e : HistoryRecord} {text : String}
    (h : e.toZone = .error (.abbreviation text)) :
    ¬IsAbbreviation text ∧ ∃ r ∈ e.regimes, r.abbreviation = text := by
  rcases bind_eq_error_iff.mp h with h | ⟨gs, -, h⟩
  · obtain ⟨r, hr, hmake⟩ := exists_of_mapM_error h
    obtain ⟨htext, hnot⟩ := Regime.make_eq_error_abbreviation hmake
    exact ⟨hnot, r, hr, htext⟩
  · exact absurd h Zone.make_ne_error_abbreviation

end HistoryRecord

/-! ## What is rejected -/

namespace Load

open Source

theorem mem_refused {α : Type} {cs : List (String × Except ZoneError α)} {name : String}
    {e : ZoneError} : (name, e) ∈ refused cs ↔ (name, .error e) ∈ cs := by
  rw [refused, List.mem_filterMap]
  constructor
  · rintro ⟨⟨_, x⟩, hmem, hx⟩
    cases x with
    | error e =>
        cases hx
        exact hmem
    | ok a => cases hx
  · intro h
    exact ⟨_, h, rfl⟩

/-- A candidate is refused because it could not be made, or because its name is in use. -/
theorem of_mem_refused_outcomes {α : Type} {used : List String}
    {cs : List (String × Except ZoneError α)} {name : String} {e : ZoneError}
    (h : (name, e) ∈ refused (outcomes used cs)) :
    (name, .error e) ∈ cs ∨ e = .malformed name .duplicateName := by
  obtain ⟨i, hi, hc⟩ := List.mem_mapIdx.mp (mem_refused.mp h)
  have hmem := List.getElem_mem hi
  generalize cs[i] = c at hc hmem
  obtain ⟨name', x⟩ := c
  obtain ⟨rfl, hx⟩ := Prod.mk.inj hc
  cases x with
  | error e' =>
      cases hx
      exact Or.inl hmem
  | ok a =>
      by_cases hused : name' ∈ used ++ made (cs.take i)
      · rw [outcome_of_mem hused] at hx
        exact Or.inr (Except.error.inj hx).symm
      · rw [outcome_of_not_mem hused] at hx
        cases hx

/-- Only the names of links are looked at. -/
theorem mem_records_of_mem_rejected {records : List (String × Except ZoneError Zone)}
    (hrecords : ∀ p ∈ records, ∀ z, p.2 = .ok z → z.identifier = p.1)
    {links : List (String × String)} {name : String} {e : ZoneError}
    (h : (name, e) ∈ (build records links).rejected) (he : e ≠ .malformed name .duplicateName) :
    (name, .error e) ∈ records := by
  rw [(divides_build hrecords links).rejected] at h
  rcases List.mem_append.mp h with h | h
  · exact (of_mem_refused_outcomes h).resolve_right he
  · have hmem := (of_mem_refused_outcomes h).resolve_right he
    obtain ⟨p, -, hp⟩ := List.mem_map.mp hmem
    cases (Prod.mk.inj hp).2

/-- A regime of a loaded zone has the abbreviation that its line gives, or its record. Both ways it
has at most eight characters, all ASCII and none NUL, but need not have any: a line gives none if
its column has only places for letters or a pair lacks the half that is in use, and a record if it
holds the empty text. Such a regime is accepted if its other parts are, and no zone is rejected for
an empty abbreviation. -/
theorem abbreviations_of_loaded_zones (text : String) (l : Load) :
    (ofSource text = .ok l → ∃ d, Document.parse text = .ok d ∧
      (∀ z ∈ l.table.zones, ∃ b ∈ d.zones, b.toZone = .ok z ∧
        List.Forall₂ Entry.Abbreviates b.entries z.regimes) ∧
      ∀ name t, (name, .abbreviation t) ∈ l.rejected → ¬IsAbbreviation t ∧ t ≠ "" ∧
        ∃ b ∈ d.zones, b.identifier = name ∧ ∃ e ∈ b.entries, e.abbreviation = t) ∧
    (ofJson text = .ok l → ∃ r, TableRecords.read? text = some r ∧
      (∀ z ∈ l.table.zones, ∃ h ∈ r.zones, h.toZone = .ok z ∧
        List.Forall₂ RegimeRecord.Abbreviates h.regimes z.regimes) ∧
      ∀ name t, (name, .abbreviation t) ∈ l.rejected → ¬IsAbbreviation t ∧ t ≠ "" ∧
        ∃ h ∈ r.zones, h.identifier = name ∧ ∃ g ∈ h.regimes, g.abbreviation = t) ∧
    ∀ start standard saving, (∃ g, Regime.make start standard saving "" = .ok g) ↔
      (start = Instant.beginning ∨ start.Valid) ∧ standard.WithinDay ∧
        (standard + saving.getD Offset.zero).WithinDay := by
  have hne : ∀ {t : String}, ¬IsAbbreviation t → t ≠ "" := by
    rintro _ hnot rfl
    exact hnot isAbbreviation_empty
  refine ⟨?_, ?_, fun _ _ _ => Regime.exists_make_empty_iff⟩
  · intro h
    obtain ⟨d, hd, rfl⟩ := ofSource_eq_ok_iff.mp h
    obtain ⟨hwf, -⟩ := Document.parse_eq_ok_iff.mp hd
    refine ⟨d, hd, ?_, ?_⟩
    · intro z hz
      obtain ⟨p, hp, hok⟩ := mem_zones_build hz
      obtain ⟨b, hb, rfl⟩ := List.mem_map.mp hp
      exact ⟨b, hb, hok, ZoneBlock.abbreviates_of_toZone (hwf.zones b hb) hok⟩
    · intro name t hmem
      have hnames := identifier_of_mem_map
        (fun (b : ZoneBlock) _ => b.identifier_of_toZone) d.zones
      obtain ⟨b, hb, hp⟩ := List.mem_map.mp (mem_records_of_mem_rejected hnames hmem nofun)
      obtain ⟨rfl, herror⟩ := Prod.mk.inj hp
      obtain ⟨hnot, hentry⟩ := ZoneBlock.exists_of_toZone_error herror
      exact ⟨hnot, hne hnot, b, hb, rfl, hentry⟩
  · intro h
    obtain ⟨r, hr, rfl⟩ := ofJson_eq_ok_iff.mp h
    refine ⟨r, hr, ?_, ?_⟩
    · intro z hz
      obtain ⟨p, hp, hok⟩ := mem_zones_build hz
      obtain ⟨e, he, rfl⟩ := List.mem_map.mp hp
      exact ⟨e, he, hok, HistoryRecord.abbreviates_of_toZone hok⟩
    · intro name t hmem
      have hnames := identifier_of_mem_map
        (fun (e : HistoryRecord) _ => e.identifier_of_toZone) r.zones
      obtain ⟨e, he, hp⟩ := List.mem_map.mp (mem_records_of_mem_rejected hnames hmem nofun)
      obtain ⟨rfl, herror⟩ := Prod.mk.inj hp
      obtain ⟨hnot, hrecord⟩ := HistoryRecord.exists_of_toZone_error herror
      exact ⟨hnot, hne hnot, e, he, rfl, hrecord⟩

/-- In winter the first half of the pair is in use and in summer the second one, which is empty. A
text without its places for letters can still be too long. -/
theorem abbreviations_of_half_a_pair :
    let source := "Zone A 1:00 - X/ 2000\n 1:00 1:00 X/\nZone B 0 - %sMUCHTOOLONG\n"
    let winter : Regime := ⟨Instant.beginning, ⟨60⟩, none, "X"⟩
    let summer : Regime := ⟨⟨946681200000⟩, ⟨60⟩, some ⟨60⟩, ""⟩
    ofSource source = .ok ⟨⟨[⟨"A", winter, [summer]⟩], []⟩, [("B", .abbreviation "MUCHTOOLONG")]⟩ ∧
      (∃ column, Designation.LeavesNothing summer.isDaylight column) ∧
      ¬IsAbbreviation "MUCHTOOLONG" := by
  intro source winter summer
  have hload : ofSource source =
      .ok ⟨⟨[⟨"A", winter, [summer]⟩], []⟩, [("B", .abbreviation "MUCHTOOLONG")]⟩ := by
    decide +kernel
  obtain ⟨hsource, -⟩ := abbreviations_of_loaded_zones source _
  obtain ⟨d, -, hzones, hrejected⟩ := hsource hload
  obtain ⟨b, -, -, habbreviates⟩ := hzones _ List.mem_cons_self
  obtain ⟨_, es, -, hlater, -⟩ := List.forall₂_cons_right_iff.mp habbreviates
  obtain ⟨e, _, hsummer, -⟩ := List.forall₂_cons_right_iff.mp hlater
  obtain ⟨column, -, -, hempty⟩ := hsummer.empty_iff
  obtain ⟨hlong, -⟩ := hrejected _ _ List.mem_cons_self
  exact ⟨hload, ⟨column, hempty.mp rfl⟩, hlong⟩

/-- Zones without any abbreviation: from a pair without its half for standard time, from one
without its half for daylight saving time, from places for letters, and from JSON. -/
theorem loads_empty_abbreviations :
    let abbreviations (l : Load) := l.table.zones.flatMap fun z => z.regimes.map (·.abbreviation)
    (ofSource "Zone A 1:00 - /X 2000\n 1:00 1:00 X/ 2001\n 1:00 - %s%s\n").map abbreviations =
        .ok ["", "", ""] ∧
      (ofJson "\x7b\"zones\": [[\"A\", [[null, 60, null, \"\"]]]]\x7d").map abbreviations =
        .ok [""] := by
  decide +kernel

end Load

end ZoneHistory
