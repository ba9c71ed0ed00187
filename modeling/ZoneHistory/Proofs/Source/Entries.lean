import ZoneHistory.Proofs.Calendar.DayCount
import ZoneHistory.Proofs.Source.Columns

/-!
# Parsers of entries

An end and an entry are read column by column. The year of an end is read as a number
of 32 bits and the day as a byte; a valid end lies well within these, so that only its
validity is left in `reads_until`. An entry is read from a text without a comment
(`reads_entry`).
-/

namespace ZoneHistory.Source

open Calendar Text Parse

/-! ## Ends -/

namespace Until

theorem reads_optional {α : Type} {read : String → Parse α} {W : α → Prop}
    {R : α → List Char → Prop} (hread : ∀ s : String, Reads (read s) fun a => W a ∧ R a s.toList)
    (default : α) (hdefault : W default) (s : Option String) :
    Reads (optional read default s) fun a => W a ∧ Given R default a (s.map String.toList) := by
  cases s with
  | none =>
      refine (reads_return default).congr fun a => (and_iff_right_of_imp ?_).symm
      rintro rfl
      exact hdefault
  | some s => exact hread s

theorem reads_checked (u : Until) (rest : List String) (text : String) :
    Reads (match rest[3]? with
      | some extra => unknownValue extra
      | none => if u.Valid then return u else unknownValue text) fun v =>
    v = u ∧ u.Valid ∧ rest.length ≤ 3 := by
  split
  next extra h =>
    refine (reads_unknownValue extra).congr fun v => ⟨nofun, fun ⟨_, _, hlength⟩ => ?_⟩
    rw [List.getElem?_eq_none hlength] at h
    cases h
  next h =>
    refine (reads_if u u.Valid text).congr fun v => and_congr_right fun _ => ?_
    exact (and_iff_left (List.getElem?_eq_none_iff.mp h)).symm

theorem Valid.year_signed32 {u : Until} (h : u.Valid) :
    IntegerRange.signed32.contains u.year = true := by
  have hfirst : -271821 ≤ u.year := h.1
  have hlast : u.year ≤ 275760 := h.2.1
  rw [IntegerRange.contains_iff]
  show -2147483648 ≤ u.year ∧ u.year ≤ 2147483647
  omega

theorem Valid.inByte {u : Until} (h : u.Valid) : u.day.InByte := by
  have hdays := daysInMonth_le u.year u.month.number
  have h := h.2.2
  cases hday : u.day with
  | last w => trivial
  | onOrAfter w d | onOrBefore w d | day d =>
      rw [hday] at h
      exact Nat.le_trans h.2 (by omega)

theorem reads_until (text : String) :
    Reads (Until.parse text) fun u => u.Valid ∧ u.time.amount.WellFormed ∧
      ∃ year rest, Spaced isBlank (year :: rest) text.toList ∧ u.Columns year rest := by
  have hday : (DaySelector.day 1).InByte := show 1 ≤ 255 by decide
  have htime : ClockTime.midnight.amount.WellFormed :=
    ⟨by decide, fun _ => by decide, by decide, by decide⟩
  have hmonths (s : String) : Reads (parseMonth s) fun m =>
      True ∧ s.toList = m.abbreviation.toList := (reads_month s).congr fun _ => by rw [true_and]
  have h := (reads_column (columns text)).bind fun r _ =>
    (reads_signed (show IntegerRange.signed32.least < 0 by decide) (by decide) r.1).bind
      fun year _ =>
    (reads_optional (R := fun m cs => cs = m.abbreviation.toList) hmonths .january trivial
      r.2[0]?).bind fun month _ =>
    (reads_optional DaySelector.reads_daySelector _ hday r.2[1]?).bind fun day _ =>
    (reads_optional ClockTime.reads_clockTime _ htime r.2[2]?).bind fun time _ =>
      reads_checked ⟨year, month, day, time⟩ r.2 text
  refine Reads.within (h.congr fun u => ?_) "UntilDateTime"
  constructor
  · rintro ⟨⟨year, rest⟩, hcolumns, n, ⟨hyear, -⟩, month, ⟨-, hmonth⟩, day, ⟨-, hday⟩, time,
      ⟨hwf, htime⟩, rfl, hvalid, hlength⟩
    refine ⟨hvalid, hwf, year.toList, rest.map String.toList, columns_eq_iff.mp hcolumns, ?_⟩
    exact ⟨hyear, by rwa [List.getElem?_map], by rwa [List.getElem?_map],
      by rwa [List.getElem?_map], by rwa [List.length_map]⟩
  · rintro ⟨hvalid, hwf, year, rest, hspaced, h⟩
    have hwords : (columns text).map String.toList = year :: rest :=
      (columns_eq_iff.mp rfl).unique hspaced
    obtain ⟨year, rest, hcolumns, rfl, rfl⟩ := List.map_eq_cons_iff.mp hwords
    refine ⟨(year, rest), hcolumns, u.year, ⟨h.year, hvalid.year_signed32⟩, u.month, ⟨trivial, ?_⟩,
      u.day, ⟨hvalid.inByte, ?_⟩, u.time, ⟨hwf, ?_⟩, rfl, hvalid, ?_⟩
    · rw [← List.getElem?_map]
      exact h.month
    · rw [← List.getElem?_map]
      exact h.day
    · rw [← List.getElem?_map]
      exact h.time
    · rw [← List.length_map]
      exact h.length

end Until

/-! ## Entries -/

namespace Entry

theorem spaced_joinBySpace {ss : List String} (h : ∀ s ∈ ss, IsWord isBlank s.toList) :
    Spaced isBlank (ss.map String.toList) (joinBySpace ss).toList := by
  rw [toList_joinBySpace]
  refine spaced_intercalate (by decide) fun w hw => ?_
  obtain ⟨s, hs, rfl⟩ := List.mem_map.mp hw
  exact h s hs

/-- The last step of reading an entry, which is where it has an end or has none. -/
theorem reads_ends {rest : List String} (hwords : ∀ s ∈ rest, IsWord isBlank s.toList)
    (entry : Option Until → Entry) :
    Reads (if rest.isEmpty then (do
          let ends ← (return none : Parse (Option Until))
          return entry ends)
        else (do
          let ends ← some <$> Until.parse (joinBySpace rest)
          return entry ends)) fun e =>
      ∃ ends, ((∀ u, ends = some u → u.Valid ∧ u.time.amount.WellFormed) ∧
        EndColumns ends (rest.map String.toList)) ∧ e = entry ends := by
  cases rest with
  | nil =>
      refine ((reads_return none).bind fun ends _ => reads_return (entry ends)).congr fun e => ?_
      refine exists_congr fun ends => and_congr_left fun _ => ⟨?_, ?_⟩
      · rintro rfl
        exact ⟨fun u h => absurd h.symm (Option.some_ne_none u), .none⟩
      · rintro ⟨-, h⟩
        cases h
        rfl
  | cons s rest =>
      refine ((Until.reads_until _).map.bind fun ends _ => reads_return (entry ends)).congr
        fun e => ?_
      have hspaced := spaced_joinBySpace hwords
      refine exists_congr fun ends => and_congr_left fun _ => ⟨?_, ?_⟩
      · rintro ⟨u, ⟨hvalid, hwf, year, columns, hcolumns, hu⟩, rfl⟩
        rw [hspaced.unique hcolumns]
        refine ⟨?_, .some hu⟩
        rintro _ ⟨⟩
        exact ⟨hvalid, hwf⟩
      · rintro ⟨hwf, h⟩
        cases h with
        | @some u year columns hu =>
            obtain ⟨hvalid, hwf⟩ := hwf u rfl
            exact ⟨u, ⟨hvalid, hwf, _, _, hspaced, hu⟩, rfl⟩

theorem reads_entry {text : String} (htext : '#' ∉ text.toList) :
    Reads (Entry.parse text) fun e => e.WellFormed ∧
      ∃ columns, Spaced isBlank columns text.toList ∧ e.Columns columns := by
  have hspaced : Spaced isBlank ((columns text).map String.toList) text.toList :=
    columns_eq_iff.mp rfl
  refine Reads.within (((reads_column (columns text)).bind fun r hr =>
    (Amount.reads_amount r.1).bind fun standard _ =>
    (reads_column r.2).bind fun r' hr' =>
    (reads_saving r'.1).bind fun saving _ =>
    (reads_column r'.2).bind fun r'' hr'' =>
    (Designation.reads_designation r''.1).bind fun designation _ =>
      reads_ends ?_ fun ends => ⟨standard, saving, designation, ends⟩).congr fun e => ?_)
    "ZoneEntry"
  · intro s hs
    refine hspaced.isWord s.toList (List.mem_map_of_mem ?_)
    rw [hr, hr', hr'']
    exact .tail _ (.tail _ (.tail _ hs))
  constructor
  · rintro ⟨⟨standard, _⟩, hcolumns, a, ⟨hstandard, hsa⟩, ⟨saving, _⟩, rfl, b, ⟨hsaving, hsb⟩,
      ⟨designation, rest⟩, rfl, d, hsd, ends, ⟨hends, hse⟩, rfl⟩
    rw [hcolumns] at hspaced
    have hmem :
        designation.toList ∈ (standard :: saving :: designation :: rest).map String.toList :=
      .tail _ (.tail _ (.head _))
    refine ⟨⟨hstandard, hsaving, ⟨_, hspaced.isWord _ hmem, fun h => ?_, hsd⟩, hends⟩, _, hspaced,
      .mk hsa hsb hsd hse⟩
    exact htext (hspaced.mem _ hmem _ h)
  · obtain ⟨a, b, d, ends⟩ := e
    rintro ⟨hwf, cs, hcs, h⟩
    cases h with
    | @mk standard saving designation rest hsa hsb hsd hse =>
        have hwords := hspaced.unique hcs
        simp only [List.map_eq_cons_iff] at hwords
        obtain ⟨standard, _, hcolumns, rfl, saving, _, rfl, rfl, designation, rest, rfl, rfl,
          rfl⟩ := hwords
        exact ⟨(_, _), hcolumns, a, ⟨hwf.standard, hsa⟩, (_, _), rfl, b, ⟨hwf.saving, hsb⟩, (_, _),
          rfl, d, hsd, ends, ⟨hwf.ends, hse⟩, rfl⟩

end Entry

end ZoneHistory.Source
