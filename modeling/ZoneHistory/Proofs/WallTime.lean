import ZoneHistory.Proofs.Calendar.DayCount
import ZoneHistory.Reading

/-!
# Readings as numbers

A reading and its milliseconds on the wall clock determine each other. The
checked constructors build exactly the valid readings (`make_eq_ok_iff`); for
those, `ofWallMs_eq_iff` says that a number of milliseconds gives the reading
precisely if it is the number of the reading.
-/

namespace ZoneHistory

open Calendar

/-! ## Checked fields -/

theorem Calendar.Date.make_eq_ok_iff {year : Int} {month day : Nat} {d : Date} :
    Date.make year month day = .ok d ↔ d = ⟨year, month, day⟩ ∧ d.Valid := by
  unfold Date.make
  constructor
  · intro h
    split at h
    · cases h
    next hyear =>
    split at h
    · cases h
    next hmonth =>
    split at h
    · cases h
    next hday =>
    cases h
    have hyear := Decidable.of_not_not hyear
    have hmonth := Decidable.of_not_not hmonth
    have hday := Decidable.of_not_not hday
    exact ⟨rfl, hyear.1, hyear.2, hmonth.1, hmonth.2, hday.1, hday.2⟩
  · rintro ⟨rfl, hfrom, hto, h1, h12, hpos, hle⟩
    rw [if_neg (not_not_intro ⟨hfrom, hto⟩), if_neg (not_not_intro ⟨h1, h12⟩),
      if_neg (not_not_intro ⟨hpos, hle⟩)]

theorem TimeOfDay.make_eq_ok_iff {hour minute second millisecond : Nat} {t : TimeOfDay} :
    TimeOfDay.make hour minute second millisecond = .ok t ↔
      t = ⟨hour, minute, second, millisecond⟩ ∧ t.Valid := by
  simp only [TimeOfDay.make]
  constructor
  · intro h
    split at h
    next hvalid =>
      cases h
      exact ⟨rfl, hvalid⟩
    next => cases h
  · rintro ⟨rfl, hvalid⟩
    exact if_pos hvalid

namespace Reading

theorem make_eq_ok_iff {year : Int} {month day hour minute second millisecond : Nat}
    {r : Reading} :
    make year month day hour minute second millisecond = .ok r ↔
      r = ⟨⟨year, month, day⟩, ⟨hour, minute, second, millisecond⟩⟩ ∧ r.Valid := by
  unfold make
  constructor
  · intro h
    cases hdate : Date.make year month day with
    | error e => rw [hdate] at h; cases h
    | ok d =>
        cases htime : TimeOfDay.make hour minute second millisecond with
        | error e => rw [hdate, htime] at h; cases h
        | ok t =>
            rw [hdate, htime] at h
            cases h
            obtain ⟨rfl, hd⟩ := Date.make_eq_ok_iff.mp hdate
            obtain ⟨rfl, ht⟩ := TimeOfDay.make_eq_ok_iff.mp htime
            exact ⟨rfl, hd, ht⟩
  · rintro ⟨rfl, hd, ht⟩
    rw [Date.make_eq_ok_iff.mpr ⟨rfl, hd⟩, TimeOfDay.make_eq_ok_iff.mpr ⟨rfl, ht⟩]
    rfl

/-- The reading was made from checked fields. -/
def Accepted (r : Reading) : Prop :=
  ∃ year month day hour minute second millisecond,
    make year month day hour minute second millisecond = .ok r

theorem accepted_iff_valid {r : Reading} : r.Accepted ↔ r.Valid := by
  constructor
  · rintro ⟨year, month, day, hour, minute, second, millisecond, h⟩
    exact (make_eq_ok_iff.mp h).2
  · intro h
    exact ⟨_, _, _, _, _, _, _, make_eq_ok_iff.mpr ⟨rfl, h⟩⟩

end Reading

/-! ## Times of day -/

namespace TimeOfDay

theorem Valid.msOfDay_mem {t : TimeOfDay} (h : t.Valid) :
    0 ≤ t.msOfDay ∧ t.msOfDay < msPerDay := by
  obtain ⟨hhour, hminute, hsecond, hmillisecond⟩ := h
  unfold msOfDay msPerDay msPerHour msPerMinute msPerSecond
  omega

theorem ofMsOfDay_msOfDay {t : TimeOfDay} (h : t.Valid) : ofMsOfDay t.msOfDay = t := by
  obtain ⟨hour, minute, second, millisecond⟩ := t
  obtain ⟨hhour, hminute, hsecond, hmillisecond⟩ := h
  simp only at hhour hminute hsecond hmillisecond
  simp only [ofMsOfDay, msOfDay, msPerHour, msPerMinute, msPerSecond, mk.injEq]
  omega

theorem valid_ofMsOfDay {ms : Int} (h : 0 ≤ ms) (h' : ms < msPerDay) : (ofMsOfDay ms).Valid := by
  unfold msPerDay at h'
  simp only [Valid, ofMsOfDay, msPerHour, msPerMinute, msPerSecond]
  omega

theorem msOfDay_ofMsOfDay {ms : Int} (h : 0 ≤ ms) : (ofMsOfDay ms).msOfDay = ms := by
  simp only [ofMsOfDay, msOfDay, msPerHour, msPerMinute, msPerSecond]
  omega

end TimeOfDay

/-! ## Readings -/

namespace Reading

/-- No reading lies more than 500 days outside the valid instants, taken as UTC. -/
theorem Valid.wallMs_mem {r : Reading} (h : r.Valid) :
    -8640043200000000 ≤ r.wallMs ∧ r.wallMs ≤ 8640043286400000 := by
  have hday := h.1.dayNumber_mem
  have htime := h.2.msOfDay_mem
  unfold wallMs
  unfold msPerDay at *
  omega

theorem splitDays_wallMs {r : Reading} (h : r.Valid) :
    splitDays r.wallMs = (r.date.dayNumber, r.time.msOfDay) := by
  have htime := h.2.msOfDay_mem
  unfold splitDays wallMs
  unfold msPerDay at *
  rw [Prod.mk.injEq]
  omega

theorem ofWallMs_wallMs {r : Reading} (h : r.Valid) : ofWallMs r.wallMs = r := by
  rw [ofWallMs, splitDays_wallMs h, h.1.ofDayNumber_dayNumber, TimeOfDay.ofMsOfDay_msOfDay h.2]

theorem wallMs_ofWallMs {ms : Int} (h : -536000000 ≤ ms / msPerDay)
    (h' : ms / msPerDay ≤ 536000000) : (ofWallMs ms).wallMs = ms := by
  have hpos : 0 ≤ ms % msPerDay := Int.emod_nonneg ms (by decide)
  simp only [wallMs, ofWallMs, splitDays]
  rw [dayNumber_ofDayNumber h h', TimeOfDay.msOfDay_ofMsOfDay hpos]
  exact Int.ediv_mul_add_emod ms msPerDay

theorem valid_ofWallMs {ms : Int} (h : -100000050 ≤ ms / msPerDay)
    (h' : ms / msPerDay ≤ 100000050) : (ofWallMs ms).Valid :=
  ⟨valid_ofDayNumber h h', TimeOfDay.valid_ofMsOfDay (Int.emod_nonneg ms (by decide))
    (Int.emod_lt_of_pos ms (by decide))⟩

theorem ofWallMs_eq_iff {r : Reading} (hr : r.Valid) {ms : Int}
    (h : -536000000 ≤ ms / msPerDay) (h' : ms / msPerDay ≤ 536000000) :
    ofWallMs ms = r ↔ ms = r.wallMs := by
  constructor
  · rintro rfl
    exact (wallMs_ofWallMs h h').symm
  · rintro rfl
    exact ofWallMs_wallMs hr

end Reading

end ZoneHistory
