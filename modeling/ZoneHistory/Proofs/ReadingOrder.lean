import Mathlib.Order.Compare
import ZoneHistory.Proofs.Calendar.Succession
import ZoneHistory.Proofs.WallTime

/-!
# The order of readings

Readings are compared field by field, the year first and the millisecond last. On valid readings
this is the order of the milliseconds on the wall clock, and so of the instants they name as UTC
(`Reading.compare_eq_compare_wallMs`).

A field decides the comparison because the fields after it together count less than one unit of
it. For the fields of the time that is plain arithmetic. For dates it holds since the months follow
each other without an overlap: with the months of all years in one row, the last day of a month
comes before the first of any later month (`firstOfMonth_add_length_le`).
-/

namespace ZoneHistory

/-! ## One field after another -/

/-- A first field decides an order of numbers if a smaller one means a smaller number; if the first
fields are equal, the rest has to decide it. -/
theorem compare_then_eq {α : Type} [LinearOrder α] {a b : α} {x y : Int} {rest : Ordering}
    (hlt : a < b → x < y) (hgt : b < a → y < x) (heq : a = b → rest = Ord.compare x y) :
    (Ord.compare a b).then rest = Ord.compare x y := by
  rcases lt_trichotomy a b with h | h | h
  · rw [compare_lt_iff_lt.mpr h, compare_lt_iff_lt.mpr (hlt h)]
    rfl
  · rw [compare_eq_iff_eq.mpr h]
    exact heq h
  · rw [compare_gt_iff_gt.mpr h, compare_gt_iff_gt.mpr (hgt h)]
    rfl

/-- The last field decides what the fields before it have left open. -/
theorem compare_eq_compare {α : Type} [LinearOrder α] {a b : α} {x y : Int}
    (hlt : a < b → x < y) (hgt : b < a → y < x) (heq : a = b → x = y) :
    Ord.compare a b = Ord.compare x y := by
  rw [← @Ordering.then_eq (Ord.compare a b)]
  exact compare_then_eq hlt hgt fun h => (compare_eq_iff_eq.mpr (heq h)).symm

theorem compare_natCast (m n : Nat) : Ord.compare (m : Int) n = Ord.compare m n :=
  (compare_eq_compare (by omega) (by omega) (by omega)).symm

namespace Calendar

/-! ## Dates -/

/-- The first day of a month, where the months are numbered on from January of the year 0. -/
def firstOfMonth (k : Int) : Int :=
  dayNumber (k / 12) ((k % 12).toNat + 1) 1

def lengthOfMonth (k : Int) : Nat :=
  daysInMonth (k / 12) ((k % 12).toNat + 1)

/-- The number of the month that a date lies in. -/
def Date.monthCount (d : Date) : Int :=
  12 * d.year + d.month - 1

theorem firstOfMonth_succ {k : Int} (h : 12 * (-400 * shiftCycles + 1) ≤ k) :
    firstOfMonth (k + 1) = firstOfMonth k + lengthOfMonth k := by
  unfold firstOfMonth lengthOfMonth
  rcases Nat.lt_or_ge (k % 12).toNat 11 with hlt | hge
  · rw [show (k + 1) / 12 = k / 12 by omega,
      show ((k + 1) % 12).toNat = (k % 12).toNat + 1 by omega]
    exact dayNumber_succ_month (by omega) (by omega) (by omega)
  · rw [show (k + 1) / 12 = k / 12 + 1 by omega, show ((k + 1) % 12).toNat = 0 by omega,
      show (k % 12).toNat = 11 by omega]
    exact dayNumber_succ_year (by omega)

/-- A month is over before any later month begins. -/
theorem firstOfMonth_add_length_le {j k : Int} (h : 12 * (-400 * shiftCycles + 1) ≤ j)
    (hlt : j < k) : firstOfMonth j + lengthOfMonth j ≤ firstOfMonth k := by
  induction k, Int.add_one_le_of_lt hlt using Int.leInduction with
  | base => rw [firstOfMonth_succ h]
  | succ k hk ih =>
      have hle := ih (by omega)
      rw [firstOfMonth_succ (by omega)]
      omega

theorem Date.Proper.monthCount_eq {d : Date} (h : d.Proper) :
    d.monthCount / 12 = d.year ∧ (d.monthCount % 12).toNat + 1 = d.month := by
  have h1 := h.month_pos
  have h12 := h.month_le
  unfold monthCount
  omega

/-- A proper date is a day of its month, counted from the first. -/
theorem Date.Proper.dayNumber_eq {d : Date} (h : d.Proper) :
    d.dayNumber = firstOfMonth d.monthCount + (d.day - 1) ∧
      1 ≤ d.day ∧ d.day ≤ lengthOfMonth d.monthCount := by
  obtain ⟨hyear, hmonth⟩ := h.monthCount_eq
  have hpos := h.day_pos
  rw [firstOfMonth, lengthOfMonth, hyear, hmonth, h.dayNumber_eq_first]
  exact ⟨by omega, hpos, h.day_le⟩

theorem Date.Valid.dayNumber_lt {a b : Date} (ha : a.Valid) (hb : b.Valid)
    (h : a.monthCount < b.monthCount) : a.dayNumber < b.dayNumber := by
  obtain ⟨hday, -, hle⟩ := ha.proper.dayNumber_eq
  obtain ⟨hday', hpos', -⟩ := hb.proper.dayNumber_eq
  have hfirst : firstYear = -271821 := rfl
  have hshift : shiftCycles = 3670 := rfl
  have hyear := ha.1
  have hmonth := ha.proper.month_pos
  have hover := firstOfMonth_add_length_le (j := a.monthCount) (k := b.monthCount)
    (by unfold monthCount; omega) h
  omega

theorem Date.Valid.compare_eq_compare_dayNumber {a b : Date} (ha : a.Valid) (hb : b.Valid) :
    a.compare b = Ord.compare a.dayNumber b.dayNumber := by
  have ha1 := ha.proper.month_pos
  have ha12 := ha.proper.month_le
  have hb1 := hb.proper.month_pos
  have hb12 := hb.proper.month_le
  -- an earlier year or, in the same year, an earlier month is an earlier month of the row
  refine compare_then_eq
    (fun h => ha.dayNumber_lt hb (by unfold monthCount; omega))
    (fun h => hb.dayNumber_lt ha (by unfold monthCount; omega)) fun hyear => ?_
  refine compare_then_eq
    (fun h => ha.dayNumber_lt hb (by unfold monthCount; omega))
    (fun h => hb.dayNumber_lt ha (by unfold monthCount; omega)) fun hmonth => ?_
  have hcount : a.monthCount = b.monthCount := by
    unfold monthCount
    omega
  obtain ⟨hday, -, -⟩ := ha.proper.dayNumber_eq
  obtain ⟨hday', -, -⟩ := hb.proper.dayNumber_eq
  rw [hcount] at hday
  exact compare_eq_compare (by omega) (by omega) (by omega)

end Calendar

/-! ## Times of day -/

theorem TimeOfDay.Valid.compare_eq_compare_msOfDay {a b : TimeOfDay} (ha : a.Valid)
    (hb : b.Valid) : a.compare b = Ord.compare a.msOfDay b.msOfDay := by
  obtain ⟨-, hminute, hsecond, hmillisecond⟩ := ha
  obtain ⟨-, hminute', hsecond', hmillisecond'⟩ := hb
  unfold msOfDay msPerHour msPerMinute msPerSecond
  refine compare_then_eq (by omega) (by omega) fun hhour => ?_
  refine compare_then_eq (by omega) (by omega) fun hminutes => ?_
  refine compare_then_eq (by omega) (by omega) fun hseconds => ?_
  exact compare_eq_compare (by omega) (by omega) (by omega)

/-! ## Readings -/

namespace Reading

/-- The fields of a reading in the order in which they are compared. -/
def fields (r : Reading) : List Int :=
  [r.date.year, r.date.month, r.date.day, r.time.hour, r.time.minute, r.time.second,
    r.time.millisecond]

theorem compare_eq_compare_fields (a b : Reading) :
    a.compare b = Ord.compare a.fields b.fields := by
  change (a.date.compare b.date).then (a.time.compare b.time) =
    List.compareLex Ord.compare a.fields b.fields
  simp only [fields, List.compareLex_cons_cons, List.compareLex_nil_nil, compare_natCast,
    Ordering.then_eq, Calendar.Date.compare, TimeOfDay.compare, Ordering.then_assoc]

/-- The time of day counts less than one day, so the date decides first. -/
theorem Valid.compare_eq_compare_wallMs {a b : Reading} (ha : a.Valid) (hb : b.Valid) :
    a.compare b = Ord.compare a.wallMs b.wallMs := by
  obtain ⟨hpos, hlt⟩ := ha.2.msOfDay_mem
  obtain ⟨hpos', hlt'⟩ := hb.2.msOfDay_mem
  rw [compare, ha.1.compare_eq_compare_dayNumber hb.1, ha.2.compare_eq_compare_msOfDay hb.2]
  unfold wallMs
  unfold msPerDay at *
  refine compare_then_eq (by omega) (by omega) fun hday => ?_
  exact compare_eq_compare (by omega) (by omega) (by omega)

theorem Valid.wallMs_inj {a b : Reading} (ha : a.Valid) (hb : b.Valid) :
    a.wallMs = b.wallMs ↔ a = b := by
  constructor
  · intro h
    rw [← ofWallMs_wallMs ha, h, ofWallMs_wallMs hb]
  · rintro rfl
    rfl

/-- Readings and milliseconds on the wall clock are one order. Accepted readings compare by their
fields as they do by their milliseconds and by their instants, and are equal where those are; each
comes back from its milliseconds. And all milliseconds within 536 000 000 days of 1970, before it
too, belong to a reading with a proper date, which comes out of machine words as it is, and a valid
time. -/
theorem wallMs_orders_readings :
    (∀ a b : Reading, a.Accepted → b.Accepted →
      a.compare b = Ord.compare a.fields b.fields ∧
      a.compare b = Ord.compare a.wallMs b.wallMs ∧
      (a.compare b = .lt ↔ a.toInstantUtc < b.toInstantUtc) ∧
      (a.compare b = .eq ↔ a = b) ∧
      (a.wallMs = b.wallMs ↔ a = b) ∧
      (a.toInstantUtc = b.toInstantUtc ↔ a = b)) ∧
    (∀ r : Reading, r.Accepted → ofWallMs r.wallMs = r) ∧
    ∀ ms, -536000000 ≤ (splitDays ms).1 → (splitDays ms).1 ≤ 536000000 →
      Calendar.Date.inWords? (splitDays ms).1 = some (ofWallMs ms).date ∧
      (ofWallMs ms).date.Proper ∧ (ofWallMs ms).time.Valid ∧ (ofWallMs ms).wallMs = ms := by
  refine ⟨fun a b ha hb => ?_, fun r hr => ofWallMs_wallMs (accepted_iff_valid.mp hr),
    fun ms h h' => ?_⟩
  · have ha := accepted_iff_valid.mp ha
    have hb := accepted_iff_valid.mp hb
    have horder := ha.compare_eq_compare_wallMs hb
    have hinj := ha.wallMs_inj hb
    refine ⟨compare_eq_compare_fields a b, horder, ?_, ?_, hinj, ?_⟩
    · rw [horder]
      exact compare_lt_iff_lt
    · rw [horder, compare_eq_iff_eq, hinj]
    · rw [toInstantUtc, toInstantUtc, Instant.mk.injEq, hinj]
  · exact ⟨Calendar.Date.inWords?_eq h h', Calendar.proper_ofDayNumber h h',
      TimeOfDay.valid_ofMsOfDay (Int.emod_nonneg ms (by decide))
        (Int.emod_lt_of_pos ms (by decide)), wallMs_ofWallMs h h'⟩

/-- The last millisecond of the leap day of the year -4 and the midnight after it, and the last
millisecond before 1970. -/
theorem leap_day_ends_before_march :
    let a : Reading := ⟨⟨-4, 2, 29⟩, ⟨23, 59, 59, 999⟩⟩
    let b : Reading := ⟨⟨-4, 3, 1⟩, ⟨0, 0, 0, 0⟩⟩
    a.compare b = .lt ∧ a.toInstantUtc < b.toInstantUtc ∧ ofWallMs a.wallMs = a ∧
      ofWallMs (-1) = ⟨⟨1969, 12, 31⟩, ⟨23, 59, 59, 999⟩⟩ ∧ (ofWallMs (-1)).wallMs = -1 := by
  intro a b
  have ha : a.Accepted := ⟨-4, 2, 29, 23, 59, 59, 999, by decide⟩
  have hb : b.Accepted := ⟨-4, 3, 1, 0, 0, 0, 0, by decide⟩
  obtain ⟨hreadings, hback, hms⟩ := wallMs_orders_readings
  obtain ⟨-, -, hlt, -⟩ := hreadings a b ha hb
  have hcompare : a.compare b = .lt := by decide
  obtain ⟨-, -, -, hwall⟩ := hms (-1) (by decide) (by decide)
  exact ⟨hcompare, hlt.mp hcompare, hback a ha, by decide +kernel, hwall⟩

end Reading

end ZoneHistory
