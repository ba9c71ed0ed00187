import ZoneHistory.Proofs.Calendar.DayCount

/-!
# Counting days in machine words

`Date.ofDayNumber` cuts its first sum to 32 bits and takes all further steps with numbers of any
size. `Date.inWords?` takes the same steps in unsigned words and gives no date if the outcome of
one of them does not fit. Within 536 000 000 days of day 0 all of them do, so the cut takes
nothing away and the dates agree (`Date.inWords?_eq`).
-/

namespace ZoneHistory.Calendar

/-- The number as an unsigned word, if it fits. -/
def word? (bits : Nat) (n : Int) : Option Nat :=
  if 0 ≤ n ∧ n < 2 ^ bits then some n.toNat else none

/-- The date of a day of a year that begins in March, unless a step on the way does not fit. -/
def ofMarchInWords? (century yearOfCentury day : Nat) : Option Date := do
  let scaledDay ← word? 32 (2141 * day)
  let scaled ← word? 32 (scaledDay + 197913)
  let carry := if 306 ≤ day then 1 else 0
  let years ← word? 32 (100 * century)
  let year ← word? 32 (years + yearOfCentury + carry)
  let month ← word? 8 (scaled / 65536 - 12 * carry)
  let day ← word? 8 (scaled % 65536 / 2141 + 1)
  return ⟨year - 400 * shiftCycles, month, day⟩

/-- The date of a day, unless a step on the way does not fit its word. -/
def Date.inWords? (n : Int) : Option Date := do
  let shifted ← word? 32 (n + shiftDays)
  let fourfold ← word? 32 (4 * shifted)
  let quarters ← word? 32 (fourfold + 3)
  let quartersOfCentury := quarters % daysPerCycle / 4 * 4 + 3
  let product ← word? 64 (376287347 * quartersOfCentury)
  let yearOfCentury ← word? 32 (product / 549755813888)
  let quartersOfYears ← word? 32 (1461 * yearOfCentury)
  let quartersOfYear ← word? 32 (quartersOfCentury - quartersOfYears)
  ofMarchInWords? (quarters / daysPerCycle) yearOfCentury (quartersOfYear / 4)

/-- A step whose outcome fits is taken. -/
theorem word?_bind {α : Type} {bits : Nat} {n : Int} {f : Nat → Option α} (m : Nat) (hn : n = m)
    (hlt : m < 2 ^ bits) : (word? bits n >>= f) = f m := by
  have hfits : 0 ≤ n ∧ n < 2 ^ bits := by
    rw [hn]
    exact ⟨Int.natCast_nonneg m, by exact_mod_cast hlt⟩
  rw [word?, if_pos hfits, hn, Int.toNat_natCast]
  rfl

theorem ofMarchInWords?_eq {century yearOfCentury day : Nat} (hcentury : century ≤ 29375)
    (hyear : yearOfCentury < 100) (hday : day < 366) :
    ofMarchInWords? century yearOfCentury day =
      some (ofMarch (100 * century + yearOfCentury) day) := by
  obtain ⟨h3, h14⟩ := marchMonth_mem hday
  have hcarry := le_marchMonth_iff hday
  rw [ofMarchInWords?]
  rw [word?_bind (2141 * day) (by omega) (by omega),
    word?_bind (2141 * day + 197913) (by omega) (by omega)]
  rcases Nat.lt_or_ge day 306 with hlt | hge
  · rw [ofMarch_of_lt hlt, if_neg (Nat.not_le_of_lt hlt)]
    rw [word?_bind (100 * century) (by omega) (by omega),
      word?_bind (100 * century + yearOfCentury) (by omega) (by omega),
      word?_bind (marchMonth day) (by unfold marchMonth; omega) (by omega),
      word?_bind (dayOfMonth day + 1) (by unfold dayOfMonth; omega) (by unfold dayOfMonth; omega)]
    rfl
  · rw [ofMarch_of_le hge, if_pos hge]
    rw [word?_bind (100 * century) (by omega) (by omega),
      word?_bind (100 * century + yearOfCentury + 1) (by omega) (by omega),
      word?_bind (marchMonth day - 12) (by unfold marchMonth; omega) (by omega),
      word?_bind (dayOfMonth day + 1) (by unfold dayOfMonth; omega) (by unfold dayOfMonth; omega)]
    rfl

theorem Date.inWords?_eq {n : Int} (h : -536000000 ≤ n) (h' : n ≤ 536000000) :
    Date.inWords? n = some (Date.ofDayNumber n) := by
  have hshift : shiftDays = 536895458 := rfl
  obtain ⟨shifted, hshifted⟩ : ∃ shifted : Nat, n + shiftDays = shifted :=
    ⟨(n + shiftDays).toNat, by omega⟩
  have hcut : ((n + shiftDays) % 4294967296).toNat = shifted := by omega
  have hquarters : (4 * shifted + 3) % daysPerCycle / 4 * 4 + 3 = 4 * dayOfCentury shifted + 3 := by
    unfold dayOfCentury
    omega
  have hcentury : centuryOf shifted ≤ 29375 := by
    unfold centuryOf daysPerCycle
    omega
  have hday := dayOfCentury_lt shifted
  have hyear := yearOfCentury_lt hday
  have hyearShifted := yearOfCentury_eq_shifted hday
  have hyearDay : dayOfYear (dayOfCentury shifted) < 366 := by
    unfold dayOfYear
    omega
  rw [ofDayNumber_eq, hcut, Date.inWords?]
  rw [word?_bind shifted hshifted (by omega), word?_bind (4 * shifted) (by omega) (by omega),
    word?_bind (4 * shifted + 3) (by omega) (by omega)]
  dsimp only
  rw [hquarters]
  rw [word?_bind (376287347 * (4 * dayOfCentury shifted + 3)) (by omega) (by omega),
    word?_bind (yearOfCentury (dayOfCentury shifted)) (by omega) (by omega),
    word?_bind (1461 * yearOfCentury (dayOfCentury shifted)) (by omega) (by omega),
    word?_bind ((4 * dayOfCentury shifted + 3) % 1461) (by unfold yearOfCentury; omega) (by omega)]
  exact ofMarchInWords?_eq hcentury hyear hyearDay

end ZoneHistory.Calendar
