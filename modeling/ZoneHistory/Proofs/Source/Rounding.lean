import ZoneHistory.Proofs.Source.Columns

/-!
# Seconds and minutes of an amount

A text stands for the same amount in each column that it may be in, but the amount counts
in two ways: in seconds at an end, and in minutes as an offset. The minutes ought to be the
nearest to the seconds, and halves away from zero (`IsNearestMinute`).

So they are, unless the hours have a minus sign of their own. Seconds then go by both signs
and minutes by the one in front, so that the minutes are the nearest to the opposite of the
seconds. `Amount.RoundsTo` says which of the two holds (`Amount.WellFormed.roundsTo_offset`),
and `Amount.offset_of_parse` tells where this matters.
-/

namespace ZoneHistory.Source

open Parse

/-- Any other number of minutes is further from the seconds, or equally far and closer to zero. -/
def IsNearestMinute (seconds minutes : Int) : Prop :=
  ∀ n : Int, n ≠ minutes → (60 * minutes - seconds).natAbs < (60 * n - seconds).natAbs ∨
    (60 * minutes - seconds).natAbs = (60 * n - seconds).natAbs ∧ n.natAbs < minutes.natAbs

/-- The minutes next to a number of minutes are all that matters. -/
theorem isNearestMinute_iff {seconds minutes : Int} : IsNearestMinute seconds minutes ↔
    (60 * minutes - seconds).natAbs ≤ 30 ∧
      ((60 * minutes - seconds).natAbs = 30 → seconds.natAbs < (60 * minutes).natAbs) := by
  constructor
  · intro h
    have hup := h (minutes + 1) (by omega)
    have hdown := h (minutes - 1) (by omega)
    omega
  · intro h n hn
    omega

/-- A size is rounded to the nearest minute on either side of zero. -/
theorem isNearestMinute_of_size (size : Nat) {sign : Int} (h : sign = 1 ∨ sign = -1) :
    IsNearestMinute (size * sign) (((size + 30) / 60 : Nat) * sign) := by
  rw [isNearestMinute_iff]
  rcases h with rfl | rfl
  · omega
  · omega

namespace Amount

variable {a : Amount} {text : String} {c : Context}

/-- The offset is the nearest minute to the amount, if the hours have no sign of their own. If
they have one, both signs make the seconds positive, and the offset is the nearest minute to the
opposite of them. -/
structure RoundsTo (a : Amount) (o : Offset) : Prop where
  unsigned : 0 ≤ a.hour → IsNearestMinute a.seconds o.minutes
  signed : a.hour < 0 → IsNearestMinute (-a.seconds) o.minutes

/-! ## Two signs -/

theorem sign_eq_or (a : Amount) : a.sign = 1 ∨ a.sign = -1 := by
  rw [sign]
  cases a.negative with
  | false => exact .inl rfl
  | true => exact .inr rfl

theorem seconds_eq_of_hour (hhour : 0 ≤ a.hour) : a.seconds = a.seconds.natAbs * a.sign := by
  rw [seconds]
  rcases a.sign_eq_or with hsign | hsign <;> rw [hsign] <;> omega

theorem WellFormed.sign_of_hour (h : a.WellFormed) (hhour : a.hour < 0) : a.sign = -1 := by
  have hnegative : a.negative = true := by
    refine Bool.not_eq_false _ ▸ fun hpositive => ?_
    have hnonneg := h.positive hpositive
    omega
  rw [sign, hnegative]
  rfl

theorem WellFormed.seconds_pos (h : a.WellFormed) (hhour : a.hour < 0) : 0 < a.seconds := by
  have hminute := h.minute
  have hsecond := h.second
  rw [seconds, h.sign_of_hour hhour]
  omega

theorem WellFormed.neg_seconds_eq (h : a.WellFormed) (hhour : a.hour < 0) :
    -a.seconds = a.seconds.natAbs * a.sign := by
  have hpositive := h.seconds_pos hhour
  rw [h.sign_of_hour hhour]
  omega

theorem WellFormed.roundsTo_offset (h : a.WellFormed) : a.RoundsTo a.offset := by
  have hsize := isNearestMinute_of_size a.seconds.natAbs a.sign_eq_or
  refine ⟨fun hhour => ?_, fun hhour => ?_⟩
  · rwa [← seconds_eq_of_hour hhour] at hsize
  · rwa [← h.neg_seconds_eq hhour] at hsize

theorem WellFormed.isNearestMinute_iff (h : a.WellFormed) :
    IsNearestMinute a.seconds a.offset.minutes ↔ 0 ≤ a.hour ∨ a.seconds.natAbs < 30 := by
  rw [Source.isNearestMinute_iff]
  rcases Int.lt_or_le a.hour 0 with hhour | hhour
  · have hpositive := h.seconds_pos hhour
    have hopposite := h.roundsTo_offset.signed hhour
    rw [Source.isNearestMinute_iff] at hopposite
    omega
  · have hnearest := h.roundsTo_offset.unsigned hhour
    rw [Source.isNearestMinute_iff] at hnearest
    omega

theorem WellFormed.sign_iff (h : a.WellFormed) (hne : a.offset.minutes ≠ 0) :
    a.offset.minutes.sign = a.seconds.sign ↔ 0 ≤ a.hour := by
  rcases Int.lt_or_le a.hour 0 with hhour | hhour
  · have hpositive := h.seconds_pos hhour
    have hopposite := h.roundsTo_offset.signed hhour
    rw [Source.isNearestMinute_iff] at hopposite
    rw [Int.sign_eq_one_of_pos hpositive, Int.sign_eq_one_iff_pos]
    omega
  · have hnearest := h.roundsTo_offset.unsigned hhour
    rw [Source.isNearestMinute_iff] at hnearest
    refine iff_of_true ?_ hhour
    rcases Int.lt_or_gt_of_ne hne with hlt | hgt
    · rw [Int.sign_eq_neg_one_of_neg hlt, Int.sign_eq_neg_one_of_neg (by omega)]
    · rw [Int.sign_eq_one_of_pos hgt, Int.sign_eq_one_of_pos (by omega)]

theorem Spelled.twice_minus {cs : List Char} (h : a.Spelled cs) (hhour : a.hour < 0) :
    "--".toList <+: cs := by
  cases h with
  | positive h hhead => exact absurd (h.head?_of_neg hhour) hhead
  | negative h =>
      obtain ⟨rest, rfl⟩ := List.head?_eq_some_iff.mp (h.head?_of_neg hhour)
      exact ⟨rest, rfl⟩

/-! ## One text in several columns -/

/-- A text that is read as an amount stands for that amount as a time of day too, and as a daylight
saving amount if a digit comes after the minus signs. The offset is the nearest minute to the
seconds and has their sign, unless the hours have a minus sign of their own. -/
theorem offset_of_parse (h : (Amount.parse text c).1 = .ok a) :
    ((∀ d, (ClockTime.parse text d).1 = .ok ⟨.wall, a⟩) ∧
      ∀ d, (parseSaving text d).1 = .ok (some a) ↔ StartsNumeric text.toList) ∧
    (IsNearestMinute a.seconds a.offset.minutes ↔ 0 ≤ a.hour ∨ a.seconds.natAbs < 30) ∧
    (a.offset.minutes ≠ 0 → (a.offset.minutes.sign = a.seconds.sign ↔ 0 ≤ a.hour)) ∧
    (a.hour < 0 → "--".toList <+: text.toList ∧
      IsNearestMinute (-a.seconds) a.offset.minutes) := by
  obtain ⟨hwf, hspelled⟩ := (reads_amount text c a).mp h
  refine ⟨⟨fun d => ?_, fun d => ?_⟩, hwf.isNearestMinute_iff, hwf.sign_iff, fun hhour => ?_⟩
  · exact (ClockTime.reads_clockTime text d ⟨.wall, a⟩).mpr ⟨hwf, .wall hspelled⟩
  · rw [reads_saving text d (some a)]
    constructor
    · rintro ⟨-, hsaving⟩
      cases hsaving with
      | amount _ hstarts => exact hstarts
    · intro hstarts
      refine ⟨?_, .amount hspelled hstarts⟩
      rintro _ ⟨⟩
      exact hwf
  · exact ⟨hspelled.twice_minus hhour, hwf.roundsTo_offset.signed hhour⟩

/-- Half a minute more to the west counts as one. -/
theorem offset_rounded_away_from_zero :
    (Amount.parse "-5:50:30" .initial).1 = .ok ⟨true, 5, 50, 30⟩ ∧
      IsNearestMinute (-21030) (-351) := by
  have hparse : (Amount.parse "-5:50:30" .initial).1 = .ok ⟨true, 5, 50, 30⟩ := by
    decide +kernel
  obtain ⟨-, hnearest, -⟩ := offset_of_parse hparse
  exact ⟨hparse, hnearest.mpr (Or.inl (by decide))⟩

/-- With two minus signs, five hours are after midnight as a time and to the west as an offset. -/
theorem offset_of_two_signs :
    let a : Amount := ⟨true, -5, 0, 0⟩
    (Amount.parse "--5" .initial).1 = .ok a ∧ a.seconds = 18000 ∧ a.offset.minutes = -300 ∧
      ¬IsNearestMinute a.seconds a.offset.minutes := by
  intro a
  refine ⟨by decide +kernel, by decide, by decide, fun h => ?_⟩
  exact absurd (isNearestMinute_iff.mp h).1 (by decide)

end Amount

end ZoneHistory.Source
