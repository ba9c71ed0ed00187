import Mathlib.Algebra.Order.BigOperators.Group.List
import ZoneHistory.Proofs.ReadingOrder
import ZoneHistory.Proofs.Zone.Exactness

/-!
# How the clock moves on

From one instant to a later one the clock of a zone moves on by the time that passes, and by what
the transitions on the way add to the offset: their changes add up to the difference of the offsets
in effect at the two ends (`offsetAt_sub_offsetAt`), however short the regimes between them are.

So the clock shows a later reading at a later instant, unless it was set back on the way
(`SetBack`). Main statement: `later_reading_unless_set_back`.
-/

namespace ZoneHistory

namespace Zone

/-- The transitions after one instant and up to another one. -/
def transitionsBetween (z : Zone) (s t : Instant) : List (Regime × Regime) :=
  z.transitions.filter fun transition =>
    decide (s < transition.2.start) && decide (transition.2.start ≤ t)

/-- What a transition adds to the offset, in milliseconds. -/
def offsetChange (transition : Regime × Regime) : Int :=
  transition.2.total.ms - transition.1.total.ms

/-- A transition after the one instant and up to the other lowers the total offset. -/
def SetBack (z : Zone) (s t : Instant) : Prop :=
  ∃ before after, (before, after) ∈ z.transitions ∧ s < after.start ∧ after.start ≤ t ∧
    after.total.ms < before.total.ms

theorem mem_transitionsBetween {z : Zone} {s t : Instant} {before after : Regime} :
    (before, after) ∈ z.transitionsBetween s t ↔
      (before, after) ∈ z.transitions ∧ s < after.start ∧ after.start ≤ t := by
  simp only [transitionsBetween, List.mem_filter, Bool.and_eq_true, decide_eq_true_eq]

theorem setBack_iff {z : Zone} {s t : Instant} :
    z.SetBack s t ↔ ∃ transition ∈ z.transitionsBetween s t, offsetChange transition < 0 := by
  constructor
  · rintro ⟨before, after, htransition, hfrom, hto, hlt⟩
    exact ⟨_, mem_transitionsBetween.mpr ⟨htransition, hfrom, hto⟩, Int.sub_neg_of_lt hlt⟩
  · rintro ⟨⟨before, after⟩, hmem, hlt⟩
    obtain ⟨htransition, hfrom, hto⟩ := mem_transitionsBetween.mp hmem
    exact ⟨before, after, htransition, hfrom, hto, Int.lt_of_sub_neg hlt⟩

instance (z : Zone) (s t : Instant) : Decidable (z.SetBack s t) :=
  decidable_of_iff _ setBack_iff.symm

theorem transitionsBetween_cons (name : String) (first next : Regime) (rest : List Regime)
    (s t : Instant) :
    (Zone.mk name first (next :: rest)).transitionsBetween s t =
      if s < next.start ∧ next.start ≤ t then
        (first, next) :: (Zone.mk name next rest).transitionsBetween s t
      else (Zone.mk name next rest).transitionsBetween s t := by
  simp only [transitionsBetween, transitions_cons, List.filter_cons, Bool.and_eq_true,
    decide_eq_true_eq]

/-! ## The offsets at two instants -/

/-- The changes on the way from one instant to a later one telescope. -/
theorem offsetAt_sub_offsetAt {s t : Instant} (h : s ≤ t) : ∀ {z : Zone}, z.WellFormed →
    (z.offsetAt t).ms - (z.offsetAt s).ms = ((z.transitionsBetween s t).map offsetChange).sum
  | ⟨name, first, []⟩, _ => Int.sub_self _
  | ⟨name, first, next :: rest⟩, hz => by
      have hrest := offsetAt_sub_offsetAt h hz.tail
      rw [transitionsBetween_cons]
      simp only [offsetAt, regimeAt_cons] at hrest ⊢
      by_cases hs : next.start ≤ s
      · have ht : next.start ≤ t := Int.le_trans hs h
        rw [if_pos hs, if_pos ht, if_neg fun hmid => absurd hs (Int.not_le.mpr hmid.1), hrest]
      · -- at the first instant the rest of the history has not begun
        have hlt : s < next.start := Int.not_le.mp hs
        have hfirst : (Zone.mk name next rest).regimeAt s = next := regimeAt_of_lt_start hz.tail hlt
        rw [hfirst] at hrest
        by_cases ht : next.start ≤ t
        · have hchange : offsetChange (first, next) = next.total.ms - first.total.ms := rfl
          rw [if_neg hs, if_pos ht, if_pos ⟨hlt, ht⟩, List.map_cons, List.sum_cons, ← hrest,
            hchange]
          omega
        · have hlast : (Zone.mk name next rest).regimeAt t = next :=
            regimeAt_of_lt_start hz.tail (Int.not_le.mp ht)
          rw [hlast] at hrest
          rw [if_neg hs, if_neg ht, if_neg fun hmid => ht hmid.2, ← hrest]
          omega

theorem offsetAt_le_of_not_setBack {z : Zone} (hz : z.WellFormed) {s t : Instant} (h : s ≤ t)
    (hback : ¬z.SetBack s t) : (z.offsetAt s).ms ≤ (z.offsetAt t).ms := by
  have hsum : 0 ≤ ((z.transitionsBetween s t).map offsetChange).sum := by
    refine List.sum_nonneg fun change hchange => ?_
    obtain ⟨transition, hmem, rfl⟩ := List.mem_map.mp hchange
    exact Int.not_lt.mp fun hlt => hback (setBack_iff.mpr ⟨transition, hmem, hlt⟩)
  rw [← offsetAt_sub_offsetAt h hz] at hsum
  exact Int.sub_nonneg.mp hsum

/-! ## The readings at two instants -/

theorem wallMs_readingAt_sub {z : Zone} (hz : z.WellFormed) {s t : Instant} (hs : s.Valid)
    (ht : t.Valid) :
    (z.readingAt t).wallMs - (z.readingAt s).wallMs =
      t.ms - s.ms + ((z.offsetAt t).ms - (z.offsetAt s).ms) := by
  rw [wallMs_readingAt hz hs, wallMs_readingAt hz ht]
  omega

theorem wallMs_readingAt_lt {z : Zone} (hz : z.WellFormed) {s t : Instant} (hs : s.Valid)
    (ht : t.Valid) (h : s < t) (hback : ¬z.SetBack s t) :
    (z.readingAt s).wallMs < (z.readingAt t).wallMs := by
  have hsub := wallMs_readingAt_sub hz hs ht
  have hoffset := offsetAt_le_of_not_setBack hz (Int.le_of_lt h) hback
  rw [Instant.lt_def] at h
  omega

/-- Of two valid instants the later one has the later reading, unless a transition on the way
lowers the offset; so where the clock shows at a later instant what it has shown before, or an
earlier reading, it was set back in between. The readings are as far apart as the instants and the
offsets in effect together. -/
theorem later_reading_unless_set_back {z : Zone} (hz : z.Accepted) (s t : Instant) (hs : s.Valid)
    (ht : t.Valid) :
    ∃ a b, z.toReading s = .ok a ∧ z.toReading t = .ok b ∧
      b.wallMs - a.wallMs = t.ms - s.ms + ((z.offsetAt t).ms - (z.offsetAt s).ms) ∧
      (s < t → (¬z.SetBack s t → a.compare b = .lt) ∧
        ((b.compare a).isLE = true → z.SetBack s t)) := by
  rw [accepted_iff_wellFormed] at hz
  refine ⟨_, _, if_pos hs, if_pos ht, wallMs_readingAt_sub hz hs ht, fun h => ?_⟩
  have ha := valid_readingAt hz hs
  have hb := valid_readingAt hz ht
  have hlt := wallMs_readingAt_lt hz hs ht h
  constructor
  · intro hback
    rw [ha.compare_eq_compare_wallMs hb]
    exact compare_lt_iff_lt.mpr (hlt hback)
  · intro hle
    by_contra hback
    rw [hb.compare_eq_compare_wallMs ha, compare_gt_iff_gt.mpr (hlt hback)] at hle
    cases hle

/-- At 01:00 the clock is set forward by two hours and at 02:00 back by one. It shows 03:45 at
01:45, which is later than at midnight, and 03:30 at 02:30. -/
theorem reading_shown_before_and_after_set_back :
    let z := ofChanges ⟨0⟩ [(⟨3600000⟩, ⟨120⟩), (⟨7200000⟩, ⟨60⟩)]
    let midnight : Reading := ⟨⟨1970, 1, 1⟩, ⟨0, 0, 0, 0⟩⟩
    let ahead : Reading := ⟨⟨1970, 1, 1⟩, ⟨3, 45, 0, 0⟩⟩
    let behind : Reading := ⟨⟨1970, 1, 1⟩, ⟨3, 30, 0, 0⟩⟩
    z.Accepted ∧ z.toReading ⟨0⟩ = .ok midnight ∧ z.toReading ⟨6300000⟩ = .ok ahead ∧
      z.toReading ⟨9000000⟩ = .ok behind ∧ ¬z.SetBack ⟨0⟩ ⟨6300000⟩ ∧
      midnight.compare ahead = .lt ∧ z.SetBack ⟨6300000⟩ ⟨9000000⟩ := by
  intro z midnight ahead behind
  have hz : z.Accepted := by decide
  have hmidnight : z.toReading ⟨0⟩ = .ok midnight := by decide +kernel
  have hahead : z.toReading ⟨6300000⟩ = .ok ahead := by decide +kernel
  have hbehind : z.toReading ⟨9000000⟩ = .ok behind := by decide +kernel
  have hnone : ¬z.SetBack ⟨0⟩ ⟨6300000⟩ := by decide
  obtain ⟨a, b, ha, hb, -, hforward⟩ :=
    later_reading_unless_set_back hz ⟨0⟩ ⟨6300000⟩ (by decide) (by decide)
  obtain ⟨c, d, hc, hd, -, hbackward⟩ :=
    later_reading_unless_set_back hz ⟨6300000⟩ ⟨9000000⟩ (by decide) (by decide)
  obtain rfl := Except.ok.inj (hmidnight.symm.trans ha)
  obtain rfl := Except.ok.inj (hahead.symm.trans hb)
  obtain rfl := Except.ok.inj (hahead.symm.trans hc)
  obtain rfl := Except.ok.inj (hbehind.symm.trans hd)
  exact ⟨hz, hmidnight, hahead, hbehind, hnone, (hforward (by decide)).1 hnone,
    (hbackward (by decide)).2 (by decide)⟩

end Zone

end ZoneHistory
