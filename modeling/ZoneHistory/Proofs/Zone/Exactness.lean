import ZoneHistory.Proofs.Calendar.Words
import ZoneHistory.Proofs.Zone.Transitions

/-!
# Conversions are exact

Main statement: the conversions of an accepted zone never reach the limits of their numbers
(`conversions_exact`). Every valid instant has a reading with a valid date and time, which is the
instant and the offset in effect added up. Resolving a valid reading takes no sum that leaves 64
bits and no day whose date would not fit its words (`ResolvesExactly`).

Three bounds carry this. A valid reading lies within 500 days of the valid instants
(`Reading.Valid.wallMs_mem`), an offset is shorter than a day (`WellFormed.widestMs_lt`), and only
the first regime may start at the beginning of time, so every transition is at a valid instant
(`WellFormed.start_valid`).
-/

namespace ZoneHistory

open Calendar

/-- The number is one of 64 bits. -/
def Fits (ms : Int) : Prop :=
  Instant.leastMs ≤ ms ∧ ms ≤ Instant.greatestMs

/-- The date of the day comes out of words as it is. -/
structure ExactDay (day : Int) : Prop where
  from_le : -536000000 ≤ day
  le_to : day ≤ 536000000
  uncut : (day + shiftDays) % 4294967296 = day + shiftDays
  inWords : Date.inWords? day = some (Date.ofDayNumber day)

theorem exactDay_iff {day : Int} : ExactDay day ↔ -536000000 ≤ day ∧ day ≤ 536000000 := by
  constructor
  · intro h
    exact ⟨h.from_le, h.le_to⟩
  · rintro ⟨hfrom, hto⟩
    have hshift : shiftDays = 536895458 := rfl
    exact ⟨hfrom, hto, by omega, Date.inWords?_eq hfrom hto⟩

theorem exactDay_splitDays {ms : Int} (h : -34560000000000000 ≤ ms) (h' : ms ≤ 34560000000000000) :
    ExactDay (splitDays ms).1 := by
  rw [exactDay_iff, splitDays]
  unfold msPerDay
  omega

namespace Zone

/-! ## The regime in effect -/

/-- The regime in effect is the last one that has started, or the first one if none has. -/
theorem regimeAt_eq_getLastD {t : Instant} : ∀ {z : Zone}, z.WellFormed →
    z.regimeAt t = (z.regimes.filter fun g => decide (g.start ≤ t)).getLastD z.first
  | ⟨name, first, []⟩, _ => by
      by_cases h : first.start ≤ t
      · simp [regimes, h, regimeAt, indexAt]
      · simp [regimes, h, regimeAt, indexAt]
  | ⟨name, first, next :: rest⟩, hz => by
      rw [regimeAt_cons]
      by_cases hnext : next.start ≤ t
      · have hlt : first.start < next.start :=
          (List.pairwise_cons.mp hz.ascending).1 next List.mem_cons_self
        have hfirst : first.start ≤ t := Int.le_of_lt (Int.lt_of_lt_of_le hlt hnext)
        rw [if_pos hnext, regimeAt_eq_getLastD hz.tail]
        simp only [regimes, List.filter_cons, decide_eq_true hfirst, decide_eq_true hnext, if_true,
          List.getLastD_cons]
      · -- none of the later regimes has started either
        have hnone : (next :: rest).filter (fun g => decide (g.start ≤ t)) = [] := by
          refine List.filter_eq_nil_iff.mpr fun g hg hstart => hnext ?_
          rcases List.mem_cons.mp hg with rfl | hg
          · exact of_decide_eq_true hstart
          · exact Int.le_trans (Int.le_of_lt ((List.pairwise_cons.mp hz.tail.ascending).1 g hg))
              (of_decide_eq_true hstart)
        rw [if_neg hnext, regimes, List.filter_cons, hnone]
        split <;> rfl

/-! ## Reading the clock -/

/-- What the clock shows at the instant is worked out with nothing cut off. -/
structure ShowsExactly (z : Zone) (t : Instant) : Prop where
  fits : Fits (t.ms + (z.offsetAt t).ms)
  wallMs : t.wallMs (z.offsetAt t) = t.ms + (z.offsetAt t).ms
  day : ExactDay (splitDays (t.wallMs (z.offsetAt t))).1

theorem showsExactly_of_mem {z : Zone} (hz : z.WellFormed) {t : Int}
    (h : -17280000000000000 ≤ t) (h' : t ≤ 17280000000000000) : z.ShowsExactly ⟨t⟩ := by
  have hwide := hz.widestMs_lt
  have hoffset := z.offsetAt_mem_widest ⟨t⟩
  unfold msPerDay at hwide
  obtain ⟨hexact, -⟩ := wallMs_offsetAt hz h h'
  refine ⟨?_, hexact, ?_⟩
  · unfold Fits Instant.leastMs Instant.greatestMs
    dsimp only
    omega
  · rw [hexact]
    exact exactDay_splitDays (by omega) (by omega)

theorem valid_readingAt {z : Zone} (hz : z.WellFormed) {t : Instant} (ht : t.Valid) :
    (z.readingAt t).Valid := by
  obtain ⟨ms⟩ := t
  obtain ⟨hfrom, hto⟩ : -8640000000000000 ≤ ms ∧ ms ≤ 8640000000000000 := ht
  have hwide := hz.widestMs_lt
  have hoffset := z.offsetAt_mem_widest ⟨ms⟩
  unfold msPerDay at hwide
  obtain ⟨hexact, -⟩ := wallMs_offsetAt hz (t := ms) (by omega) (by omega)
  rw [readingAt, Reading.ofInstant, hexact]
  exact Reading.valid_ofWallMs (by unfold msPerDay; omega) (by unfold msPerDay; omega)

/-! ## Resolving -/

/-- Resolving the reading takes no step that is cut off: all sums fit, whatever regime or transition
they are taken for, the regimes near the reading are a part of the history that is not empty, and
every day on the way has its exact date. The beginning of time occurs in no sum. -/
structure ResolvesExactly (z : Zone) (r : Reading) : Prop where
  wall : Fits r.wallMs ∧ r.wallMs ≠ Instant.leastMs
  earliest : Fits (r.wallMs - z.widestMs) ∧
    Instant.saturate (r.wallMs - z.widestMs) = r.wallMs - z.widestMs
  latest : Fits (r.wallMs + z.widestMs) ∧
    Instant.saturate (r.wallMs + z.widestMs) = r.wallMs + z.widestMs
  nonempty : (z.nearWall r.wallMs).1 < (z.nearWall r.wallMs).2
  bounded : (z.nearWall r.wallMs).2 ≤ z.regimes.length
  candidate : ∀ g ∈ z.regimes, Fits (r.wallMs - g.total.ms) ∧
    ExactDay (splitDays (r.wallMs - g.total.ms)).1 ∧ z.ShowsExactly ⟨r.wallMs - g.total.ms⟩
  transition : ∀ before after, (before, after) ∈ z.transitions →
    after.start ≠ Instant.beginning ∧ Fits (after.start.ms + before.total.ms) ∧
      Fits (after.start.ms + after.total.ms)

theorem resolvesExactly {z : Zone} (hz : z.WellFormed) {r : Reading} (hr : r.Valid) :
    z.ResolvesExactly r := by
  have hwide := hz.widestMs_lt
  have hwall := hr.wallMs_mem
  unfold msPerDay at hwide
  have hfits {ms : Int} (h : -17280000000000000 ≤ ms) (h' : ms ≤ 17280000000000000) : Fits ms := by
    unfold Fits Instant.leastMs Instant.greatestMs
    omega
  have hearliest : Fits (r.wallMs - z.widestMs) := hfits (by omega) (by omega)
  have hlatest : Fits (r.wallMs + z.widestMs) := hfits (by omega) (by omega)
  refine ⟨⟨hfits (by omega) (by omega), by unfold Instant.leastMs; omega⟩,
    ⟨hearliest, Instant.saturate_eq hearliest.1 hearliest.2⟩,
    ⟨hlatest, Instant.saturate_eq hlatest.1 hlatest.2⟩, ?_, ?_, fun g hg => ?_,
    fun before after htransition => ?_⟩
  · rw [nearWall_eq hz hr]
    exact Nat.lt_succ_of_le (indexAt_mono (Instant.le_def.mpr (by dsimp only; omega)) z)
  · rw [nearWall_eq hz hr]
    exact z.indexAt_lt _
  · have hoffset := total_mem_widest hg
    exact ⟨hfits (by omega) (by omega), exactDay_splitDays (by omega) (by omega),
      showsExactly_of_mem hz (by omega) (by omega)⟩
  · obtain ⟨i, hi⟩ := List.mem_iff_getElem?.mp htransition
    obtain ⟨hbefore, hafter⟩ := getElem?_transitions.mp hi
    have hoffset := total_mem_widest (List.mem_of_getElem? hbefore)
    have hoffset' := total_mem_widest (List.mem_of_getElem? hafter)
    have hstart := hz.start_valid (mem_later_of_transition hi)
    have hne : after.start ≠ Instant.beginning := by
      intro heq
      rw [heq] at hstart
      exact absurd hstart (by decide)
    unfold Instant.Valid Instant.limitMs at hstart
    exact ⟨hne, hfits (by omega) (by omega), hfits (by omega) (by omega)⟩

/-- Every valid instant has a reading, whose fields pass their checks and which is the instant and
the offset of the last regime that has started, added up; no other instant has one. To resolve a
reading takes no step that is cut off. -/
theorem conversions_exact {z : Zone} (hz : z.Accepted) :
    (∀ t : Instant, t.Valid → ∃ r, z.toReading t = .ok r ∧
      Date.make r.date.year r.date.month r.date.day = .ok r.date ∧
      TimeOfDay.make r.time.hour r.time.minute r.time.second r.time.millisecond = .ok r.time ∧
      r.wallMs = t.ms + 60000 *
        ((z.regimes.filter fun g => decide (g.start ≤ t)).getLastD z.first).total.minutes ∧
      z.ShowsExactly t) ∧
    (∀ t : Instant, ¬t.Valid → ∃ p, z.toReading t = .error p ∧ p.kind = .range) ∧
    ∀ r : Reading, r.Accepted → z.ResolvesExactly r := by
  rw [accepted_iff_wellFormed] at hz
  refine ⟨fun t ht => ?_, fun t ht => ⟨.instantOutOfRange, if_neg ht, rfl⟩, fun r hr => ?_⟩
  · obtain ⟨hdate, htime⟩ := valid_readingAt hz ht
    refine ⟨z.readingAt t, if_pos ht, Date.make_eq_ok_iff.mpr ⟨rfl, hdate⟩,
      TimeOfDay.make_eq_ok_iff.mpr ⟨rfl, htime⟩, ?_, ?_⟩
    · rw [wallMs_readingAt hz ht, offsetAt, regimeAt_eq_getLastD hz, Offset.ms, msPerMinute,
        Int.mul_comm]
    · unfold Instant.Valid Instant.limitMs at ht
      exact showsExactly_of_mem hz (by omega) (by omega)
  · exact resolvesExactly hz (Reading.accepted_iff_valid.mp hr)

/-- Offsets of all but a day, which change at the first and at the last valid instant: the reading
at the last one, and the last reading of all, which belongs to no valid instant. -/
theorem conversions_exact_at_the_limits :
    let z := ofChanges ⟨1439⟩ [(⟨-Instant.limitMs⟩, ⟨-1439⟩), (⟨Instant.limitMs⟩, ⟨1439⟩)]
    let r : Reading := ⟨⟨275760, 12, 31⟩, ⟨23, 59, 59, 999⟩⟩
    z.Accepted ∧ r.Accepted ∧
      z.toReading ⟨Instant.limitMs⟩ = .ok ⟨⟨275760, 9, 13⟩, ⟨23, 59, 0, 0⟩⟩ ∧
      z.ShowsExactly ⟨Instant.limitMs⟩ ∧ z.ResolvesExactly r := by
  intro z r
  have hz : z.Accepted := accepted_ofChanges (by decide) (by decide) (by decide)
  have hr : r.Accepted := Reading.accepted_iff_valid.mpr (by decide)
  obtain ⟨hvalid, -, hresolves⟩ := conversions_exact hz
  obtain ⟨_, -, -, -, -, hshows⟩ := hvalid ⟨Instant.limitMs⟩ (by decide)
  exact ⟨hz, hr, by decide +kernel, hshows, hresolves r hr⟩

end Zone

end ZoneHistory
