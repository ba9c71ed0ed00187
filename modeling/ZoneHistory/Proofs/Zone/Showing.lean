import Mathlib.Data.Set.Basic
import Mathlib.Order.Bounds.Basic
import ZoneHistory.Conversion
import ZoneHistory.Proofs.WallTime
import ZoneHistory.Proofs.Zone.History

/-!
# The instants that show a wall time

`Zone.showing z wall` is the set of all instants, valid or not, at which the
clock of a zone shows a wall time: the preimage that a conversion back looks for,
said through the offset in effect alone.

The search of `Zone.matchesOf` finds exactly this set (`mem_matchesOf_iff`). It is
sound because a reading and its number determine each other, and complete because
the widest offset keeps each of these instants, and so its regime, near the wall
time (`near_of_mem_showing`).
-/

namespace ZoneHistory

namespace Zone

/-- The instants, in milliseconds, at which the clock of the zone shows a wall time. -/
def showing (z : Zone) (wall : Int) : Set Int :=
  {t | t + (z.offsetAt ⟨t⟩).ms = wall}

theorem mem_showing {z : Zone} {wall t : Int} :
    t ∈ z.showing wall ↔ t + (z.offsetAt ⟨t⟩).ms = wall := Iff.rfl

/-! ## The search window -/

theorem mem_window_of_mem_showing {z : Zone} {wall t : Int} (h : t ∈ z.showing wall) :
    wall - z.widestMs ≤ t ∧ t ≤ wall + z.widestMs := by
  have hoffset := z.offsetAt_mem_widest ⟨t⟩
  rw [mem_showing] at h
  omega

/-- The ends of the window of a valid reading lie far from the ends of the 64-bit range. -/
theorem nearWall_eq {z : Zone} (hz : z.WellFormed) {r : Reading} (hr : r.Valid) :
    z.nearWall r.wallMs =
      (z.indexAt ⟨r.wallMs - z.widestMs⟩, z.indexAt ⟨r.wallMs + z.widestMs⟩ + 1) := by
  have hwide := hz.widestMs_lt
  have hwall := hr.wallMs_mem
  unfold msPerDay at hwide
  have hfrom : Instant.saturate (r.wallMs - z.widestMs) = r.wallMs - z.widestMs :=
    Instant.saturate_eq (by unfold Instant.leastMs; omega) (by unfold Instant.greatestMs; omega)
  have hto : Instant.saturate (r.wallMs + z.widestMs) = r.wallMs + z.widestMs :=
    Instant.saturate_eq (by unfold Instant.leastMs; omega) (by unfold Instant.greatestMs; omega)
  rw [nearWall, near, hfrom, hto]

theorem near_of_mem_window {z : Zone} (hz : z.WellFormed) {r : Reading} (hr : r.Valid)
    {t : Int} (hfrom : r.wallMs - z.widestMs ≤ t) (hto : t ≤ r.wallMs + z.widestMs) :
    (z.nearWall r.wallMs).1 ≤ z.indexAt ⟨t⟩ ∧ z.indexAt ⟨t⟩ < (z.nearWall r.wallMs).2 := by
  rw [nearWall_eq hz hr]
  exact ⟨indexAt_mono hfrom z, Nat.lt_succ_of_le (indexAt_mono hto z)⟩

theorem near_of_mem_showing {z : Zone} (hz : z.WellFormed) {r : Reading} (hr : r.Valid)
    {t : Int} (h : t ∈ z.showing r.wallMs) :
    (z.nearWall r.wallMs).1 ≤ z.indexAt ⟨t⟩ ∧ z.indexAt ⟨t⟩ < (z.nearWall r.wallMs).2 :=
  near_of_mem_window hz hr (mem_window_of_mem_showing h).1 (mem_window_of_mem_showing h).2

/-! ## Reading the clock -/

/-- Within 200 000 000 days of 1970 no step of reading the clock is cut off. -/
theorem wallMs_offsetAt {z : Zone} (hz : z.WellFormed) {t : Int} (h : -17280000000000000 ≤ t)
    (h' : t ≤ 17280000000000000) :
    Instant.wallMs ⟨t⟩ (z.offsetAt ⟨t⟩) = t + (z.offsetAt ⟨t⟩).ms ∧
      -536000000 ≤ (t + (z.offsetAt ⟨t⟩).ms) / msPerDay ∧
      (t + (z.offsetAt ⟨t⟩).ms) / msPerDay ≤ 536000000 := by
  have hwide := hz.widestMs_lt
  have hoffset := z.offsetAt_mem_widest ⟨t⟩
  unfold msPerDay at hwide
  refine ⟨?_, ?_, ?_⟩
  · exact Instant.saturate_eq (by unfold Instant.leastMs; dsimp only; omega)
      (by unfold Instant.greatestMs; dsimp only; omega)
  · unfold msPerDay; omega
  · unfold msPerDay; omega

theorem readingAt_eq_iff {z : Zone} (hz : z.WellFormed) {r : Reading} (hr : r.Valid) {t : Int}
    (h : -17280000000000000 ≤ t) (h' : t ≤ 17280000000000000) :
    z.readingAt ⟨t⟩ = r ↔ t ∈ z.showing r.wallMs := by
  obtain ⟨hexact, hfrom, hto⟩ := wallMs_offsetAt hz h h'
  rw [readingAt, Reading.ofInstant, hexact, mem_showing]
  exact Reading.ofWallMs_eq_iff hr hfrom hto

/-- At a valid instant the clock shows the instant and the offset in effect together. -/
theorem wallMs_readingAt {z : Zone} (hz : z.WellFormed) {t : Instant} (ht : t.Valid) :
    (z.readingAt t).wallMs = t.ms + (z.offsetAt t).ms := by
  unfold Instant.Valid Instant.limitMs at ht
  obtain ⟨hexact, hfrom, hto⟩ := wallMs_offsetAt hz (t := t.ms) (by omega) (by omega)
  rw [readingAt, Reading.ofInstant, hexact]
  exact Reading.wallMs_ofWallMs hfrom hto

theorem toReading_eq_ok_iff {z : Zone} (hz : z.WellFormed) {r : Reading} (hr : r.Valid)
    {t : Instant} (ht : t.Valid) :
    z.toReading t = .ok r ↔ t.ms ∈ z.showing r.wallMs := by
  rw [toReading, if_pos ht, Except.ok.injEq]
  unfold Instant.Valid Instant.limitMs at ht
  exact readingAt_eq_iff hz hr (by omega) (by omega)

/-! ## The search -/

theorem mem_drop_take_of_getElem? {α : Type} {l : List α} {start stop i : Nat} {a : α}
    (h : l[i]? = some a) (hstart : start ≤ i) (hstop : i < stop) :
    a ∈ (l.take stop).drop start := by
  refine List.mem_of_getElem? (i := i - start) ?_
  rw [List.getElem?_drop, Nat.add_sub_cancel' hstart, List.getElem?_take_of_lt hstop, h]

/-- One candidate for each regime near the reading, kept if it reads back: this finds every
instant that shows the reading, and nothing else. -/
theorem mem_matchesOf_iff {z : Zone} (hz : z.WellFormed) {r : Reading} (hr : r.Valid) {t : Int} :
    t ∈ z.matchesOf r ↔ t ∈ z.showing r.wallMs := by
  have hwide := hz.widestMs_lt
  have hwall := hr.wallMs_mem
  unfold msPerDay at hwide
  simp only [matchesOf, List.mem_filter, List.mem_map, decide_eq_true_eq]
  constructor
  · rintro ⟨⟨g, hg, rfl⟩, hread⟩
    have hmem : g ∈ z.regimes := List.mem_of_mem_take (List.mem_of_mem_drop hg)
    have hoffset := total_mem_widest hmem
    exact (readingAt_eq_iff hz hr (by omega) (by omega)).mp hread
  · intro h
    have hwindow := mem_window_of_mem_showing h
    have hnear := near_of_mem_showing hz hr h
    refine ⟨⟨z.regimeAt ⟨t⟩, ?_, ?_⟩,
      (readingAt_eq_iff hz hr (by omega) (by omega)).mpr h⟩
    · exact mem_drop_take_of_getElem? (z.getElem?_indexAt ⟨t⟩) hnear.1 hnear.2
    · rw [← mem_showing.mp h]
      exact Int.add_sub_cancel t _

end Zone

end ZoneHistory
