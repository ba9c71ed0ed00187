import ZoneHistory.Proofs.Zone.Resolution

/-!
# Telling gaps from overlaps by counting

The number of the transitions that skip a reading and of those that repeat it
decide what it resolves to (`Resolves.counts`), whatever the lengths of the
regimes between them.

A reading that one transition repeats and none skips is shown once before that
transition and once after it (`exists_pair_of_counts`). The two instants need not
be the offset change apart: a regime shorter than its own offset change leaves it
to an earlier or a later regime to show the reading. They are that far apart if
the two regimes last long enough (`sub_eq_offset_change`).
-/

namespace ZoneHistory

namespace Zone

theorem Resolves.counts {z : Zone} (hz : z.WellFormed) {wall : Int} {res : Resolution}
    (h : z.Resolves wall res) :
    ((∃ earlier later, res = .gap earlier later) ↔ z.skipCount wall = z.repeatCount wall + 1) ∧
    ((∃ t, res = .unique t) ↔ z.skipCount wall = z.repeatCount wall) ∧
    ((∃ earlier later, res = .overlap earlier later) ↔
      z.skipCount wall < z.repeatCount wall) := by
  have hcount := ncard_showing hz wall
  have hcard := h.ncard
  cases res with
  | unique t =>
      simp only at hcard
      simp only [reduceCtorEq, exists_false, false_iff, Resolution.unique.injEq, exists_eq',
        true_iff]
      omega
  | gap earlier later =>
      simp only at hcard
      simp only [reduceCtorEq, exists_false, false_iff, Resolution.gap.injEq, exists_and_left,
        exists_eq', and_true, true_iff]
      omega
  | overlap earlier later =>
      simp only at hcard
      simp only [reduceCtorEq, exists_false, false_iff, Resolution.overlap.injEq,
        exists_and_left, exists_eq', and_true, true_iff]
      omega

/-! ## One transition that repeats -/

theorem countP_drop_eq_zero {α : Type} {l : List α} {p : α → Bool} {i : Nat} {a : α}
    (h : l.countP p = 1) (hi : l[i]? = some a) (ha : p a = true) :
    (l.drop (i + 1)).countP p = 0 := by
  obtain ⟨hlt, rfl⟩ := List.getElem?_eq_some_iff.mp hi
  have hsplit : (l.take i).countP p + (l.drop i).countP p = 1 := by
    rw [← List.countP_append, List.take_append_drop, h]
  rw [List.drop_eq_getElem_cons hlt, List.countP_cons_of_pos ha] at hsplit
  omega

/-- If one transition repeats the wall time and none skips it, it is shown once on each side. -/
theorem exists_pair_of_counts {z : Zone} (hz : z.WellFormed) {wall : Int}
    (hskips : z.skipCount wall = 0) (hrepeats : z.repeatCount wall = 1) {i : Nat}
    {before after : Regime} (h : z.transitions[i]? = some (before, after))
    (hrepeat : repeats wall (before, after) = true) :
    ∃ earlier later : Instant, z.showing wall = {earlier.ms, later.ms} ∧
      earlier < after.start ∧ after.start ≤ later := by
  have hall := ncard_showing hz wall
  have hfrom := ncard_showing_inter_Ici_transition wall hz h
  have hnone : (z.transitions.drop (i + 1)).countP (skips wall) = 0 :=
    Nat.le_zero.mp (hskips ▸ (List.drop_sublist _ _).countP_le)
  have hreached : reached wall after.start.ms after.total = 1 :=
    if_pos (repeats_iff.mp hrepeat).1
  rw [countP_drop_eq_zero hrepeats h hrepeat, hnone, hreached] at hfrom
  rw [hskips, hrepeats] at hall
  have hsum := Set.ncard_inter_add_ncard_sdiff_eq_ncard (z.showing wall) (Set.Ici after.start.ms)
    (finite_showing z wall)
  obtain ⟨later, hlater⟩ :=
    Set.ncard_eq_one.mp (show (z.showing wall ∩ Set.Ici after.start.ms).ncard = 1 by omega)
  obtain ⟨earlier, hearlier⟩ :=
    Set.ncard_eq_one.mp (show (z.showing wall \ Set.Ici after.start.ms).ncard = 1 by omega)
  have hmem : later ∈ z.showing wall ∩ Set.Ici after.start.ms := hlater ▸ Set.mem_singleton _
  have hmem' : earlier ∈ z.showing wall \ Set.Ici after.start.ms := hearlier ▸ Set.mem_singleton _
  refine ⟨⟨earlier⟩, ⟨later⟩, ?_, Int.not_le.mp hmem'.2, hmem.2⟩
  rw [← Set.sdiff_union_inter (z.showing wall) (Set.Ici after.start.ms), hlater, hearlier]
  rfl

theorem resolves_of_pair {z : Zone} {wall : Int} {earlier later : Instant}
    (hpair : z.showing wall = {earlier.ms, later.ms}) (hlt : earlier < later) :
    z.Resolves wall (.overlap earlier later) := by
  rw [Instant.lt_def] at hlt
  refine Resolves.overlap hlt ?_ ?_
  · rw [hpair, IsLeast, mem_lowerBounds]
    exact ⟨Set.mem_insert _ _, by simp [Int.le_of_lt hlt]⟩
  · rw [hpair, IsGreatest, mem_upperBounds]
    exact ⟨Set.mem_insert_of_mem _ (Set.mem_singleton _), by simp [Int.le_of_lt hlt]⟩

theorem sub_eq_offsetAt_sub {z : Zone} {wall : Int} {earlier later : Instant}
    (hpair : z.showing wall = {earlier.ms, later.ms}) :
    later.ms - earlier.ms = (z.offsetAt earlier).ms - (z.offsetAt later).ms := by
  have hfirst : earlier.ms + (z.offsetAt earlier).ms = wall :=
    mem_showing.mp (hpair ▸ Set.mem_insert _ _)
  have hlast : later.ms + (z.offsetAt later).ms = wall :=
    mem_showing.mp (hpair ▸ Set.mem_insert_of_mem _ (Set.mem_singleton _))
  omega

theorem mem_showing_of_regimeAt {z : Zone} {wall : Int} {g : Regime}
    (h : z.regimeAt ⟨wall - g.total.ms⟩ = g) : wall - g.total.ms ∈ z.showing wall := by
  rw [mem_showing, offsetAt, h]
  exact Int.sub_add_cancel wall _

/-- The two instants are the offset change apart if each of the two regimes lasts long enough to
show the wall time itself. -/
theorem sub_eq_offset_change {z : Zone} (hz : z.WellFormed) {wall : Int} {i : Nat}
    {before after : Regime} (h : z.transitions[i]? = some (before, after))
    (hrepeat : repeats wall (before, after) = true) {earlier later : Instant}
    (hpair : z.showing wall = {earlier.ms, later.ms}) (hearlier : earlier < after.start)
    (hlater : after.start ≤ later)
    (hreached : i = 0 ∨ before.start.ms + before.total.ms ≤ wall)
    (hlasts : ∀ next, z.regimes[i + 2]? = some next → wall < next.start.ms + after.total.ms) :
    later.ms - earlier.ms = before.total.ms - after.total.ms := by
  obtain ⟨hbefore, hafter⟩ := getElem?_transitions.mp h
  obtain ⟨hfrom, hto⟩ := repeats_iff.mp hrepeat
  have hfirst : z.regimeAt ⟨wall - before.total.ms⟩ = before := by
    refine regimeAt_eq hz hbefore (hreached.imp_right Int.le_sub_right_of_add_le) ?_
    rintro next hnext
    obtain rfl := Option.some.inj (hafter.symm.trans hnext)
    exact Int.sub_right_lt_of_lt_add hto
  have hlast : z.regimeAt ⟨wall - after.total.ms⟩ = after := by
    refine regimeAt_eq hz hafter (Or.inr (Int.le_sub_right_of_add_le hfrom)) ?_
    rintro next hnext
    exact Int.sub_right_lt_of_lt_add (hlasts next hnext)
  have hmem := mem_showing_of_regimeAt hfirst
  have hmem' := mem_showing_of_regimeAt hlast
  rw [hpair, Set.mem_insert_iff, Set.mem_singleton_iff] at hmem hmem'
  rw [Instant.lt_def] at hearlier
  rw [Instant.le_def] at hlater
  omega

/-- The counts of the transitions that skip a reading and of those that repeat it decide what it
resolves to. -/
theorem resolve_of_transition_counts {z : Zone} {r : Reading} (hz : z.Accepted)
    (hr : r.Accepted) :
    (z.showing r.wallMs).Finite ∧
    ((z.showing r.wallMs).ncard : Int) =
      1 + z.repeatCount r.wallMs - z.skipCount r.wallMs ∧
    (z.resolve r = .error .readingOutOfRange ∨ ∃ res, z.resolve r = .ok res ∧
      ((∃ earlier later, res = .gap earlier later) ↔
        z.skipCount r.wallMs = z.repeatCount r.wallMs + 1) ∧
      ((∃ t, res = .unique t) ↔ z.skipCount r.wallMs = z.repeatCount r.wallMs) ∧
      ((∃ earlier later, res = .overlap earlier later) ↔
        z.skipCount r.wallMs < z.repeatCount r.wallMs)) ∧
    (z.skipCount r.wallMs = 0 → z.repeatCount r.wallMs = 1 →
      ∃ i before after, z.transitions[i]? = some (before, after) ∧
        repeats r.wallMs (before, after) = true ∧
        ∃ earlier later : Instant, earlier < after.start ∧ after.start ≤ later ∧
          (z.resolve r = if earlier.Valid ∧ later.Valid then .ok (.overlap earlier later)
            else .error .readingOutOfRange) ∧
          later.ms - earlier.ms = (z.offsetAt earlier).ms - (z.offsetAt later).ms ∧
          (i = 0 ∨ before.start.ms + before.total.ms ≤ r.wallMs →
            (∀ next, z.regimes[i + 2]? = some next → r.wallMs < next.start.ms + after.total.ms) →
            later.ms - earlier.ms = before.total.ms - after.total.ms)) := by
  rw [accepted_iff_wellFormed] at hz
  rw [Reading.accepted_iff_valid] at hr
  refine ⟨finite_showing z r.wallMs, ncard_showing hz r.wallMs, ?_, fun hskips hrepeats => ?_⟩
  · obtain ⟨res, hres⟩ := exists_resolves hz hr
    rw [resolve_eq_of_resolves hz hr hres]
    split
    next => exact Or.inr ⟨res, rfl, hres.counts hz⟩
    next => exact Or.inl rfl
  · obtain ⟨⟨before, after⟩, hmem, hrepeat⟩ :=
      List.countP_pos_iff.mp (show 0 < z.repeatCount r.wallMs by omega)
    obtain ⟨i, h⟩ := List.mem_iff_getElem?.mp hmem
    obtain ⟨earlier, later, hpair, hearlier, hlater⟩ :=
      exists_pair_of_counts hz hskips hrepeats h hrepeat
    have hres := resolves_of_pair hpair (Int.lt_of_lt_of_le hearlier hlater)
    refine ⟨i, before, after, h, hrepeat, earlier, later, hearlier, hlater, ?_,
      sub_eq_offsetAt_sub hpair, sub_eq_offset_change hz h hrepeat hpair hearlier hlater⟩
    rw [resolve_eq_of_resolves hz hr hres]
    simp only [Resolution.valid_overlap]

/-- Half an hour into the hour that one transition repeats: the two answers are that hour apart. -/
theorem resolve_hour_shown_twice :
    (ofChanges ⟨60⟩ [(⟨0⟩, ⟨0⟩)]).Accepted ∧
      Reading.Accepted ⟨⟨1970, 1, 1⟩, ⟨0, 30, 0, 0⟩⟩ ∧
      (ofChanges ⟨60⟩ [(⟨0⟩, ⟨0⟩)]).skipCount 1800000 = 0 ∧
      (ofChanges ⟨60⟩ [(⟨0⟩, ⟨0⟩)]).repeatCount 1800000 = 1 ∧
      (((ofChanges ⟨60⟩ [(⟨0⟩, ⟨0⟩)]).showing 1800000).ncard : Int) = 2 ∧
      ∃ earlier later : Instant, earlier.ms < 0 ∧ 0 ≤ later.ms ∧
        later.ms - earlier.ms = 3600000 := by
  have hz : (ofChanges ⟨60⟩ [(⟨0⟩, ⟨0⟩)]).Accepted :=
    accepted_ofChanges (by decide) (by decide) (by decide)
  have hr : Reading.Accepted ⟨⟨1970, 1, 1⟩, ⟨0, 30, 0, 0⟩⟩ :=
    Reading.accepted_iff_valid.mpr (by decide)
  have hskips : (ofChanges ⟨60⟩ [(⟨0⟩, ⟨0⟩)]).skipCount 1800000 = 0 := by decide
  have hrepeats : (ofChanges ⟨60⟩ [(⟨0⟩, ⟨0⟩)]).repeatCount 1800000 = 1 := by decide
  obtain ⟨-, hcount, -, hpair⟩ := resolve_of_transition_counts hz hr
  obtain ⟨i, before, after, h, -, earlier, later, hearlier, hlater, -, -, hchange⟩ :=
    hpair hskips hrepeats
  obtain ⟨hlt, heq⟩ := List.getElem?_eq_some_iff.mp h
  obtain rfl : i = 0 := Nat.lt_one_iff.mp hlt
  obtain ⟨rfl, rfl⟩ := Prod.mk.inj heq
  exact ⟨hz, hr, hskips, hrepeats, hcount, earlier, later, hearlier, hlater,
    hchange (Or.inl rfl) nofun⟩

/-- A reading shown just before and just after a regime that is shorter than the offset change at
its end: the answers are three minutes apart, and the offset change is two minutes. -/
theorem overlap_wider_than_offset_change :
    (ofChanges ⟨1⟩ [(⟨0⟩, ⟨0⟩), (⟨60000⟩, ⟨-2⟩)]).Accepted ∧
      Reading.Accepted ⟨⟨1969, 12, 31⟩, ⟨23, 59, 0, 0⟩⟩ ∧
      Reading.wallMs ⟨⟨1969, 12, 31⟩, ⟨23, 59, 0, 0⟩⟩ = -60000 ∧
      (ofChanges ⟨1⟩ [(⟨0⟩, ⟨0⟩), (⟨60000⟩, ⟨-2⟩)]).skipCount (-60000) = 0 ∧
      (ofChanges ⟨1⟩ [(⟨0⟩, ⟨0⟩), (⟨60000⟩, ⟨-2⟩)]).repeatCount (-60000) = 1 ∧
      (∃ before after,
        (ofChanges ⟨1⟩ [(⟨0⟩, ⟨0⟩), (⟨60000⟩, ⟨-2⟩)]).transitions[1]? = some (before, after) ∧
        repeats (-60000) (before, after) = true ∧ before.total.ms - after.total.ms = 120000) ∧
      (ofChanges ⟨1⟩ [(⟨0⟩, ⟨0⟩), (⟨60000⟩, ⟨-2⟩)]).resolve
          ⟨⟨1969, 12, 31⟩, ⟨23, 59, 0, 0⟩⟩ =
        .ok (.overlap ⟨-120000⟩ ⟨60000⟩) := by
  refine ⟨accepted_ofChanges (by decide) (by decide) (by decide),
    Reading.accepted_iff_valid.mpr (by decide), by decide, by decide, by decide,
    ⟨_, _, rfl, by decide, by decide⟩, by decide +kernel⟩

end Zone

end ZoneHistory
