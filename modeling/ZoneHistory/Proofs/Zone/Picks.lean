import ZoneHistory.Proofs.Zone.Resolution

/-!
# Picking an instant

A way to disambiguate picks one of the instants of a resolution (`mem_instants_of_pick`), so the
picks of a resolved reading are valid, and unless a transition skips the reading each of them shows
it (`Resolves.mem_showing`).

For a skipped reading no pick can show it. The names of the two instants of a gap go by their order
and not by the offsets they take: the later one takes the offset before the transition. It lies
after the transition, so the clock has been set forward by then and shows the reading moved on by
the change (`FirstSkip.offsetAt_later`), and with the earlier one it is the other way round
(`FirstSkip.offsetAt_earlier`). That is so as long as the regimes next to the transition last.

Main statement: `picks_of_resolved_reading`.
-/

namespace ZoneHistory

namespace Resolution

theorem mem_instants_of_pick {res : Resolution} {d : Disambiguation} {t : Instant}
    (h : res.pick d = .ok t) : t ∈ res.instants := by
  cases res with
  | unique s =>
      cases h
      exact List.mem_cons_self
  | gap earlier later =>
      cases d <;> cases h
      all_goals simp [instants]
  | overlap earlier later =>
      cases d <;> cases h
      all_goals simp [instants]

theorem exists_pick_reject_iff {res : Resolution} :
    (∃ t, res.pick .reject = .ok t) ↔ res.isUnique = true := by
  cases res with
  | unique t => exact iff_of_true ⟨t, rfl⟩ rfl
  | gap earlier later => exact iff_of_false nofun nofun
  | overlap earlier later => exact iff_of_false nofun nofun

theorem pick_reject_of_not_unique {res : Resolution} (h : res.isUnique = false) :
    ∃ p, res.pick .reject = .error p ∧ p.kind = .range := by
  cases res with
  | unique t => cases h
  | gap earlier later => exact ⟨_, rfl, rfl⟩
  | overlap earlier later => exact ⟨_, rfl, rfl⟩

end Resolution

namespace Zone

/-! ## Instants of a resolution -/

theorem Resolves.mem_showing {z : Zone} {wall : Int} {res : Resolution} (h : z.Resolves wall res)
    (hgap : ∀ earlier later, res ≠ .gap earlier later) {t : Instant} (ht : t ∈ res.instants) :
    t.ms ∈ z.showing wall := by
  cases h with
  | unique hone =>
      obtain rfl := List.mem_singleton.mp ht
      exact hone ▸ Set.mem_singleton _
  | overlap _ hleast hgreatest =>
      rcases List.mem_pair.mp ht with rfl | rfl
      · exact hleast.1
      · exact hgreatest.1
  | gap => exact absurd rfl (hgap _ _)

/-- The two instants of a gap or an overlap are what their names say. -/
theorem Resolves.earlier_lt_later {z : Zone} {wall : Int} {res : Resolution}
    (h : z.Resolves wall res) (hunique : res.isUnique = false) :
    ∃ earlier later, res.pick .earlier = .ok earlier ∧ res.pick .later = .ok later ∧
      earlier < later := by
  cases h with
  | unique => cases hunique
  | overlap hlt => exact ⟨_, _, rfl, rfl, hlt⟩
  | gap _ hskip =>
      obtain ⟨hearlier, hlater⟩ := hskip.straddles
      exact ⟨_, _, rfl, rfl, Int.lt_of_lt_of_le hearlier hlater⟩

/-! ## Instants of a gap -/

section
variable {z : Zone} (hz : z.WellFormed) {wall : Int} {i : Nat} {before after : Regime}
include hz

/-- The later instant of a gap lies in the regime after the transition, unless that one is over. -/
theorem FirstSkip.offsetAt_later (h : z.FirstSkip wall i before after)
    (hnext : ∀ next, z.regimes[i + 2]? = some next → wall - before.total.ms < next.start.ms) :
    z.offsetAt ⟨wall - before.total.ms⟩ = after.total := by
  obtain ⟨-, hafter⟩ := getElem?_transitions.mp h.transition
  exact congrArg Regime.total (regimeAt_eq hz hafter (Or.inr h.straddles.2) hnext)

/-- The earlier instant of a gap lies in the regime before the transition, unless that one had not
begun. -/
theorem FirstSkip.offsetAt_earlier (h : z.FirstSkip wall i before after)
    (hstart : i = 0 ∨ before.start.ms ≤ wall - after.total.ms) :
    z.offsetAt ⟨wall - after.total.ms⟩ = before.total := by
  obtain ⟨hbefore, hafter⟩ := getElem?_transitions.mp h.transition
  refine congrArg Regime.total (regimeAt_eq hz hbefore hstart fun next hnext => ?_)
  obtain rfl := Option.some.inj (hafter.symm.trans hnext)
  exact h.straddles.1

/-- Next to the transition the two instants of a gap show the reading moved on and moved back by the
change. -/
theorem Resolves.readings_of_gap {earlier later : Instant}
    (h : z.Resolves wall (.gap earlier later)) (hearlier : earlier.Valid) (hlater : later.Valid) :
    ∃ i before after, z.FirstSkip wall i before after ∧
      ((∀ next, z.regimes[i + 2]? = some next → later < next.start) →
        (z.readingAt later).wallMs = wall + (after.total.ms - before.total.ms)) ∧
      (i = 0 ∨ before.start ≤ earlier →
        (z.readingAt earlier).wallMs = wall - (after.total.ms - before.total.ms)) := by
  cases h with
  | @gap i before after _ hskip =>
      refine ⟨i, before, after, hskip, fun hnext => ?_, fun hstart => ?_⟩
      · rw [wallMs_readingAt hz hlater, hskip.offsetAt_later hz hnext]
        dsimp only
        omega
      · rw [wallMs_readingAt hz hearlier, hskip.offsetAt_earlier hz hstart]
        dsimp only
        omega

end

/-- The picks of a resolved reading. They are valid, and to reject is to accept a unique reading
alone. The earlier pick of a gap or an overlap comes before the later one; the compatible one is the
earlier of an overlap and the later of a gap. Every pick shows the reading, unless it is skipped:
then none does, and the picks show the reading moved by the change of the skipping transition, the
later one on, if no other transition has followed by then, and the earlier one back, if the
regime before the transition had begun. -/
theorem picks_of_resolved_reading {z : Zone} {r : Reading} {res : Resolution} (hz : z.Accepted)
    (hr : r.Accepted) (h : z.resolve r = .ok res) :
    (∀ d t, res.pick d = .ok t → t.Valid) ∧
    ((∃ t, res.pick .reject = .ok t) ↔ res.isUnique = true) ∧
    (res.isUnique = false →
      (∃ p, res.pick .reject = .error p ∧ p.kind = .range) ∧
      ∃ earlier later, res.pick .earlier = .ok earlier ∧ res.pick .later = .ok later ∧
        earlier < later) ∧
    (∀ t, res = .unique t → ∀ d, res.pick d = .ok t) ∧
    (∀ earlier later, res = .overlap earlier later → res.pick .compatible = res.pick .earlier) ∧
    ((∀ earlier later, res ≠ .gap earlier later) →
      ∀ d t, res.pick d = .ok t → z.toReading t = .ok r) ∧
    ∀ earlier later, res = .gap earlier later →
      res.pick .compatible = res.pick .later ∧
      (∀ d t, res.pick d = .ok t → z.toReading t ≠ .ok r) ∧
      ∃ i before after, z.FirstSkip r.wallMs i before after ∧
        (∀ t, res.pick .later = .ok t →
          (∀ next, z.regimes[i + 2]? = some next → t < next.start) →
          ∃ a, z.toReading t = .ok a ∧
            a.wallMs = r.wallMs + (after.total.ms - before.total.ms)) ∧
        (∀ t, res.pick .earlier = .ok t → i = 0 ∨ before.start ≤ t →
          ∃ a, z.toReading t = .ok a ∧
            a.wallMs = r.wallMs - (after.total.ms - before.total.ms)) := by
  rw [accepted_iff_wellFormed] at hz
  rw [Reading.accepted_iff_valid] at hr
  obtain ⟨hres, hvalid⟩ := (resolve_eq_ok_iff hz hr).mp h
  have hpick : ∀ d t, res.pick d = .ok t → t.Valid := fun d t ht =>
    hvalid t (Resolution.mem_instants_of_pick ht)
  refine ⟨hpick, Resolution.exists_pick_reject_iff, fun hunique => ?_, ?_, ?_,
    fun hgap d t ht => ?_, ?_⟩
  · exact ⟨Resolution.pick_reject_of_not_unique hunique, hres.earlier_lt_later hunique⟩
  · rintro t rfl d
    rfl
  · rintro earlier later rfl
    rfl
  · rw [toReading_eq_ok_iff hz hr (hpick d t ht)]
    exact hres.mem_showing hgap (Resolution.mem_instants_of_pick ht)
  · rintro earlier later rfl
    obtain ⟨hearlier, hlater⟩ := Resolution.valid_gap.mp hvalid
    obtain ⟨i, before, after, hskip, hon, hback⟩ := hres.readings_of_gap hz hearlier hlater
    refine ⟨rfl, fun d t ht hread => ?_, i, before, after, hskip, ?_, ?_⟩
    · rw [toReading_eq_ok_iff hz hr (hpick d t ht), hres.showing_eq_empty] at hread
      exact hread
    · rintro t ⟨⟩ hnext
      exact ⟨_, if_pos hlater, hon hnext⟩
    · rintro t ⟨⟩ hstart
      exact ⟨_, if_pos hearlier, hback hstart⟩

/-- Half past one is skipped by a transition from one to two o'clock. The later pick shows half past
two, and the earlier one half past midnight. -/
theorem picks_of_skipped_half_hour :
    let z := ofChanges ⟨0⟩ [(⟨3600000⟩, ⟨60⟩)]
    let r : Reading := ⟨⟨1970, 1, 1⟩, ⟨1, 30, 0, 0⟩⟩
    z.Accepted ∧ r.Accepted ∧ z.resolve r = .ok (.gap ⟨1800000⟩ ⟨5400000⟩) ∧
      (∃ a, z.toReading ⟨5400000⟩ = .ok a ∧ a.wallMs = r.wallMs + 3600000) ∧
      (∃ a, z.toReading ⟨1800000⟩ = .ok a ∧ a.wallMs = r.wallMs - 3600000) ∧
      z.toReading ⟨5400000⟩ ≠ .ok r := by
  intro z r
  have hz : z.Accepted := by decide
  have hr : r.Accepted := ⟨1970, 1, 1, 1, 30, 0, 0, by decide⟩
  have h : z.resolve r = .ok (.gap ⟨1800000⟩ ⟨5400000⟩) := by decide +kernel
  obtain ⟨-, -, -, -, -, -, hgap⟩ := picks_of_resolved_reading hz hr h
  obtain ⟨-, hnone, i, before, after, hskip, hlater, hearlier⟩ := hgap _ _ rfl
  -- there is one transition only
  obtain ⟨hlt, heq⟩ := List.getElem?_eq_some_iff.mp hskip.transition
  obtain rfl : i = 0 := Nat.lt_one_iff.mp hlt
  obtain ⟨rfl, rfl⟩ := Prod.mk.inj heq
  exact ⟨hz, hr, h, hlater _ rfl nofun, hearlier _ rfl (Or.inl rfl), hnone .later _ rfl⟩

end Zone

end ZoneHistory
