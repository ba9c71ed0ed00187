import ZoneHistory.Proofs.Zone.Exactness
import ZoneHistory.Proofs.Zone.Verdict

/-!
# Histories cut in different ways

A zone can be written down in many ways: with a regime split in two, with other abbreviations,
with minutes moved between the standard offset and the daylight saving amount, or with another
start of the first regime. Conversions see none of it. Main statement: two zones with the same
offset in effect at every instant convert alike (`conversions_depend_on_offsets`).

For the readings that some instant shows this is plain, since `Zone.showing` is a set of instants
that is said through the offset in effect. The first transition that skips a reading is said by its
index, and a transition between regimes of one offset moves that index. What it does not move is
the instant: a transition skips a wall time exactly if the clock jumps over it there
(`mem_jumps_iff`), and the first one is the least such instant (`FirstSkip.isLeast`).
-/

namespace ZoneHistory

namespace Zone

/-- The same offset is in effect at every instant of 64 bits. -/
def SameOffsets (z z' : Zone) : Prop :=
  ∀ t : Instant, Fits t.ms → z.offsetAt t = z'.offsetAt t

/-- Every conversion of the one zone is that of the other. -/
structure ConvertsAs (z z' : Zone) : Prop where
  toReading : ∀ t, z.toReading t = z'.toReading t
  resolve : ∀ r : Reading, r.Accepted → z.resolve r = z'.resolve r
  verify : ∀ r t, z.verify r t = z'.verify r t

/-! ## Instants outside the 64 bits -/

/-- All transitions are at valid instants, so the ends of the 64 bits stand for what is outside. -/
theorem regimeAt_saturate {z : Zone} (hz : z.WellFormed) (t : Instant) :
    z.regimeAt ⟨Instant.saturate t.ms⟩ = z.regimeAt t := by
  refine regimeAt_congr fun g hg => ?_
  obtain ⟨hfrom, hto⟩ := hz.start_valid hg
  unfold Instant.limitMs at hfrom hto
  rw [Instant.le_def, Instant.le_def]
  unfold Instant.saturate Instant.leastMs Instant.greatestMs
  dsimp only
  omega

theorem SameOffsets.offsetAt_eq {z z' : Zone} (hz : z.WellFormed) (hz' : z'.WellFormed)
    (h : z.SameOffsets z') (t : Instant) : z.offsetAt t = z'.offsetAt t := by
  have hfits : Fits (Instant.saturate t.ms) := by
    unfold Fits Instant.saturate Instant.leastMs Instant.greatestMs
    omega
  have heq := h ⟨Instant.saturate t.ms⟩ hfits
  rwa [offsetAt, offsetAt, regimeAt_saturate hz, regimeAt_saturate hz'] at heq

/-! ## Jumps -/

/-- The instants, in milliseconds, at which the clock of the zone jumps over a wall time. -/
def jumps (z : Zone) (wall : Int) : Set Int :=
  {t | t + (z.offsetAt ⟨t - 1⟩).ms ≤ wall ∧ wall < t + (z.offsetAt ⟨t⟩).ms}

theorem mem_jumps {z : Zone} {wall t : Int} :
    t ∈ z.jumps wall ↔
      t + (z.offsetAt ⟨t - 1⟩).ms ≤ wall ∧ wall < t + (z.offsetAt ⟨t⟩).ms := Iff.rfl

theorem offsetAt_of_transition {z : Zone} (hz : z.WellFormed) {i : Nat} {before after : Regime}
    (h : z.transitions[i]? = some (before, after)) :
    z.offsetAt ⟨after.start.ms - 1⟩ = before.total ∧ z.offsetAt after.start = after.total := by
  obtain ⟨hbefore, hafter⟩ := getElem?_transitions.mp h
  rw [offsetAt, offsetAt, regimeAt_before_start hz hbefore hafter, regimeAt_start hz hafter]
  exact ⟨rfl, rfl⟩

/-- The offset in effect changes at the starts of later regimes only. -/
theorem exists_transition_of_ne {z : Zone} {t : Int}
    (h : z.offsetAt ⟨t - 1⟩ ≠ z.offsetAt ⟨t⟩) :
    ∃ (i : Nat) (before after : Regime), z.transitions[i]? = some (before, after) ∧
      after.start.ms = t := by
  obtain ⟨after, hafter, hstart⟩ : ∃ g ∈ z.later, g.start.ms = t := by
    by_contra hnone
    refine h (congrArg Regime.total (regimeAt_congr fun g hg => ?_))
    have hne : g.start.ms ≠ t := fun heq => hnone ⟨g, hg, heq⟩
    rw [Instant.le_def, Instant.le_def]
    dsimp only
    omega
  obtain ⟨i, hi⟩ := List.mem_iff_getElem?.mp hafter
  obtain ⟨hlt, -⟩ := List.getElem?_eq_some_iff.mp hi
  obtain ⟨before, hbefore⟩ : ∃ before, z.regimes[i]? = some before :=
    ⟨_, List.getElem?_eq_getElem (Nat.lt_succ_of_lt hlt)⟩
  exact ⟨i, before, after, getElem?_transitions.mpr ⟨hbefore, hi⟩, hstart⟩

theorem mem_jumps_iff {z : Zone} (hz : z.WellFormed) {wall t : Int} :
    t ∈ z.jumps wall ↔ ∃ (i : Nat) (before after : Regime),
      z.transitions[i]? = some (before, after) ∧ after.start.ms = t ∧
        skips wall (before, after) = true := by
  constructor
  · rintro ⟨hfrom, hto⟩
    have hne : z.offsetAt ⟨t - 1⟩ ≠ z.offsetAt ⟨t⟩ := by
      intro heq
      rw [heq] at hfrom
      omega
    obtain ⟨i, before, after, htransition, rfl⟩ := exists_transition_of_ne hne
    obtain ⟨hbefore, hafter⟩ := offsetAt_of_transition hz htransition
    rw [hbefore] at hfrom
    rw [hafter] at hto
    exact ⟨i, before, after, htransition, rfl, skips_iff.mpr ⟨hfrom, hto⟩⟩
  · rintro ⟨i, before, after, htransition, rfl, hskips⟩
    obtain ⟨hbefore, hafter⟩ := offsetAt_of_transition hz htransition
    obtain ⟨hfrom, hto⟩ := skips_iff.mp hskips
    refine ⟨?_, ?_⟩
    · rw [hbefore]
      exact hfrom
    · rw [hafter]
      exact hto

/-- The first transition that skips a wall time is where the clock first jumps over it. -/
theorem FirstSkip.isLeast {z : Zone} (hz : z.WellFormed) {wall : Int} {i : Nat}
    {before after : Regime} (h : z.FirstSkip wall i before after) :
    IsLeast (z.jumps wall) after.start.ms := by
  refine ⟨(mem_jumps_iff hz).mpr ⟨i, before, after, h.transition, rfl, h.skips⟩, fun t ht => ?_⟩
  obtain ⟨j, other, next, htransition, rfl, hskips⟩ := (mem_jumps_iff hz).mp ht
  have hle : i ≤ j := by
    refine Nat.not_lt.mp fun hlt => ?_
    rw [h.first j hlt _ htransition] at hskips
    cases hskips
  exact hz.start_le_start (Nat.succ_le_succ hle) (getElem?_transitions.mp h.transition).2
    (getElem?_transitions.mp htransition).2

/-! ## Equal offsets, equal conversions -/

section
variable {z z' : Zone} (hz : z.WellFormed) (hz' : z'.WellFormed) (h : z.SameOffsets z')
include hz hz' h

theorem SameOffsets.showing_eq (wall : Int) : z.showing wall = z'.showing wall := by
  ext t
  rw [mem_showing, mem_showing, h.offsetAt_eq hz hz']

theorem SameOffsets.jumps_eq (wall : Int) : z.jumps wall = z'.jumps wall := by
  ext t
  rw [mem_jumps, mem_jumps, h.offsetAt_eq hz hz', h.offsetAt_eq hz hz']

theorem SameOffsets.resolves {r : Reading} (hr : r.Valid) {res : Resolution}
    (hres : z.Resolves r.wallMs res) : z'.Resolves r.wallMs res := by
  have hshowing := h.showing_eq hz hz' r.wallMs
  cases hres with
  | unique hone => exact Resolves.unique (hshowing ▸ hone)
  | overlap hlt hleast hgreatest =>
      exact Resolves.overlap hlt (hshowing ▸ hleast) (hshowing ▸ hgreatest)
  | @gap i before after hempty hskip =>
      have hempty' : z'.showing r.wallMs = ∅ := hshowing ▸ hempty
      obtain ⟨j, before', after', hskip', -⟩ := exists_firstSkip hz' hr hempty'
      -- both transitions are at the first jump, where the offsets are the same on either side
      have hleast := hskip.isLeast hz
      rw [h.jumps_eq hz hz'] at hleast
      have hstart := Instant.ext_ms (hleast.unique (hskip'.isLeast hz'))
      obtain ⟨hbefore, hafter⟩ := offsetAt_of_transition hz hskip.transition
      obtain ⟨hbefore', hafter'⟩ := offsetAt_of_transition hz' hskip'.transition
      rw [h.offsetAt_eq hz hz', hstart] at hbefore hafter
      rw [← hbefore, ← hafter, hbefore', hafter']
      exact Resolves.gap hempty' hskip'

theorem SameOffsets.toReading_eq (t : Instant) : z.toReading t = z'.toReading t := by
  rw [toReading, toReading, readingAt, readingAt, h.offsetAt_eq hz hz']

theorem SameOffsets.resolve_eq {r : Reading} (hr : r.Valid) : z.resolve r = z'.resolve r := by
  obtain ⟨res, hres⟩ := exists_resolves hz hr
  rw [resolve_eq_of_resolves hz hr hres, resolve_eq_of_resolves hz' hr (h.resolves hz hz' hr hres)]

/-- A reading that is checked is resolved only if an instant shows it, and is then valid. -/
theorem SameOffsets.verify_eq (r : Reading) (t : Instant) : z.verify r t = z'.verify r t := by
  have hread := h.toReading_eq hz hz' t
  by_cases ht : t.Valid
  · have hshown : z.toReading t = .ok (z.readingAt t) := if_pos ht
    by_cases heq : z.readingAt t = r
    · have hr : r.Valid := heq ▸ valid_readingAt hz ht
      rw [verify, verify, hread, h.resolve_eq hz hz' hr]
    · rw [verify_of_toReading_ne hshown heq, verify_of_toReading_ne (hread ▸ hshown) heq]
  · rw [verify_of_not_valid ht, verify_of_not_valid ht]

end

/-! ## Regimes cut again -/

/-- The second list of regimes cuts the time after an offset as the first list does, or finer. A
regime keeps its start and its total offset; one that is added keeps the offset in effect. -/
inductive Recut : Offset → List Regime → List Regime → Prop
  | done {offset : Offset} : Recut offset [] []
  | keep {offset : Offset} {g g' : Regime} {rest rest' : List Regime} :
      g'.start = g.start → g'.total = g.total → Recut g.total rest rest' →
      Recut offset (g :: rest) (g' :: rest')
  | split {offset : Offset} {g' : Regime} {rest rest' : List Regime} :
      g'.total = offset → Recut offset rest rest' → Recut offset rest (g' :: rest')

/-- The second zone comes from the first by splitting regimes at any instants, by other
abbreviations, by moving minutes between the standard offsets and the daylight saving amounts and
by another start of the first regime. -/
structure RecutAs (z z' : Zone) : Prop where
  first : z'.first.total = z.first.total
  later : Recut z.first.total z.later z'.later

/-- The induction goes along the two lists with any two regimes of the offset in front of them. -/
theorem Recut.offsetAt_eq {offset : Offset} {later later' : List Regime}
    (h : Recut offset later later') (hsorted : later'.Pairwise fun a b => a.start < b.start)
    (t : Instant) {name name' : String} {first first' : Regime} (hfirst : first.total = offset)
    (hfirst' : first'.total = offset) :
    (Zone.mk name first later).offsetAt t = (Zone.mk name' first' later').offsetAt t := by
  induction h generalizing name name' first first' with
  | done => exact hfirst.trans hfirst'.symm
  | @keep offset g g' rest rest' hstart htotal _ ih =>
      have hrest : (Zone.mk name g rest).offsetAt t = (Zone.mk name' g' rest').offsetAt t :=
        ih hsorted.of_cons rfl htotal
      rw [offsetAt, offsetAt] at hrest ⊢
      rw [regimeAt_cons, regimeAt_cons, hstart]
      split
      · exact hrest
      · exact hfirst.trans hfirst'.symm
  | @split offset g' rest rest' htotal _ ih =>
      have hrest : (Zone.mk name first rest).offsetAt t = (Zone.mk name' g' rest').offsetAt t :=
        ih hsorted.of_cons hfirst htotal
      rw [hrest, offsetAt, offsetAt, regimeAt_cons]
      split
      · rfl
      next hstart =>
        -- none of the regimes after the added one has started either
        have hnone : ∀ g ∈ rest', t < g.start := fun g hg =>
          Int.lt_trans (Int.not_le.mp hstart) ((List.pairwise_cons.mp hsorted).1 g hg)
        rw [regimeAt_of_forall_lt hnone, hfirst']
        exact htotal

theorem RecutAs.sameOffsets {z z' : Zone} (hz' : z'.WellFormed) (h : z.RecutAs z') :
    z.SameOffsets z' := fun t _ =>
  h.later.offsetAt_eq hz'.ascending.of_cons t rfl h.first

/-- Conversions depend on the offset in effect and not on how it is cut into regimes. Two accepted
zones with the same offset at every instant have the same reading at each of them, the same
resolution or refusal of each accepted reading and the same verdict about any reading and instant;
and zones cut again have the same offsets. -/
theorem conversions_depend_on_offsets {z z' : Zone} (hz : z.Accepted) (hz' : z'.Accepted) :
    (z.SameOffsets z' → z.ConvertsAs z') ∧ (z.RecutAs z' → z.SameOffsets z') := by
  rw [accepted_iff_wellFormed] at hz hz'
  refine ⟨fun h => ⟨h.toReading_eq hz hz', fun r hr => ?_, h.verify_eq hz hz'⟩,
    RecutAs.sameOffsets hz'⟩
  exact h.resolve_eq hz hz' (Reading.accepted_iff_valid.mp hr)

/-- One day of an hour more, and the same with the times before and during it split in two, the
hour given once as daylight saving time and once as the standard offset, and a first regime that
starts late. The half hour that is skipped has one gap in both. -/
theorem gap_of_history_cut_finer :
    let z := ofChanges ⟨0⟩ [(⟨0⟩, ⟨60⟩), (⟨86400000⟩, ⟨0⟩)]
    let z' : Zone := ⟨"Finer", ⟨⟨-7200000⟩, ⟨30⟩, some ⟨-30⟩, "A"⟩,
      [⟨⟨-3600000⟩, ⟨0⟩, none, "B"⟩, ⟨⟨0⟩, ⟨0⟩, some ⟨60⟩, "C"⟩, ⟨⟨60000⟩, ⟨60⟩, none, "D"⟩,
        ⟨⟨86400000⟩, ⟨0⟩, some ⟨0⟩, "E"⟩]⟩
    let r : Reading := ⟨⟨1970, 1, 1⟩, ⟨0, 30, 0, 0⟩⟩
    z.Accepted ∧ z'.Accepted ∧ r.Accepted ∧ z.RecutAs z' ∧ z.SameOffsets z' ∧ z.ConvertsAs z' ∧
      z'.resolve r = .ok (.gap ⟨-1800000⟩ ⟨1800000⟩) := by
  intro z z' r
  have hz : z.Accepted := accepted_ofChanges (by decide) (by decide) (by decide)
  have hparts : ∀ g ∈ z'.regimes, g.start.Valid ∧ g.standard.WithinDay ∧ g.total.WithinDay ∧
      IsAbbreviation g.abbreviation := by decide
  have hz' : z'.Accepted := by
    refine accepted_iff_wellFormed.mpr ⟨fun g hg => ?_, by decide⟩
    obtain ⟨hstart, hstandard, htotal, habbreviation⟩ := hparts g hg
    exact ⟨Or.inr hstart, hstandard, htotal, habbreviation⟩
  have hr : r.Accepted := ⟨1970, 1, 1, 0, 30, 0, 0, by decide⟩
  have hcut : z.RecutAs z' :=
    ⟨by decide, .split (by decide) (.keep rfl (by decide) (.split (by decide)
      (.keep rfl (by decide) .done)))⟩
  obtain ⟨hconverts, hoffsets⟩ := conversions_depend_on_offsets hz hz'
  have hsame := hoffsets hcut
  refine ⟨hz, hz', hr, hcut, hsame, hconverts hsame, ?_⟩
  rw [← (hconverts hsame).resolve r hr]
  decide +kernel

end Zone

end ZoneHistory
