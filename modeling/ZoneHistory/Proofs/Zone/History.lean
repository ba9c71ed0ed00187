import Mathlib.Order.Basic
import ZoneHistory.Zone

/-!
# The history of a zone

What `Zone.make` accepts and what a look-up then finds. A zone made of accepted
regimes is a well formed one and the other way around (`accepted_iff_wellFormed`).

In a well formed zone the regimes start one after the other, so `indexAt` counts
the later regimes that have started (`lt_indexAt_iff`), and leaving out the first
regime moves the look-up by one (`regimeAt_cons`). `widestMs` bounds every offset
(`total_mem_widest`) and stays below a day.

`ofChanges` builds the zones of the examples.
-/

namespace ZoneHistory

namespace Instant

theorem le_def {a b : Instant} : a ≤ b ↔ a.ms ≤ b.ms := Iff.rfl

theorem lt_def {a b : Instant} : a < b ↔ a.ms < b.ms := Iff.rfl

theorem ext_ms {a b : Instant} (h : a.ms = b.ms) : a = b := by
  cases a
  cases b
  exact congrArg Instant.mk h

end Instant

/-! ## Accepted zones -/

theorem Regime.WellFormed.beginning_le {g : Regime} (hg : g.WellFormed) :
    Instant.beginning ≤ g.start := by
  rcases hg.start with h | h
  · rw [h]
    exact Int.le_refl _
  · exact Int.le_trans (by decide) h.1

/-- The regime was made from checked parts. -/
def Regime.Accepted (g : Regime) : Prop :=
  ∃ start standard saving abbreviation,
    Regime.make start standard saving abbreviation = .ok g

theorem Regime.accepted_iff_wellFormed {g : Regime} : g.Accepted ↔ g.WellFormed := by
  constructor
  · rintro ⟨start, standard, saving, abbreviation, h⟩
    exact (Regime.make_eq_ok_iff.mp h).2
  · intro h
    exact ⟨_, _, _, _, Regime.make_eq_ok_iff.mpr ⟨rfl, h⟩⟩

instance (g : Regime) : Decidable g.WellFormed :=
  decidable_of_iff
    ((g.start = Instant.beginning ∨ g.start.Valid) ∧ g.standard.WithinDay ∧ g.total.WithinDay ∧
      IsAbbreviation g.abbreviation)
    ⟨fun ⟨hstart, hstandard, htotal, habbreviation⟩ => ⟨hstart, hstandard, htotal, habbreviation⟩,
      fun h => ⟨h.start, h.standard, h.total, h.abbreviation⟩⟩

namespace Zone

/-- The zone was made from accepted regimes. -/
def Accepted (z : Zone) : Prop :=
  ∃ identifier regimes,
    (∀ g ∈ regimes, g.Accepted) ∧ Zone.make identifier regimes = .ok z

/-- Neighbours in ascending order are in ascending order throughout. -/
theorem firstDisorder?_eq_none_iff {before : Regime} {rest : List Regime} {index : Nat} :
    firstDisorder? before rest index = none ↔
      (before :: rest).Pairwise fun a b => a.start < b.start := by
  induction rest generalizing before index with
  | nil => simp [firstDisorder?]
  | cons g rest ih =>
      rw [firstDisorder?]
      by_cases hlt : before.start < g.start
      · rw [if_pos hlt, ih, List.pairwise_cons (a := before)]
        refine ⟨fun h => ⟨fun b hb => ?_, h⟩, fun h => h.2⟩
        rcases List.mem_cons.mp hb with rfl | hb
        · exact hlt
        · exact Int.lt_trans hlt ((List.pairwise_cons.mp h).1 b hb)
      · rw [if_neg hlt]
        refine ⟨nofun, fun h => ?_⟩
        exact absurd ((List.pairwise_cons.mp h).1 g List.mem_cons_self) hlt

theorem accepted_iff_wellFormed {z : Zone} : z.Accepted ↔ z.WellFormed := by
  constructor
  · rintro ⟨identifier, regimes, hregimes, hz⟩
    obtain ⟨-, rfl, hsorted⟩ := Zone.make_eq_ok_iff.mp hz
    exact ⟨fun g hg => Regime.accepted_iff_wellFormed.mp (hregimes g hg),
      firstDisorder?_eq_none_iff.mp hsorted⟩
  · rintro ⟨hregimes, hsorted⟩
    exact ⟨_, _, fun g hg => Regime.accepted_iff_wellFormed.mpr (hregimes g hg),
      Zone.make_eq_ok_iff.mpr ⟨rfl, rfl, firstDisorder?_eq_none_iff.mpr hsorted⟩⟩

instance (z : Zone) : Decidable z.WellFormed :=
  decidable_of_iff
    ((∀ g ∈ z.regimes, g.WellFormed) ∧ z.regimes.Pairwise fun a b => a.start < b.start)
    ⟨fun ⟨hregimes, hsorted⟩ => ⟨hregimes, hsorted⟩, fun h => ⟨h.regimes, h.ascending⟩⟩

instance (z : Zone) : Decidable z.Accepted :=
  decidable_of_iff z.WellFormed accepted_iff_wellFormed.symm

/-- Only the first regime may start at the beginning of time. -/
theorem WellFormed.start_valid {z : Zone} (hz : z.WellFormed) {g : Regime}
    (hg : g ∈ z.later) : g.start.Valid := by
  have hlt : z.first.start < g.start := (List.pairwise_cons.mp hz.ascending).1 g hg
  have hge := (hz.regimes z.first List.mem_cons_self).beginning_le
  rcases (hz.regimes g (List.mem_cons_of_mem _ hg)).start with h | h
  · rw [h] at hlt
    exact absurd (Int.lt_of_le_of_lt hge hlt) (Int.lt_irrefl _)
  · exact h

theorem WellFormed.tail {name : String} {first next : Regime} {rest : List Regime}
    (hz : (Zone.mk name first (next :: rest)).WellFormed) :
    (Zone.mk name next rest).WellFormed :=
  ⟨fun g hg => hz.regimes g (List.mem_cons_of_mem _ hg), hz.ascending.of_cons⟩

/-! ## The regime in effect -/

theorem getElem?_indexAt (z : Zone) (t : Instant) :
    z.regimes[z.indexAt t]? = some (z.regimeAt t) :=
  List.getElem?_eq_getElem (z.indexAt_lt t)

theorem regimeAt_of_indexAt {z : Zone} {t : Instant} {i : Nat} {g : Regime}
    (hg : z.regimes[i]? = some g) (h : z.indexAt t = i) : z.regimeAt t = g := by
  have heq := z.getElem?_indexAt t
  rw [h, hg] at heq
  exact (Option.some.inj heq).symm

theorem regimeAt_mem (z : Zone) (t : Instant) : z.regimeAt t ∈ z.regimes :=
  List.getElem_mem _

theorem indexAt_cons (name : String) (first next : Regime) (rest : List Regime) (t : Instant) :
    (Zone.mk name first (next :: rest)).indexAt t =
      if next.start ≤ t then (Zone.mk name next rest).indexAt t + 1 else 0 := by
  simp only [indexAt, List.takeWhile_cons]
  by_cases h : next.start ≤ t
  · simp [h]
  · simp [h]

/-- Once the second regime has started, the first one plays no part. -/
theorem regimeAt_cons (name : String) (first next : Regime) (rest : List Regime) (t : Instant) :
    (Zone.mk name first (next :: rest)).regimeAt t =
      if next.start ≤ t then (Zone.mk name next rest).regimeAt t else first := by
  have hwhole := getElem?_indexAt ⟨name, first, next :: rest⟩ t
  have hrest := getElem?_indexAt ⟨name, next, rest⟩ t
  rw [indexAt_cons] at hwhole
  by_cases h : next.start ≤ t
  · rw [if_pos h] at hwhole ⊢
    rw [regimes, List.getElem?_cons_succ] at hwhole
    exact Option.some.inj (hwhole.symm.trans hrest)
  · rw [if_neg h] at hwhole ⊢
    rw [regimes, List.getElem?_cons_zero] at hwhole
    exact (Option.some.inj hwhole).symm

/-- The look-up asks for nothing but which of the later regimes have started. -/
theorem regimeAt_congr {s t : Instant} : ∀ {z : Zone},
    (∀ g ∈ z.later, g.start ≤ s ↔ g.start ≤ t) → z.regimeAt s = z.regimeAt t
  | ⟨_, _, []⟩, _ => rfl
  | ⟨name, first, next :: rest⟩, h => by
      have hnext := h next List.mem_cons_self
      have hrest : (Zone.mk name next rest).regimeAt s = (Zone.mk name next rest).regimeAt t :=
        regimeAt_congr fun g hg => h g (List.mem_cons_of_mem _ hg)
      simp only [regimeAt_cons, hnext, hrest]

theorem regimeAt_of_forall_lt {t : Instant} : ∀ {z : Zone},
    (∀ g ∈ z.later, t < g.start) → z.regimeAt t = z.first
  | ⟨_, _, []⟩, _ => rfl
  | ⟨name, first, next :: rest⟩, h => by
      have hnext : ¬next.start ≤ t := Int.not_le.mpr (h next List.mem_cons_self)
      rw [regimeAt_cons, if_neg hnext]

/-- Until its start and before, the first regime is in effect. -/
theorem regimeAt_of_lt_start {z : Zone} (hz : z.WellFormed) {t : Instant} (h : t < z.first.start) :
    z.regimeAt t = z.first :=
  regimeAt_of_forall_lt fun g hg =>
    Int.lt_trans h ((List.pairwise_cons.mp hz.ascending).1 g hg)

theorem lt_indexAt_iff {t : Instant} {g : Regime} : ∀ {z : Zone}, z.WellFormed →
    ∀ {i : Nat}, z.regimes[i + 1]? = some g → (i < z.indexAt t ↔ g.start ≤ t)
  | ⟨name, first, []⟩, _, i, hg => by simp [regimes] at hg
  | ⟨name, first, next :: rest⟩, hz, 0, hg => by
      obtain rfl : next = g := by simpa [regimes] using hg
      rw [indexAt_cons]
      by_cases h : next.start ≤ t
      · simp [h]
      · simp [h]
  | ⟨name, first, next :: rest⟩, hz, i + 1, hg => by
      have hrest : (Zone.mk name next rest).regimes[i + 1]? = some g := by
        simpa [regimes] using hg
      have hlt : next.start < g.start :=
        (List.pairwise_cons.mp hz.tail.ascending).1 g (List.mem_of_getElem? (by
          simpa [regimes] using hrest))
      rw [indexAt_cons]
      by_cases h : next.start ≤ t
      · rw [if_pos h, Nat.add_lt_add_iff_right, lt_indexAt_iff hz.tail hrest]
      · have hlate : ¬g.start ≤ t := fun hle => h (Int.le_of_lt (Int.lt_of_lt_of_le hlt hle))
        simp [h, hlate]

/-- The index found is that of the regime that has started while the next one has not. -/
theorem indexAt_eq {z : Zone} (hz : z.WellFormed) {t : Instant} {i : Nat} {g : Regime}
    (hg : z.regimes[i]? = some g) (hstart : i = 0 ∨ g.start ≤ t)
    (hnext : ∀ next, z.regimes[i + 1]? = some next → t < next.start) : z.indexAt t = i := by
  have hge : i ≤ z.indexAt t := by
    cases i with
    | zero => exact Nat.zero_le _
    | succ i => exact (lt_indexAt_iff hz hg).mpr (hstart.resolve_left (Nat.succ_ne_zero i))
  have hle : z.indexAt t ≤ i := by
    refine Nat.not_lt.mp fun hlt => ?_
    have hlength := z.indexAt_lt t
    obtain ⟨next, h⟩ : ∃ next, z.regimes[i + 1]? = some next :=
      ⟨_, List.getElem?_eq_getElem (by omega)⟩
    exact absurd ((lt_indexAt_iff hz h).mp hlt) (Int.not_le.mpr (hnext next h))
  exact Nat.le_antisymm hle hge

theorem regimeAt_eq {z : Zone} (hz : z.WellFormed) {t : Instant} {i : Nat} {g : Regime}
    (hg : z.regimes[i]? = some g) (hstart : i = 0 ∨ g.start ≤ t)
    (hnext : ∀ next, z.regimes[i + 1]? = some next → t < next.start) : z.regimeAt t = g :=
  regimeAt_of_indexAt hg (indexAt_eq hz hg hstart hnext)

theorem WellFormed.start_lt_start {z : Zone} (hz : z.WellFormed) {i : Nat} {g next : Regime}
    (hg : z.regimes[i]? = some g) (hnext : z.regimes[i + 1]? = some next) :
    g.start < next.start := by
  obtain ⟨_, rfl⟩ := List.getElem?_eq_some_iff.mp hg
  obtain ⟨_, rfl⟩ := List.getElem?_eq_some_iff.mp hnext
  exact List.pairwise_iff_getElem.mp hz.ascending _ _ _ _ (Nat.lt_succ_self i)

theorem WellFormed.start_le_start {z : Zone} (hz : z.WellFormed) {i j : Nat} (hle : i ≤ j)
    {g g' : Regime} (hg : z.regimes[i]? = some g) (hg' : z.regimes[j]? = some g') :
    g.start ≤ g'.start := by
  obtain ⟨_, rfl⟩ := List.getElem?_eq_some_iff.mp hg
  obtain ⟨_, rfl⟩ := List.getElem?_eq_some_iff.mp hg'
  rcases Nat.lt_or_eq_of_le hle with hlt | rfl
  · exact Int.le_of_lt (List.pairwise_iff_getElem.mp hz.ascending _ _ _ _ hlt)
  · exact Int.le_refl _

/-- A regime is in effect from its start on. -/
theorem indexAt_start {z : Zone} (hz : z.WellFormed) {i : Nat} {g : Regime}
    (hg : z.regimes[i]? = some g) : z.indexAt g.start = i :=
  indexAt_eq hz hg (Or.inr (Int.le_refl _)) fun _ hnext => hz.start_lt_start hg hnext

theorem regimeAt_start {z : Zone} (hz : z.WellFormed) {i : Nat} {g : Regime}
    (hg : z.regimes[i]? = some g) : z.regimeAt g.start = g :=
  regimeAt_of_indexAt hg (indexAt_start hz hg)

/-- A regime is in effect until right before the start of the next one. -/
theorem regimeAt_before_start {z : Zone} (hz : z.WellFormed) {i : Nat} {g next : Regime}
    (hg : z.regimes[i]? = some g) (hnext : z.regimes[i + 1]? = some next) :
    z.regimeAt ⟨next.start.ms - 1⟩ = g := by
  refine regimeAt_eq hz hg (Or.inr (Int.le_sub_one_of_lt (hz.start_lt_start hg hnext))) ?_
  rintro next' hnext'
  obtain rfl := Option.some.inj (hnext.symm.trans hnext')
  exact Int.sub_one_lt_of_le (Int.le_refl _)

theorem indexAt_mono {s t : Instant} (h : s ≤ t) : ∀ z : Zone, z.indexAt s ≤ z.indexAt t
  | ⟨name, first, []⟩ => Nat.le_refl _
  | ⟨name, first, next :: rest⟩ => by
      rw [indexAt_cons, indexAt_cons]
      by_cases hs : next.start ≤ s
      · have ht : next.start ≤ t := Int.le_trans hs h
        rw [if_pos hs, if_pos ht]
        exact Nat.succ_le_succ (indexAt_mono h _)
      · rw [if_neg hs]
        exact Nat.zero_le _

/-! ## The widest offset -/

theorem widestMs_mem (z : Zone) :
    z.widestMs ∈ (0 : Int) :: z.regimes.map (fun g => (g.total.ms.natAbs : Int)) ∧
      ∀ ms ∈ (0 : Int) :: z.regimes.map (fun g => (g.total.ms.natAbs : Int)),
        ms ≤ z.widestMs :=
  List.max?_eq_some_iff.mp rfl

theorem total_mem_widest {z : Zone} {g : Regime} (hg : g ∈ z.regimes) :
    -z.widestMs ≤ g.total.ms ∧ g.total.ms ≤ z.widestMs := by
  have := (widestMs_mem z).2 _ (List.mem_cons_of_mem _ (List.mem_map_of_mem hg))
  omega

theorem offsetAt_mem_widest (z : Zone) (t : Instant) :
    -z.widestMs ≤ (z.offsetAt t).ms ∧ (z.offsetAt t).ms ≤ z.widestMs :=
  total_mem_widest (z.regimeAt_mem t)

theorem WellFormed.widestMs_lt {z : Zone} (hz : z.WellFormed) :
    0 ≤ z.widestMs ∧ z.widestMs < msPerDay := by
  refine ⟨(widestMs_mem z).2 0 List.mem_cons_self, ?_⟩
  rcases List.mem_cons.mp (widestMs_mem z).1 with h | h
  · rw [h]
    decide
  · obtain ⟨g, hg, h⟩ := List.mem_map.mp h
    have hday := (hz.regimes g hg).total
    rw [← h]
    simp only [Offset.WithinDay, Offset.minutesPerDay] at hday
    simp only [Offset.ms, msPerDay, msPerMinute]
    omega

/-! ## Zones given by their offsets -/

/-- The zone that keeps the first offset until the first change and then each new one. -/
def ofChanges (first : Offset) (changes : List (Instant × Offset)) : Zone :=
  ⟨"Changes", ⟨Instant.beginning, first, none, "X"⟩,
    changes.map fun change => ⟨change.1, change.2, none, "X"⟩⟩

theorem accepted_ofChanges {first : Offset} {changes : List (Instant × Offset)}
    (hfirst : first.WithinDay) (hchanges : ∀ change ∈ changes, change.1.Valid ∧ change.2.WithinDay)
    (hsorted : changes.Pairwise fun a b => a.1 < b.1) : (ofChanges first changes).Accepted := by
  have hregime {start : Instant} {offset : Offset}
      (hstart : start = Instant.beginning ∨ start.Valid) (hoffset : offset.WithinDay) :
      Regime.WellFormed ⟨start, offset, none, "X"⟩ := by
    refine ⟨hstart, hoffset, ?_, show IsAbbreviation "X" by decide⟩
    simpa [Regime.total, Regime.savingOrZero, Offset.WithinDay, Offset.zero] using hoffset
  refine accepted_iff_wellFormed.mpr ⟨?_, ?_⟩
  · rintro g hg
    rcases List.mem_cons.mp hg with rfl | hg
    · exact hregime (Or.inl rfl) hfirst
    · obtain ⟨change, hmem, rfl⟩ := List.mem_map.mp hg
      obtain ⟨hstart, hoffset⟩ := hchanges change hmem
      exact hregime (Or.inr hstart) hoffset
  · refine List.pairwise_cons.mpr ⟨?_, List.pairwise_map.mpr hsorted⟩
    rintro g hg
    obtain ⟨change, hmem, rfl⟩ := List.mem_map.mp hg
    exact Int.lt_of_lt_of_le (show Instant.leastMs < -Instant.limitMs by decide)
      (hchanges change hmem).1.1

end Zone

end ZoneHistory
