import ZoneHistory.Proofs.Zone.History

/-!
# Looking up a regime

At every instant exactly one regime of a well formed zone is in effect (`Zone.InEffect`): a regime
lasts from its start until right before the start of the next one, the first one has been in
effect since always, and the last one stays in effect. `indexAt` finds its index
(`inEffect_iff`).

The starts ascend, so the regimes that have started come before all those that have not. Any
search for the border between the two leads to the same index (`StartedUpTo.inEffect`): it is the
one before the border, or the first if no regime has started.

For a span of time, `near` gives the regimes in effect at some instant of it (`mem_near_iff`). No
regime between the two ends is passed over, because each is in effect at its own start.
-/

namespace ZoneHistory

namespace Zone

/-- The regime at the index has started, unless it is the first one, and the next one has not, if
there is one. -/
structure InEffect (z : Zone) (i : Nat) (t : Instant) : Prop where
  lt_length : i < z.regimes.length
  started : ∀ g, z.regimes[i]? = some g → i = 0 ∨ g.start ≤ t
  lasts : ∀ next, z.regimes[i + 1]? = some next → t < next.start

/-- The regimes before the index are those that have started. -/
structure StartedUpTo (z : Zone) (n : Nat) (t : Instant) : Prop where
  le_length : n ≤ z.regimes.length
  started_iff : ∀ i g, z.regimes[i]? = some g → (g.start ≤ t ↔ i < n)

section
variable {z : Zone} (hz : z.WellFormed)
include hz

/-! ## One instant -/

theorem inEffect_indexAt (t : Instant) : z.InEffect (z.indexAt t) t := by
  refine ⟨z.indexAt_lt t, ?_, fun next hnext => ?_⟩
  · cases h : z.indexAt t with
    | zero => exact fun _ _ => Or.inl rfl
    | succ i => exact fun g hg => Or.inr ((lt_indexAt_iff hz hg).mp (by omega))
  · refine Int.not_le.mp fun hle => ?_
    exact absurd ((lt_indexAt_iff hz hnext).mpr hle) (Nat.lt_irrefl _)

theorem inEffect_iff {i : Nat} {t : Instant} : z.InEffect i t ↔ z.indexAt t = i := by
  constructor
  · intro h
    obtain ⟨g, hg⟩ : ∃ g, z.regimes[i]? = some g := ⟨_, List.getElem?_eq_getElem h.lt_length⟩
    exact indexAt_eq hz hg (h.started g hg) h.lasts
  · rintro rfl
    exact inEffect_indexAt hz t

theorem exists_startedUpTo (t : Instant) : ∃ n, z.StartedUpTo n t := by
  by_cases hfirst : z.first.start ≤ t
  · refine ⟨z.indexAt t + 1, z.indexAt_lt t, fun i g hg => ?_⟩
    cases i with
    | zero =>
        obtain rfl : z.first = g := Option.some.inj hg
        exact iff_of_true hfirst (Nat.succ_pos _)
    | succ i => rw [← lt_indexAt_iff hz hg, Nat.add_lt_add_iff_right]
  · -- no regime starts before the first one
    refine ⟨0, Nat.zero_le _, fun i g hg => iff_of_false (fun hle => hfirst ?_) (Nat.not_lt_zero i)⟩
    exact Int.le_trans (hz.start_le_start (Nat.zero_le i) rfl hg) hle

/-! ## A span of time -/

theorem mem_near_iff {start finish : Instant} (h : start ≤ finish) {i : Nat} :
    (z.near start finish).1 ≤ i ∧ i < (z.near start finish).2 ↔
      ∃ t, start ≤ t ∧ t ≤ finish ∧ z.indexAt t = i := by
  simp only [near]
  constructor
  · rintro ⟨hfrom, hto⟩
    rcases Nat.lt_or_eq_of_le hfrom with hlt | rfl
    · obtain ⟨k, rfl⟩ : ∃ k, i = k + 1 := ⟨i - 1, by omega⟩
      have hlength := z.indexAt_lt finish
      obtain ⟨g, hg⟩ : ∃ g, z.regimes[k + 1]? = some g :=
        ⟨_, List.getElem?_eq_getElem (by omega)⟩
      -- the regime starts within the span
      have hafter : ¬g.start ≤ start := fun hle => by
        have := (lt_indexAt_iff hz hg).mpr hle
        omega
      have hbefore : g.start ≤ finish := (lt_indexAt_iff hz hg).mp (by omega)
      exact ⟨g.start, Int.le_of_lt (Int.not_le.mp hafter), hbefore, indexAt_start hz hg⟩
    · exact ⟨start, Int.le_refl _, h, rfl⟩
  · rintro ⟨t, hfrom, hto, rfl⟩
    exact ⟨indexAt_mono hfrom z, Nat.lt_succ_of_le (indexAt_mono hto z)⟩

end

theorem StartedUpTo.inEffect {z : Zone} {n : Nat} {t : Instant} (h : z.StartedUpTo n t) :
    z.InEffect (n - 1) t := by
  have hlength := h.le_length
  have hpos : 0 < z.regimes.length := Nat.succ_pos _
  refine ⟨by omega, fun g hg => ?_, fun next hnext => ?_⟩
  · rcases Nat.eq_zero_or_pos n with rfl | hn
    · exact Or.inl rfl
    · exact Or.inr ((h.started_iff _ g hg).mpr (by omega))
  · refine Int.not_le.mp fun hle => ?_
    have := (h.started_iff _ next hnext).mp hle
    omega

/-- The look-up finds the one regime in effect, at every instant and whichever way the border
between the regimes that have started and the others is searched for; later instants never give an
earlier regime. The regimes near a span are those in effect at its instants: they follow each
other, and there is one. -/
theorem lookup_finds_regime_in_effect {z : Zone} (hz : z.Accepted) :
    (∀ t, z.indexAt t < z.regimes.length ∧ z.regimes[z.indexAt t]? = some (z.regimeAt t)) ∧
    (∀ i t, z.InEffect i t ↔ z.indexAt t = i) ∧
    (∀ t, (∃ n, z.StartedUpTo n t) ∧ ∀ n, z.StartedUpTo n t → z.indexAt t = n - 1) ∧
    (∀ s t, s ≤ t → z.indexAt s ≤ z.indexAt t) ∧
    ∀ start finish, start ≤ finish →
      (z.near start finish).1 < (z.near start finish).2 ∧
      (z.near start finish).2 ≤ z.regimes.length ∧
      ∀ i, (z.near start finish).1 ≤ i ∧ i < (z.near start finish).2 ↔
        ∃ t, start ≤ t ∧ t ≤ finish ∧ z.indexAt t = i := by
  rw [accepted_iff_wellFormed] at hz
  refine ⟨fun t => ⟨z.indexAt_lt t, z.getElem?_indexAt t⟩, fun i t => inEffect_iff hz,
    fun t => ⟨exists_startedUpTo hz t, fun n hn => (inEffect_iff hz).mp hn.inEffect⟩,
    fun s t hle => indexAt_mono hle z, fun start finish h => ⟨?_, ?_, fun i => mem_near_iff hz h⟩⟩
  · exact Nat.lt_succ_of_le (indexAt_mono h z)
  · exact z.indexAt_lt finish

/-- A first regime that starts two milliseconds before the next one. It is in effect before any
regime has started, and the span that ends with the last start has all three near it. -/
theorem lookup_before_the_first_start :
    let z : Zone := ⟨"Late", ⟨⟨1000⟩, ⟨0⟩, none, "A"⟩,
      [⟨⟨1002⟩, ⟨60⟩, none, "B"⟩, ⟨⟨2000⟩, ⟨0⟩, none, "C"⟩]⟩
    z.Accepted ∧ z.InEffect 0 Instant.beginning ∧ z.StartedUpTo 0 Instant.beginning ∧
      z.near Instant.beginning ⟨2000⟩ = (0, 3) ∧
      ∃ t, Instant.beginning ≤ t ∧ t ≤ ⟨2000⟩ ∧ z.indexAt t = 1 := by
  intro z
  have hz : z.Accepted := by decide
  obtain ⟨-, heffect, hsearch, -, hspan⟩ := lookup_finds_regime_in_effect hz
  obtain ⟨⟨n, hn⟩, hindex⟩ := hsearch Instant.beginning
  have hfirst : ¬z.first.start ≤ Instant.beginning := by decide
  obtain rfl : n = 0 := Nat.eq_zero_of_not_pos fun hpos =>
    hfirst ((hn.started_iff 0 z.first rfl).mpr hpos)
  obtain ⟨-, -, hnear⟩ := hspan Instant.beginning ⟨2000⟩ (by decide)
  exact ⟨hz, (heffect 0 _).mpr (hindex 0 hn), hn, by decide, (hnear 1).mp (by decide)⟩

end Zone

end ZoneHistory
