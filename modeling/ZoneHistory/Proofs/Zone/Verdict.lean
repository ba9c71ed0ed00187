import ZoneHistory.Proofs.Zone.Resolution
import ZoneHistory.Verification

/-!
# What a verification finds

`Zone.Judges z r t` lists the five outcomes of checking a reading against an
instant, each with the position of the instant among those that show the reading.
`Zone.verify` has one of them (`verify_judges`); a gap is not among them, because
an instant that reads back as the reading is one that shows it.

The check of a claim adds the standard offset and overrides no other verdict
(`verifyClaim_of_ne`, `verifyClaim_of_consistent`).
-/

namespace ZoneHistory

namespace Zone

inductive Judges (z : Zone) (r : Reading) (t : Instant) : Except Problem Verdict → Prop
  | notValid : ¬t.Valid → Judges z r t (.error .instantOutOfRange)
  | notShown : t.Valid → t.ms ∉ z.showing r.wallMs →
      Judges z r t (.ok (.mismatch (.utcToLocal r (z.readingAt t))))
  | alone : t.Valid → z.showing r.wallMs = {t.ms} → Judges z r t (.ok .consistent)
  | amongOthers {earliest latest : Instant} : t.Valid → t.ms ∈ z.showing r.wallMs →
      z.showing r.wallMs ≠ {t.ms} → IsLeast (z.showing r.wallMs) earliest.ms →
      IsGreatest (z.showing r.wallMs) latest.ms → earliest.Valid ∧ latest.Valid →
      Judges z r t (.ok (.mismatch (.localToUtc t (.overlap earliest latest))))
  | notAllValid {earliest latest : Instant} : t.Valid → t.ms ∈ z.showing r.wallMs →
      z.showing r.wallMs ≠ {t.ms} → IsLeast (z.showing r.wallMs) earliest.ms →
      IsGreatest (z.showing r.wallMs) latest.ms → ¬(earliest.Valid ∧ latest.Valid) →
      Judges z r t (.error .readingOutOfRange)

/-! ## Each direction -/

theorem verify_of_not_valid {z : Zone} {r : Reading} {t : Instant} (ht : ¬t.Valid) :
    z.verify r t = .error .instantOutOfRange := by
  rw [verify, toReading, if_neg ht]
  simp only [bind, Except.bind]

theorem verify_of_toReading_ne {z : Zone} {r shown : Reading} {t : Instant}
    (hread : z.toReading t = .ok shown) (hne : shown ≠ r) :
    z.verify r t = .ok (.mismatch (.utcToLocal r shown)) := by
  rw [verify, hread]
  exact if_pos hne

theorem verify_of_not_mem {z : Zone} (hz : z.WellFormed) {r : Reading} (hr : r.Valid)
    {t : Instant} (ht : t.Valid) (h : t.ms ∉ z.showing r.wallMs) :
    z.verify r t = .ok (.mismatch (.utcToLocal r (z.readingAt t))) := by
  have hread : z.toReading t = .ok (z.readingAt t) := if_pos ht
  refine verify_of_toReading_ne hread fun heq => h ?_
  rwa [← toReading_eq_ok_iff hz hr ht, hread, Except.ok.injEq]

/-- An instant that shows the reading leaves the verdict to the resolution. -/
theorem verify_of_mem {z : Zone} (hz : z.WellFormed) {r : Reading} (hr : r.Valid)
    {t : Instant} (ht : t.Valid) (h : t.ms ∈ z.showing r.wallMs) {res : Resolution}
    (hres : z.Resolves r.wallMs res) :
    z.verify r t =
      if res.Valid then
        if res = .unique t then .ok .consistent else .ok (.mismatch (.localToUtc t res))
      else .error .readingOutOfRange := by
  have hread := (toReading_eq_ok_iff hz hr ht).mpr h
  rw [verify, hread, resolve_eq_of_resolves hz hr hres]
  by_cases hvalid : res.Valid
  · rw [if_pos hvalid, if_pos hvalid]
    by_cases heq : res = .unique t
    · subst heq
      simp [bind, Except.bind, pure, Except.pure]
    · simp [bind, Except.bind, pure, Except.pure, heq]
  · rw [if_neg hvalid, if_neg hvalid]
    simp [bind, Except.bind]

theorem verify_of_alone {z : Zone} (hz : z.WellFormed) {r : Reading} (hr : r.Valid)
    {t : Instant} (ht : t.Valid) (h : z.showing r.wallMs = {t.ms}) :
    z.verify r t = .ok .consistent := by
  have hmem : t.ms ∈ z.showing r.wallMs := h ▸ Set.mem_singleton _
  rw [verify_of_mem hz hr ht hmem (Resolves.unique h), if_pos (Resolution.valid_unique.mpr ht),
    if_pos rfl]

/-- An instant that shares the reading with others gets the overlap of them all. -/
theorem verify_of_amongOthers {z : Zone} (hz : z.WellFormed) {r : Reading} (hr : r.Valid)
    {t : Instant} (ht : t.Valid) (h : t.ms ∈ z.showing r.wallMs)
    (hothers : z.showing r.wallMs ≠ {t.ms}) :
    ∃ earliest latest : Instant, IsLeast (z.showing r.wallMs) earliest.ms ∧
      IsGreatest (z.showing r.wallMs) latest.ms ∧
      z.verify r t =
        if earliest.Valid ∧ latest.Valid then
          .ok (.mismatch (.localToUtc t (.overlap earliest latest)))
        else .error .readingOutOfRange := by
  obtain ⟨res, hres⟩ := exists_resolves hz hr
  have hverify := verify_of_mem hz hr ht h hres
  cases hres with
  | @unique s hone =>
      have heq : t.ms = s.ms := Set.mem_singleton_iff.mp (hone ▸ h)
      exact absurd (heq ▸ hone) hothers
  | @overlap earliest latest _ hleast hgreatest =>
      refine ⟨earliest, latest, hleast, hgreatest, ?_⟩
      rw [hverify]
      simp only [reduceCtorEq, if_false, Resolution.valid_overlap]
  | gap hempty => exact absurd (hempty ▸ h) (Set.notMem_empty _)

theorem verify_judges {z : Zone} (hz : z.WellFormed) {r : Reading} (hr : r.Valid) (t : Instant) :
    z.Judges r t (z.verify r t) := by
  by_cases ht : t.Valid
  · by_cases h : t.ms ∈ z.showing r.wallMs
    · by_cases hone : z.showing r.wallMs = {t.ms}
      · rw [verify_of_alone hz hr ht hone]
        exact Judges.alone ht hone
      · obtain ⟨earliest, latest, hleast, hgreatest, hverify⟩ :=
          verify_of_amongOthers hz hr ht h hone
        rw [hverify]
        split
        next hvalid => exact Judges.amongOthers ht h hone hleast hgreatest hvalid
        next hvalid => exact Judges.notAllValid ht h hone hleast hgreatest hvalid
    · rw [verify_of_not_mem hz hr ht h]
      exact Judges.notShown ht h
  · rw [verify_of_not_valid ht]
    exact Judges.notValid ht

/-! ## Claims -/

theorem verifyClaim_of_ne {z : Zone} {c : Claim} (check : Bool)
    (h : z.verify c.reading c.instant ≠ .ok .consistent) :
    z.verifyClaim check c = z.verify c.reading c.instant := by
  rw [verifyClaim]
  cases hverify : z.verify c.reading c.instant with
  | error p => rfl
  | ok verdict =>
      have hne : verdict ≠ .consistent := by
        rintro rfl
        exact h hverify
      simp [bind, Except.bind, pure, Except.pure, hne]

theorem verifyClaim_of_consistent {z : Zone} {c : Claim} (check : Bool)
    (h : z.verify c.reading c.instant = .ok .consistent) :
    z.verifyClaim check c =
      if check = true ∧ (z.regimeAt c.instant).standard ≠ c.standard then
        .ok (.mismatch (.baseOffset c.standard (z.regimeAt c.instant).standard))
      else .ok .consistent := by
  rw [verifyClaim, h]
  cases check with
  | false => simp [bind, Except.bind, pure, Except.pure]
  | true => simp [bind, Except.bind, pure, Except.pure]

/-- The verdict on a reading and an instant, told by the set of the instants that show the
reading, and the verdict on a claim about the two. -/
theorem verify_eq_of_showing {z : Zone} {r : Reading} (hz : z.Accepted) (hr : r.Accepted)
    (t : Instant) :
    (¬t.Valid → z.verify r t = .error .instantOutOfRange) ∧
    (t.Valid →
      z.toReading t = .ok (z.readingAt t) ∧
      (z.verify r t = .ok (.mismatch (.utcToLocal r (z.readingAt t))) ↔
        t.ms ∉ z.showing r.wallMs) ∧
      (z.verify r t = .ok .consistent ↔ z.showing r.wallMs = {t.ms}) ∧
      (t.ms ∈ z.showing r.wallMs → z.showing r.wallMs ≠ {t.ms} →
        ∃ earliest latest : Instant, IsLeast (z.showing r.wallMs) earliest.ms ∧
          IsGreatest (z.showing r.wallMs) latest.ms ∧ earliest ≤ t ∧ t ≤ latest ∧
          z.verify r t =
            if earliest.Valid ∧ latest.Valid then
              .ok (.mismatch (.localToUtc t (.overlap earliest latest)))
            else .error .readingOutOfRange)) ∧
    (∀ expected actual, z.verify r t = .ok (.mismatch (.localToUtc expected actual)) →
      expected = t ∧ ∃ earliest latest, actual = .overlap earliest latest) ∧
    (∀ expected actual, z.verify r t ≠ .ok (.mismatch (.baseOffset expected actual))) ∧
    (∀ p, z.verify r t = .error p → p = .instantOutOfRange ∨ p = .readingOutOfRange) ∧
    ∀ c : Claim, c.reading = r → c.instant = t →
      (∀ check,
        (z.verify r t ≠ .ok .consistent → z.verifyClaim check c = z.verify r t) ∧
        (z.verify r t = .ok .consistent → z.verifyClaim check c =
          if check = true ∧ (z.regimeAt t).standard ≠ c.standard then
            .ok (.mismatch (.baseOffset c.standard (z.regimeAt t).standard))
          else .ok .consistent)) ∧
      ∀ (table : Table) (name : String), table.zoneNamed name = .ok z →
        table.verify name r t = z.verify r t ∧
          table.verifyClaim name c = z.verifyClaim true c := by
  rw [accepted_iff_wellFormed] at hz
  rw [Reading.accepted_iff_valid] at hr
  have hjudges := verify_judges hz hr t
  refine ⟨verify_of_not_valid, fun ht => ⟨if_pos ht, ⟨fun h => ?_, verify_of_not_mem hz hr ht⟩,
    ⟨fun h => ?_, verify_of_alone hz hr ht⟩, fun hmem hothers => ?_⟩, fun expected actual h => ?_,
    fun expected actual h => ?_, fun p h => ?_, ?_⟩
  · rw [h] at hjudges
    cases hjudges with
    | notShown _ hshown => exact hshown
  · rw [h] at hjudges
    cases hjudges with
    | alone _ hone => exact hone
  · obtain ⟨earliest, latest, hleast, hgreatest, hverify⟩ :=
      verify_of_amongOthers hz hr ht hmem hothers
    exact ⟨earliest, latest, hleast, hgreatest, hleast.2 hmem, hgreatest.2 hmem, hverify⟩
  · rw [h] at hjudges
    cases hjudges with
    | amongOthers => exact ⟨rfl, _, _, rfl⟩
  · rw [h] at hjudges
    cases hjudges
  · rw [h] at hjudges
    cases hjudges with
    | notValid => exact Or.inl rfl
    | notAllValid => exact Or.inr rfl
  · rintro c rfl rfl
    refine ⟨fun check => ⟨verifyClaim_of_ne check, verifyClaim_of_consistent check⟩,
      fun table name hname => ?_⟩
    rw [Table.verify, Table.verifyClaim, hname]
    exact ⟨rfl, rfl⟩

/-- A claim whose moment is right and whose standard offset is not. -/
theorem verifyClaim_at_noon :
    (ofChanges ⟨60⟩ [(⟨0⟩, ⟨0⟩)]).Accepted ∧
      Reading.Accepted ⟨⟨1970, 1, 1⟩, ⟨12, 0, 0, 0⟩⟩ ∧ Instant.Valid ⟨43200000⟩ ∧
      (ofChanges ⟨60⟩ [(⟨0⟩, ⟨0⟩)]).showing 43200000 = {43200000} ∧
      (ofChanges ⟨60⟩ [(⟨0⟩, ⟨0⟩)]).verifyClaim true
          ⟨⟨⟨1970, 1, 1⟩, ⟨12, 0, 0, 0⟩⟩, ⟨⟨1970, 1, 1⟩, ⟨12, 0, 0, 0⟩⟩, ⟨60⟩, []⟩ =
        .ok (.mismatch (.baseOffset ⟨60⟩ ⟨0⟩)) := by
  have hz : (ofChanges ⟨60⟩ [(⟨0⟩, ⟨0⟩)]).Accepted :=
    accepted_ofChanges (by decide) (by decide) (by decide)
  have hr : Reading.Accepted ⟨⟨1970, 1, 1⟩, ⟨12, 0, 0, 0⟩⟩ :=
    Reading.accepted_iff_valid.mpr (by decide)
  have hverify : (ofChanges ⟨60⟩ [(⟨0⟩, ⟨0⟩)]).verify ⟨⟨1970, 1, 1⟩, ⟨12, 0, 0, 0⟩⟩ ⟨43200000⟩ =
      .ok .consistent := by decide +kernel
  obtain ⟨-, hvalid, -, -, -, hclaim⟩ := verify_eq_of_showing hz hr ⟨43200000⟩
  have ht : Instant.Valid ⟨43200000⟩ := by decide
  obtain ⟨-, -, hone, -⟩ := hvalid ht
  obtain ⟨hchecked, -⟩ := hclaim
    ⟨⟨⟨1970, 1, 1⟩, ⟨12, 0, 0, 0⟩⟩, ⟨⟨1970, 1, 1⟩, ⟨12, 0, 0, 0⟩⟩, ⟨60⟩, []⟩ rfl
    (by decide)
  refine ⟨hz, hr, ht, hone.mp hverify, ?_⟩
  rw [(hchecked true).2 hverify]
  decide +kernel

end Zone

end ZoneHistory
