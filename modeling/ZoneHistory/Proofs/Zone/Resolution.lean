import ZoneHistory.Proofs.Zone.Transitions

/-!
# What a reading resolves to

`Zone.Resolves z wall` says which resolution a wall time has, by the set of the
instants that show it and, if there are none, by the first transition that skips
it. The relation is a function (`Resolves.functional`), and `Zone.locate` computes
it (`locate_eq_ok_iff`): every reading of a zone is located. `Zone.resolve` refuses
a located reading if one of its instants is not valid, and fails in no other way
(`resolve_eq_of_resolves`).

The main statements describe the answer by the instants that show the reading, and
by the first transition that skips it if there are none.
-/

namespace ZoneHistory

namespace Resolution

@[simp] theorem valid_unique {t : Instant} : (unique t).Valid ↔ t.Valid := by
  simp [Valid, instants]

@[simp] theorem valid_gap {earlier later : Instant} :
    (gap earlier later).Valid ↔ earlier.Valid ∧ later.Valid := by
  simp [Valid, instants]

@[simp] theorem valid_overlap {earlier later : Instant} :
    (overlap earlier later).Valid ↔ earlier.Valid ∧ later.Valid := by
  simp [Valid, instants]

end Resolution

namespace Zone

/-- The resolution of a wall time, valid or not. -/
inductive Resolves (z : Zone) (wall : Int) : Resolution → Prop
  | unique {t : Instant} :
      z.showing wall = {t.ms} → Resolves z wall (.unique t)
  | overlap {earlier later : Instant} :
      earlier < later → IsLeast (z.showing wall) earlier.ms →
      IsGreatest (z.showing wall) later.ms → Resolves z wall (.overlap earlier later)
  | gap {i : Nat} {before after : Regime} :
      z.showing wall = ∅ → z.FirstSkip wall i before after →
      Resolves z wall (.gap ⟨wall - after.total.ms⟩ ⟨wall - before.total.ms⟩)

theorem resolves_unique_iff {z : Zone} {wall : Int} {t : Instant} :
    z.Resolves wall (.unique t) ↔ z.showing wall = {t.ms} := by
  constructor
  · intro h
    cases h with
    | unique hone => exact hone
  · exact Resolves.unique

theorem resolves_overlap_iff {z : Zone} {wall : Int} {earlier later : Instant} :
    z.Resolves wall (.overlap earlier later) ↔
      (z.showing wall).Nontrivial ∧ IsLeast (z.showing wall) earlier.ms ∧
        IsGreatest (z.showing wall) later.ms := by
  constructor
  · intro h
    cases h with
    | overlap hlt hleast hgreatest =>
        exact ⟨⟨_, hleast.1, _, hgreatest.1, Int.ne_of_lt hlt⟩, hleast, hgreatest⟩
  · rintro ⟨⟨s, hs, t, ht, hne⟩, hleast, hgreatest⟩
    have hfrom := hleast.2 hs
    have hfrom' := hleast.2 ht
    have hto := hgreatest.2 hs
    have hto' := hgreatest.2 ht
    exact Resolves.overlap (Instant.lt_def.mpr (by omega)) hleast hgreatest

theorem Resolves.showing_eq_empty {z : Zone} {wall : Int} {earlier later : Instant}
    (h : z.Resolves wall (.gap earlier later)) : z.showing wall = ∅ := by
  cases h with
  | gap hempty => exact hempty

theorem Resolves.ncard {z : Zone} {wall : Int} {res : Resolution} (h : z.Resolves wall res) :
    match res with
    | .gap _ _ => (z.showing wall).ncard = 0
    | .unique _ => (z.showing wall).ncard = 1
    | .overlap _ _ => 1 < (z.showing wall).ncard := by
  cases h with
  | unique hone => exact Set.ncard_eq_one.mpr ⟨_, hone⟩
  | overlap hlt hleast hgreatest =>
      refine (Set.one_lt_ncard (finite_showing z wall)).mpr ?_
      exact ⟨_, hleast.1, _, hgreatest.1, Int.ne_of_lt hlt⟩
  | gap hempty => exact (Set.ncard_eq_zero (finite_showing z wall)).mpr hempty

theorem Resolves.functional {z : Zone} {wall : Int} {a b : Resolution}
    (ha : z.Resolves wall a) (hb : z.Resolves wall b) : a = b := by
  -- the sizes of the two sets tell different constructors apart
  have hcard := ha.ncard
  have hcard' := hb.ncard
  cases ha with
  | unique hone =>
      cases hb with
      | unique hone' =>
          rw [hone, Set.singleton_eq_singleton_iff] at hone'
          rw [Instant.ext_ms hone']
      | overlap => exact absurd hcard (Nat.ne_of_gt hcard')
      | gap => exact absurd (hcard.symm.trans hcard') Nat.one_ne_zero
  | overlap hlt hleast hgreatest =>
      cases hb with
      | unique => exact absurd hcard' (Nat.ne_of_gt hcard)
      | overlap hlt' hleast' hgreatest' =>
          rw [Instant.ext_ms (hleast.unique hleast'), Instant.ext_ms (hgreatest.unique hgreatest')]
      | gap => exact absurd hcard' (Nat.ne_of_gt (Nat.zero_lt_of_lt hcard))
  | gap hempty hskip =>
      cases hb with
      | unique => exact absurd (hcard'.symm.trans hcard) Nat.one_ne_zero
      | overlap => exact absurd hcard (Nat.ne_of_gt (Nat.zero_lt_of_lt hcard'))
      | gap _ hskip' =>
          obtain ⟨rfl, rfl⟩ := hskip.unique hskip'
          rfl

/-- If some instant shows the wall time, the first and the last decide about validity. -/
theorem Resolves.exists_ends {z : Zone} {wall : Int} {res : Resolution}
    (h : z.Resolves wall res) (hne : (z.showing wall).Nonempty) :
    ∃ earliest latest : Instant, IsLeast (z.showing wall) earliest.ms ∧
      IsGreatest (z.showing wall) latest.ms ∧ (res.Valid ↔ earliest.Valid ∧ latest.Valid) := by
  cases h with
  | @unique t hone =>
      rw [hone]
      exact ⟨t, t, isLeast_singleton, isGreatest_singleton, by simp⟩
  | overlap _ hleast hgreatest => exact ⟨_, _, hleast, hgreatest, Resolution.valid_overlap⟩
  | gap hempty => exact absurd hne (Set.not_nonempty_iff_eq_empty.mpr hempty)

/-! ## Locating -/

theorem isLeast_of_min? {l : List Int} {s : Set Int} (hmem : ∀ t, t ∈ l ↔ t ∈ s) {a : Int}
    (h : l.min? = some a) : IsLeast s a := by
  obtain ⟨ha, hle⟩ := List.min?_eq_some_iff.mp h
  exact ⟨(hmem a).mp ha, fun b hb => hle b ((hmem b).mpr hb)⟩

theorem isGreatest_of_max? {l : List Int} {s : Set Int} (hmem : ∀ t, t ∈ l ↔ t ∈ s) {a : Int}
    (h : l.max? = some a) : IsGreatest s a := by
  obtain ⟨ha, hge⟩ := List.max?_eq_some_iff.mp h
  exact ⟨(hmem a).mp ha, fun b hb => hge b ((hmem b).mpr hb)⟩

theorem exists_locate_eq_ok {z : Zone} (hz : z.WellFormed) {r : Reading} (hr : r.Valid) :
    ∃ res, z.locate r = .ok res ∧ z.Resolves r.wallMs res := by
  have hmem : ∀ t, t ∈ z.matchesOf r ↔ t ∈ z.showing r.wallMs := fun t =>
    mem_matchesOf_iff hz hr
  cases hmin : (z.matchesOf r).min? with
  | none =>
      have hnil := List.min?_eq_none_iff.mp hmin
      have hempty : z.showing r.wallMs = ∅ := by
        refine Set.eq_empty_iff_forall_notMem.mpr fun t ht => ?_
        have := (hmem t).mpr ht
        rw [hnil] at this
        cases this
      obtain ⟨i, before, after, hskip, hfind⟩ := exists_firstSkip hz hr hempty
      refine ⟨_, ?_, Resolves.gap hempty hskip⟩
      simp only [locate, hmin, hfind]
  | some earliest =>
      have hleast := isLeast_of_min? hmem hmin
      cases hmax : (z.matchesOf r).max? with
      | none =>
          have hnil := List.max?_eq_none_iff.mp hmax
          have := (hmem earliest).mpr hleast.1
          rw [hnil] at this
          cases this
      | some latest =>
          have hgreatest := isGreatest_of_max? hmem hmax
          by_cases heq : earliest = latest
          · subst heq
            refine ⟨.unique ⟨earliest⟩, ?_, Resolves.unique ?_⟩
            · simp only [locate, hmin, hmax, if_pos]
            · refine Set.eq_singleton_iff_unique_mem.mpr ⟨hleast.1, fun t ht => ?_⟩
              exact Int.le_antisymm (hgreatest.2 ht) (hleast.2 ht)
          · have hlt : earliest < latest :=
              Int.lt_iff_le_and_ne.mpr ⟨hleast.2 hgreatest.1, heq⟩
            refine ⟨.overlap ⟨earliest⟩ ⟨latest⟩, ?_, Resolves.overlap hlt hleast hgreatest⟩
            simp only [locate, hmin, hmax, if_neg heq]

theorem locate_eq_ok_iff {z : Zone} (hz : z.WellFormed) {r : Reading} (hr : r.Valid)
    {res : Resolution} : z.locate r = .ok res ↔ z.Resolves r.wallMs res := by
  obtain ⟨res', hlocate, hres'⟩ := exists_locate_eq_ok hz hr
  rw [hlocate, Except.ok.injEq]
  constructor
  · rintro rfl
    exact hres'
  · exact fun hres => hres'.functional hres

/-! ## Resolving -/

/-- A resolution is the answer if its instants are all valid, and otherwise the reading is out of
range. -/
theorem resolve_eq_of_resolves {z : Zone} (hz : z.WellFormed) {r : Reading} (hr : r.Valid)
    {res : Resolution} (h : z.Resolves r.wallMs res) :
    z.resolve r = if res.Valid then .ok res else .error .readingOutOfRange := by
  rw [resolve, (locate_eq_ok_iff hz hr).mpr h]
  rfl

theorem exists_resolves {z : Zone} (hz : z.WellFormed) {r : Reading} (hr : r.Valid) :
    ∃ res, z.Resolves r.wallMs res := by
  obtain ⟨res, -, h⟩ := exists_locate_eq_ok hz hr
  exact ⟨res, h⟩

theorem resolve_eq_ok_iff {z : Zone} (hz : z.WellFormed) {r : Reading} (hr : r.Valid)
    {res : Resolution} : z.resolve r = .ok res ↔ z.Resolves r.wallMs res ∧ res.Valid := by
  obtain ⟨res', hres'⟩ := exists_resolves hz hr
  rw [resolve_eq_of_resolves hz hr hres']
  constructor
  · intro h
    split at h
    next hvalid =>
      cases h
      exact ⟨hres', hvalid⟩
    next => cases h
  · rintro ⟨hres, hvalid⟩
    obtain rfl := hres'.functional hres
    exact if_pos hvalid

theorem resolve_eq_error_iff {z : Zone} (hz : z.WellFormed) {r : Reading} (hr : r.Valid)
    {res : Resolution} (hres : z.Resolves r.wallMs res) {p : Problem} :
    z.resolve r = .error p ↔ p = .readingOutOfRange ∧ ¬res.Valid := by
  rw [resolve_eq_of_resolves hz hr hres]
  split
  next hvalid => exact iff_of_false nofun fun h => h.2 hvalid
  next hinvalid =>
    rw [Except.error.injEq, eq_comm]
    exact (and_iff_left hinvalid).symm

/-- The answer for a reading, told by the set of the instants that show it. It is the inverse of
reading the clock: the search misses no instant of the set, near as it looks, and the two ends
of the set decide. -/
theorem resolve_eq_of_showing {z : Zone} {r : Reading} (hz : z.Accepted) (hr : r.Accepted) :
    (∀ t : Instant, t.Valid → (t.ms ∈ z.showing r.wallMs ↔ z.toReading t = .ok r)) ∧
    (∀ t ∈ z.showing r.wallMs, r.wallMs - z.widestMs ≤ t ∧ t ≤ r.wallMs + z.widestMs ∧
      (z.nearWall r.wallMs).1 ≤ z.indexAt ⟨t⟩ ∧ z.indexAt ⟨t⟩ < (z.nearWall r.wallMs).2) ∧
    (∀ t, t ∈ z.matchesOf r ↔ t ∈ z.showing r.wallMs) ∧
    (∀ t, z.resolve r = .ok (.unique t) ↔ z.showing r.wallMs = {t.ms} ∧ t.Valid) ∧
    (∀ earlier later, z.resolve r = .ok (.overlap earlier later) ↔
      (z.showing r.wallMs).Nontrivial ∧ IsLeast (z.showing r.wallMs) earlier.ms ∧
        IsGreatest (z.showing r.wallMs) later.ms ∧ earlier.Valid ∧ later.Valid) ∧
    ((z.showing r.wallMs).Nonempty → ∃ earliest latest : Instant,
      IsLeast (z.showing r.wallMs) earliest.ms ∧ IsGreatest (z.showing r.wallMs) latest.ms ∧
        (z.resolve r = .error .readingOutOfRange ↔ ¬(earliest.Valid ∧ latest.Valid))) := by
  rw [accepted_iff_wellFormed] at hz
  rw [Reading.accepted_iff_valid] at hr
  refine ⟨fun t ht => (toReading_eq_ok_iff hz hr ht).symm, fun t ht => ?_,
    fun t => mem_matchesOf_iff hz hr, fun t => ?_, fun earlier later => ?_, fun hne => ?_⟩
  · obtain ⟨hfrom, hto⟩ := mem_window_of_mem_showing ht
    exact ⟨hfrom, hto, near_of_mem_showing hz hr ht⟩
  · rw [resolve_eq_ok_iff hz hr, resolves_unique_iff, Resolution.valid_unique]
  · rw [resolve_eq_ok_iff hz hr, resolves_overlap_iff, Resolution.valid_overlap, and_assoc,
      and_assoc]
  · obtain ⟨res, hres⟩ := exists_resolves hz hr
    obtain ⟨earliest, latest, hleast, hgreatest, hvalid⟩ := hres.exists_ends hne
    refine ⟨earliest, latest, hleast, hgreatest, ?_⟩
    rw [resolve_eq_error_iff hz hr hres, hvalid]
    exact and_iff_right rfl

/-- Three offsets in a row show one minute: the clock goes back twice before it has passed. -/
theorem resolve_minute_shown_thrice :
    (ofChanges ⟨2⟩ [(⟨0⟩, ⟨1⟩), (⟨60000⟩, ⟨0⟩)]).Accepted ∧
      Reading.Accepted ⟨⟨1970, 1, 1⟩, ⟨0, 1, 0, 0⟩⟩ ∧
      IsLeast ((ofChanges ⟨2⟩ [(⟨0⟩, ⟨1⟩), (⟨60000⟩, ⟨0⟩)]).showing 60000) (-60000) ∧
      0 ∈ (ofChanges ⟨2⟩ [(⟨0⟩, ⟨1⟩), (⟨60000⟩, ⟨0⟩)]).showing 60000 ∧
      IsGreatest ((ofChanges ⟨2⟩ [(⟨0⟩, ⟨1⟩), (⟨60000⟩, ⟨0⟩)]).showing 60000) 60000 := by
  have hz : (ofChanges ⟨2⟩ [(⟨0⟩, ⟨1⟩), (⟨60000⟩, ⟨0⟩)]).Accepted :=
    accepted_ofChanges (by decide) (by decide) (by decide)
  have hr : Reading.Accepted ⟨⟨1970, 1, 1⟩, ⟨0, 1, 0, 0⟩⟩ :=
    Reading.accepted_iff_valid.mpr (by decide)
  obtain ⟨hread, -, -, -, hoverlap, -⟩ := resolve_eq_of_showing hz hr
  obtain ⟨-, hleast, hgreatest, -, -⟩ := (hoverlap ⟨-60000⟩ ⟨60000⟩).mp (by decide +kernel)
  have hmiddle := (hread ⟨0⟩ (by decide)).mpr (by decide +kernel)
  exact ⟨hz, hr, hleast, hmiddle, hgreatest⟩

/-- A reading that no instant shows lies between the offsets of the first transition that skips
it, which is near enough to be found. -/
theorem resolve_of_showing_empty {z : Zone} {r : Reading} (hz : z.Accepted) (hr : r.Accepted) :
    (z.showing r.wallMs = ∅ → ∃ i before after,
      z.FirstSkip r.wallMs i before after ∧
      (z.nearWall r.wallMs).1 ≤ i ∧ i + 1 < (z.nearWall r.wallMs).2 ∧
      z.skipping? r.wallMs = some (before, after) ∧
      ∃ earlier later : Instant,
        earlier.ms = r.wallMs - after.total.ms ∧ later.ms = r.wallMs - before.total.ms ∧
        earlier < after.start ∧ after.start ≤ later ∧
        later.ms - earlier.ms = after.total.ms - before.total.ms ∧ earlier < later ∧
        (z.resolve r = .ok (.gap earlier later) ↔ earlier.Valid ∧ later.Valid) ∧
        (z.resolve r = .error .readingOutOfRange ↔ ¬(earlier.Valid ∧ later.Valid))) ∧
    (∀ earlier later, z.resolve r = .ok (.gap earlier later) → z.showing r.wallMs = ∅) ∧
    ∀ p, z.resolve r = .error p → p = .readingOutOfRange := by
  rw [accepted_iff_wellFormed] at hz
  rw [Reading.accepted_iff_valid] at hr
  refine ⟨fun hempty => ?_, fun earlier later h => ?_, fun p h => ?_⟩
  · obtain ⟨i, before, after, hskip, hfind⟩ := exists_firstSkip hz hr hempty
    obtain ⟨hfrom, hto⟩ := near_of_skips hz hr hskip.transition hskip.skips
    obtain ⟨hearlier, hlater⟩ := hskip.straddles
    have hres := Resolves.gap hempty hskip
    refine ⟨i, before, after, hskip, hfrom, hto, hfind, ⟨r.wallMs - after.total.ms⟩,
      ⟨r.wallMs - before.total.ms⟩, rfl, rfl, hearlier, hlater, ?_,
      Int.lt_of_lt_of_le hearlier hlater, ?_, ?_⟩
    · dsimp only
      omega
    · rw [resolve_eq_ok_iff hz hr, Resolution.valid_gap]
      exact and_iff_right hres
    · rw [resolve_eq_error_iff hz hr hres, Resolution.valid_gap]
      exact and_iff_right rfl
  · exact ((resolve_eq_ok_iff hz hr).mp h).1.showing_eq_empty
  · obtain ⟨res, hres⟩ := exists_resolves hz hr
    exact ((resolve_eq_error_iff hz hr hres).mp h).1

/-- The first of two transitions that skip a minute gives its gap. -/
theorem resolve_minute_skipped_twice :
    (ofChanges ⟨0⟩ [(⟨0⟩, ⟨5⟩), (⟨60000⟩, ⟨0⟩), (⟨120000⟩, ⟨5⟩)]).Accepted ∧
      Reading.Accepted ⟨⟨1970, 1, 1⟩, ⟨0, 3, 0, 0⟩⟩ ∧
      (ofChanges ⟨0⟩ [(⟨0⟩, ⟨5⟩), (⟨60000⟩, ⟨0⟩), (⟨120000⟩, ⟨5⟩)]).showing 180000 = ∅ ∧
      ∃ i before after,
        (ofChanges ⟨0⟩ [(⟨0⟩, ⟨5⟩), (⟨60000⟩, ⟨0⟩), (⟨120000⟩, ⟨5⟩)]).FirstSkip 180000 i
          before after := by
  have hz : (ofChanges ⟨0⟩ [(⟨0⟩, ⟨5⟩), (⟨60000⟩, ⟨0⟩), (⟨120000⟩, ⟨5⟩)]).Accepted :=
    accepted_ofChanges (by decide) (by decide) (by decide)
  have hr : Reading.Accepted ⟨⟨1970, 1, 1⟩, ⟨0, 3, 0, 0⟩⟩ :=
    Reading.accepted_iff_valid.mpr (by decide)
  obtain ⟨hskipped, hgap, -⟩ := resolve_of_showing_empty hz hr
  have hempty := hgap ⟨-120000⟩ ⟨180000⟩ (by decide +kernel)
  obtain ⟨i, before, after, hskip, -⟩ := hskipped hempty
  exact ⟨hz, hr, hempty, i, before, after, hskip⟩

end Zone

end ZoneHistory
