import Mathlib.Data.Int.ConditionallyCompleteOrder
import Mathlib.Data.Set.Card
import ZoneHistory.Proofs.Zone.Showing

/-!
# Counting by transitions

A transition that moves the clock forward skips wall times and one that moves it
back repeats them. Every wall time is shown once, once more for each transition
that repeats it and once less for each that skips it (`ncard_showing`): the count
telescopes along the regimes, because a regime shows the wall time exactly if the
clock has passed it at the start of the regime's offset and not yet at its end.

A wall time that nothing shows is therefore skipped by some transition. All such
transitions lie near it (`near_of_skips`), so the search of `Zone.skipping?`,
which looks only there, finds the first one of the whole zone
(`skipping?_eq_find?`).
-/

namespace ZoneHistory

namespace Zone

/-- Whether the transition between two regimes moves the clock back over a wall time. -/
def repeats (wall : Int) (transition : Regime × Regime) : Bool :=
  let before := transition.1.total.ms
  let after := transition.2.total.ms
  let moment := transition.2.start.ms
  decide (moment + after ≤ wall) && decide (wall < moment + before)

def skipCount (z : Zone) (wall : Int) : Nat :=
  z.transitions.countP (skips wall)

def repeatCount (z : Zone) (wall : Int) : Nat :=
  z.transitions.countP (repeats wall)

theorem skips_iff {wall : Int} {before after : Regime} :
    skips wall (before, after) = true ↔
      after.start.ms + before.total.ms ≤ wall ∧ wall < after.start.ms + after.total.ms := by
  simp [skips]

theorem repeats_iff {wall : Int} {before after : Regime} :
    repeats wall (before, after) = true ↔
      after.start.ms + after.total.ms ≤ wall ∧ wall < after.start.ms + before.total.ms := by
  simp [repeats]

theorem transitions_cons (name : String) (first next : Regime) (rest : List Regime) :
    (Zone.mk name first (next :: rest)).transitions =
      (first, next) :: (Zone.mk name next rest).transitions := rfl

theorem getElem?_transitions {z : Zone} {i : Nat} {before after : Regime} :
    z.transitions[i]? = some (before, after) ↔
      z.regimes[i]? = some before ∧ z.regimes[i + 1]? = some after :=
  List.getElem?_zip_eq_some

theorem mem_later_of_transition {z : Zone} {i : Nat} {before after : Regime}
    (h : z.transitions[i]? = some (before, after)) : after ∈ z.later :=
  List.mem_of_getElem? (List.getElem?_zip_eq_some.mp h).2

/-! ## One regime after the other -/

theorem showing_nil (name : String) (first : Regime) (wall : Int) :
    (Zone.mk name first []).showing wall = {wall - first.total.ms} := by
  ext t
  rw [mem_showing, Set.mem_singleton_iff]
  change t + first.total.ms = wall ↔ t = wall - first.total.ms
  omega

/-- Before the second regime starts the first offset decides, and afterwards the rest. -/
theorem mem_showing_cons {name : String} {first next : Regime} {rest : List Regime}
    {wall t : Int} :
    t ∈ (Zone.mk name first (next :: rest)).showing wall ↔
      t < next.start.ms ∧ t = wall - first.total.ms ∨
        next.start.ms ≤ t ∧ t ∈ (Zone.mk name next rest).showing wall := by
  rw [mem_showing, mem_showing, offsetAt, regimeAt_cons]
  by_cases h : next.start ≤ ⟨t⟩
  · have hle : next.start.ms ≤ t := h
    rw [if_pos h]
    constructor
    · exact fun heq => Or.inr ⟨hle, heq⟩
    · rintro (⟨hlt, -⟩ | ⟨-, heq⟩)
      · omega
      · exact heq
  · have hlt : t < next.start.ms := Int.not_le.mp h
    rw [if_neg h]
    constructor
    · exact fun heq => Or.inl ⟨hlt, by omega⟩
    · rintro (⟨-, heq⟩ | ⟨hle, -⟩)
      · omega
      · omega

theorem finite_showing (z : Zone) (wall : Int) : (z.showing wall).Finite := by
  refine (List.finite_toSet (z.regimes.map fun g => wall - g.total.ms)).subset fun t ht => ?_
  refine List.mem_map.mpr ⟨z.regimeAt ⟨t⟩, z.regimeAt_mem _, ?_⟩
  rw [← mem_showing.mp ht]
  exact Int.add_sub_cancel t _

/-! ## The counting law -/

/-- 1 if a clock at the offset has reached the wall time by the moment, and 0 if not. -/
def reached (wall moment : Int) (offset : Offset) : Int :=
  if moment + offset.ms ≤ wall then 1 else 0

/-- A transition repeats or skips the wall time if the clocks on its two sides disagree. -/
theorem repeats_sub_skips (wall : Int) (before after : Regime) :
    (if repeats wall (before, after) then 1 else 0) -
        (if skips wall (before, after) then 1 else 0) =
      reached wall after.start.ms after.total - reached wall after.start.ms before.total := by
  simp only [repeats_iff, skips_iff, reached]
  split <;> split <;> split <;> split <;> omega

theorem ncard_singleton_inter {t : Int} {s : Set Int} [Decidable (t ∈ s)] :
    (({t} ∩ s : Set Int).ncard : Int) = if t ∈ s then 1 else 0 := by
  split
  next h =>
    rw [Set.inter_eq_left.mpr (Set.singleton_subset_iff.mpr h), Set.ncard_singleton]
    rfl
  next h =>
    rw [Set.singleton_inter_eq_empty.mpr h, Set.ncard_empty]
    rfl

theorem ncard_showing_nil_inter_Ici (name : String) (first : Regime) (wall lo : Int) :
    (((Zone.mk name first []).showing wall ∩ Set.Ici lo).ncard : Int) =
      reached wall lo first.total := by
  rw [showing_nil, ncard_singleton_inter, reached]
  simp only [Set.mem_Ici, le_sub_iff_add_le]

/-- The first regime shows it if the clock gets there between the starts of the first two, and
the other instants belong to the rest. -/
theorem ncard_showing_cons_inter_Ici {name : String} {first next : Regime}
    {rest : List Regime} {wall lo : Int} (hlo : lo ≤ next.start.ms) :
    (((Zone.mk name first (next :: rest)).showing wall ∩ Set.Ici lo).ncard : Int) =
      reached wall lo first.total - reached wall next.start.ms first.total +
        ((Zone.mk name next rest).showing wall ∩ Set.Ici next.start.ms).ncard := by
  have hsplit : (Zone.mk name first (next :: rest)).showing wall ∩ Set.Ici lo =
      {wall - first.total.ms} ∩ Set.Ico lo next.start.ms ∪
        (Zone.mk name next rest).showing wall ∩ Set.Ici next.start.ms := by
    ext t
    simp only [Set.mem_inter_iff, Set.mem_union, mem_showing_cons, Set.mem_singleton_iff,
      Set.mem_Ici, Set.mem_Ico]
    constructor
    · rintro ⟨⟨hlt, heq⟩ | ⟨hle, hmem⟩, hge⟩
      · exact Or.inl ⟨heq, hge, hlt⟩
      · exact Or.inr ⟨hmem, hle⟩
    · rintro (⟨heq, hge, hlt⟩ | ⟨hmem, hle⟩)
      · exact ⟨Or.inl ⟨hlt, heq⟩, hge⟩
      · exact ⟨Or.inr ⟨hle, hmem⟩, by omega⟩
  have hdisjoint : Disjoint ({wall - first.total.ms} ∩ Set.Ico lo next.start.ms)
      ((Zone.mk name next rest).showing wall ∩ Set.Ici next.start.ms) := by
    rw [Set.disjoint_left]
    rintro t ⟨-, -, hlt⟩ ⟨-, hle⟩
    exact absurd hle (Int.not_le.mpr hlt)
  have hfirst : (({wall - first.total.ms} ∩ Set.Ico lo next.start.ms : Set Int).ncard : Int) =
      reached wall lo first.total - reached wall next.start.ms first.total := by
    rw [ncard_singleton_inter]
    simp only [Set.mem_Ico, reached]
    split <;> split <;> split <;> omega
  rw [hsplit, Set.ncard_union_eq hdisjoint ((Set.finite_singleton _).inter_of_left _)
    ((finite_showing _ wall).inter_of_left _), Nat.cast_add, hfirst]

/-- The counting law from an instant on that no later regime precedes. The regimes on the way
cancel, and the first offset at that instant is left over. -/
theorem ncard_showing_inter_Ici {wall : Int} : ∀ {z : Zone}, z.WellFormed →
    ∀ {lo : Int}, (∀ g ∈ z.later, lo ≤ g.start.ms) →
      ((z.showing wall ∩ Set.Ici lo).ncard : Int) =
        reached wall lo z.first.total + z.repeatCount wall - z.skipCount wall
  | ⟨name, first, []⟩, _, lo, _ => by
      rw [ncard_showing_nil_inter_Ici]
      simp [repeatCount, skipCount, transitions]
  | ⟨name, first, next :: rest⟩, hz, lo, hlo => by
      have hlater : ∀ g ∈ rest, next.start.ms ≤ g.start.ms := fun g hg =>
        Int.le_of_lt ((List.pairwise_cons.mp hz.tail.ascending).1 g hg)
      have hstep := repeats_sub_skips wall first next
      rw [ncard_showing_cons_inter_Ici (hlo next List.mem_cons_self),
        ncard_showing_inter_Ici hz.tail hlater]
      simp only [repeatCount, skipCount, transitions_cons, List.countP_cons, Nat.cast_add,
        Nat.cast_ite, Nat.cast_one, Nat.cast_zero]
      omega

/-- Every wall time is shown once, once more for each transition that repeats it and once less
for each that skips it. -/
theorem ncard_showing {z : Zone} (hz : z.WellFormed) (wall : Int) :
    ((z.showing wall).ncard : Int) = 1 + z.repeatCount wall - z.skipCount wall := by
  -- an instant before all that show the wall time and before all starts
  obtain ⟨lo, hlo, hleast⟩ :
      ∃ lo, lo ≤ wall - z.widestMs ∧ lo ≤ Instant.leastMs :=
    ⟨min (wall - z.widestMs) Instant.leastMs, Int.min_le_left _ _, Int.min_le_right _ _⟩
  have hlater : ∀ g ∈ z.later, lo ≤ g.start.ms := fun g hg =>
    Int.le_trans hleast (hz.regimes g (List.mem_cons_of_mem _ hg)).beginning_le
  have hall : z.showing wall ∩ Set.Ici lo = z.showing wall :=
    Set.inter_eq_left.mpr fun t ht => Int.le_trans hlo (mem_window_of_mem_showing ht).1
  have hfirst : reached wall lo z.first.total = 1 := by
    have := total_mem_widest (z := z) List.mem_cons_self
    exact if_pos (by omega)
  rw [← hall, ncard_showing_inter_Ici hz hlater, hfirst]

theorem showing_cons_inter_Ici {name : String} {first next : Regime} {rest : List Regime}
    {wall lo : Int} (hlo : next.start.ms ≤ lo) :
    (Zone.mk name first (next :: rest)).showing wall ∩ Set.Ici lo =
      (Zone.mk name next rest).showing wall ∩ Set.Ici lo := by
  ext t
  simp only [Set.mem_inter_iff, mem_showing_cons, Set.mem_Ici]
  constructor
  · rintro ⟨⟨hlt, -⟩ | ⟨-, hmem⟩, hge⟩
    · omega
    · exact ⟨hmem, hge⟩
  · rintro ⟨hmem, hge⟩
    exact ⟨Or.inr ⟨Int.le_trans hlo hge, hmem⟩, hge⟩

/-- The counting law from a transition on: only the transitions after it count. -/
theorem ncard_showing_inter_Ici_transition (wall : Int) {before after : Regime} :
    ∀ {z : Zone}, z.WellFormed → ∀ {i : Nat}, z.transitions[i]? = some (before, after) →
      ((z.showing wall ∩ Set.Ici after.start.ms).ncard : Int) =
        reached wall after.start.ms after.total +
          (z.transitions.drop (i + 1)).countP (repeats wall) -
          (z.transitions.drop (i + 1)).countP (skips wall)
  | ⟨name, first, []⟩, _, i, h => by simp [transitions] at h
  | ⟨name, first, next :: rest⟩, hz, 0, h => by
      obtain ⟨rfl, rfl⟩ := Prod.mk.inj (Option.some.inj h)
      have hlater : ∀ g ∈ rest, next.start.ms ≤ g.start.ms := fun g hg =>
        Int.le_of_lt ((List.pairwise_cons.mp hz.tail.ascending).1 g hg)
      rw [showing_cons_inter_Ici (Int.le_refl _), ncard_showing_inter_Ici hz.tail hlater]
      rfl
  | ⟨name, first, next :: rest⟩, hz, i + 1, h => by
      have hrest : (Zone.mk name next rest).transitions[i]? = some (before, after) := h
      have hlt : next.start < after.start :=
        (List.pairwise_cons.mp hz.tail.ascending).1 after (mem_later_of_transition hrest)
      rw [showing_cons_inter_Ici (Int.le_of_lt hlt),
        ncard_showing_inter_Ici_transition wall hz.tail hrest]
      rfl

/-! ## The first transition that skips -/

theorem find?_drop_take {α : Type} {l : List α} {p : α → Bool} {start stop : Nat}
    (h : ∀ i a, l[i]? = some a → p a = true → start ≤ i ∧ i < stop) :
    ((l.take stop).drop start).find? p = l.find? p := by
  have hbefore : ((l.take stop).take start).find? p = none := by
    refine List.find?_eq_none.mpr fun a ha hp => ?_
    obtain ⟨i, hi⟩ := List.mem_iff_getElem?.mp ha
    rw [List.getElem?_take, List.getElem?_take] at hi
    split at hi
    next hlt =>
      split at hi
      · exact absurd (h i a hi hp).1 (Nat.not_le_of_lt hlt)
      · cases hi
    next => cases hi
  have hafter : (l.drop stop).find? p = none := by
    refine List.find?_eq_none.mpr fun a ha hp => ?_
    obtain ⟨i, hi⟩ := List.mem_iff_getElem?.mp ha
    rw [List.getElem?_drop] at hi
    exact absurd (h _ a hi hp).2 (Nat.not_lt.mpr (Nat.le_add_right stop i))
  calc ((l.take stop).drop start).find? p
      = ((l.take stop).take start ++ (l.take stop).drop start).find? p := by
        rw [List.find?_append, hbefore, Option.none_or]
    _ = (l.take stop ++ l.drop stop).find? p := by
        rw [List.take_append_drop, List.find?_append, hafter, Option.or_none]
    _ = l.find? p := by rw [List.take_append_drop]

/-- A transition that skips the wall time lies within the widest offset of it, so both its
regimes are near. -/
theorem near_of_skips {z : Zone} (hz : z.WellFormed) {r : Reading} (hr : r.Valid) {i : Nat}
    {before after : Regime} (h : z.transitions[i]? = some (before, after))
    (hskips : skips r.wallMs (before, after) = true) :
    (z.nearWall r.wallMs).1 ≤ i ∧ i + 1 < (z.nearWall r.wallMs).2 := by
  obtain ⟨hbefore, hafter⟩ := getElem?_transitions.mp h
  obtain ⟨hfrom, hto⟩ := skips_iff.mp hskips
  have hbound := total_mem_widest (List.mem_of_getElem? hbefore)
  have hbound' := total_mem_widest (List.mem_of_getElem? hafter)
  rw [nearWall_eq hz hr]
  constructor
  · -- at the start of the window the later regime has not started
    refine Nat.not_lt.mp fun hlt => ?_
    have hle : after.start.ms ≤ r.wallMs - z.widestMs := (lt_indexAt_iff hz hafter).mp hlt
    omega
  · have hle : after.start.ms ≤ r.wallMs + z.widestMs := by omega
    exact Nat.succ_lt_succ ((lt_indexAt_iff hz hafter).mpr hle)

theorem skipping?_eq_find? {z : Zone} (hz : z.WellFormed) {r : Reading} (hr : r.Valid) :
    z.skipping? r.wallMs = z.transitions.find? (skips r.wallMs) := by
  refine find?_drop_take fun i transition h hskips => ?_
  have hnear := near_of_skips hz hr h hskips
  omega

/-- The transition at the index is the first one of the zone that skips the wall time. -/
structure FirstSkip (z : Zone) (wall : Int) (i : Nat) (before after : Regime) : Prop where
  transition : z.transitions[i]? = some (before, after)
  from_le : after.start.ms + before.total.ms ≤ wall
  lt_to : wall < after.start.ms + after.total.ms
  first : ∀ j < i, ∀ transition, z.transitions[j]? = some transition →
    skips wall transition = false

theorem FirstSkip.skips {z : Zone} {wall : Int} {i : Nat} {before after : Regime}
    (h : z.FirstSkip wall i before after) : skips wall (before, after) = true :=
  skips_iff.mpr ⟨h.from_le, h.lt_to⟩

theorem FirstSkip.straddles {z : Zone} {wall : Int} {i : Nat} {before after : Regime}
    (h : z.FirstSkip wall i before after) :
    wall - after.total.ms < after.start.ms ∧ after.start.ms ≤ wall - before.total.ms := by
  have hfrom := h.from_le
  have hto := h.lt_to
  omega

theorem FirstSkip.unique {z : Zone} {wall : Int} {i j : Nat} {a b c d : Regime}
    (h : z.FirstSkip wall i a b) (h' : z.FirstSkip wall j c d) : a = c ∧ b = d := by
  have hij : i = j := by
    rcases Nat.lt_trichotomy i j with hlt | heq | hgt
    · exact absurd h.skips (by simp [h'.first i hlt _ h.transition])
    · exact heq
    · exact absurd h'.skips (by simp [h.first j hgt _ h'.transition])
  have hsame := h.transition.symm.trans (hij ▸ h'.transition)
  exact Prod.mk.inj (Option.some.inj hsame)

/-- If nothing shows the wall time, a transition skips it, and the search finds the first. -/
theorem exists_firstSkip {z : Zone} (hz : z.WellFormed) {r : Reading} (hr : r.Valid)
    (hempty : z.showing r.wallMs = ∅) :
    ∃ i before after, z.FirstSkip r.wallMs i before after ∧
      z.skipping? r.wallMs = some (before, after) := by
  have hcount := ncard_showing hz r.wallMs
  rw [hempty, Set.ncard_empty] at hcount
  have hpos : 0 < z.skipCount r.wallMs := by omega
  obtain ⟨transition, hmem, hskips⟩ := List.countP_pos_iff.mp hpos
  have hsome : (z.transitions.find? (skips r.wallMs)).isSome = true :=
    List.find?_isSome.mpr ⟨transition, hmem, hskips⟩
  obtain ⟨⟨before, after⟩, hfind⟩ := Option.isSome_iff_exists.mp hsome
  obtain ⟨hfirst, i, hi, heq, hearlier⟩ := List.find?_eq_some_iff_getElem.mp hfind
  obtain ⟨hfrom, hto⟩ := skips_iff.mp hfirst
  refine ⟨i, before, after, ⟨List.getElem?_eq_some_iff.mpr ⟨hi, heq⟩, hfrom, hto, ?_⟩, ?_⟩
  · intro j hj other hother
    obtain ⟨hlt, rfl⟩ := List.getElem?_eq_some_iff.mp hother
    simpa using hearlier j hj
  · rw [skipping?_eq_find? hz hr, hfind]

end Zone

end ZoneHistory
