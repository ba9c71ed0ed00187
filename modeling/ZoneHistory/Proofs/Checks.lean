import Mathlib.Data.List.Forall2

/-!
# Chains of checks

A computation that may fail succeeds exactly if each of its steps does, and fails with
the error of the first step that does not. What a list of them gives comes from its items.

`Checks` says this of a list of requirements: it is built up along the computation, from
the tests that are made (`checks_if`, `Checks.guard`) and the steps that follow each other
(`Checks.bind`), and then says when there is a result and which one (`Checks.eq_ok_iff`).
-/

namespace ZoneHistory

variable {ε α β : Type}

theorem bind_eq_ok_iff {x : Except ε α} {f : α → Except ε β} {b : β} :
    (x >>= f) = .ok b ↔ ∃ a, x = .ok a ∧ f a = .ok b := by
  cases x with
  | error e => exact ⟨nofun, fun ⟨_, h, _⟩ => by cases h⟩
  | ok a =>
      constructor
      · intro h
        exact ⟨a, rfl, h⟩
      · rintro ⟨_, ⟨⟩, h⟩
        exact h

theorem bind_eq_error_iff {x : Except ε α} {f : α → Except ε β} {e : ε} :
    (x >>= f) = .error e ↔ x = .error e ∨ ∃ a, x = .ok a ∧ f a = .error e := by
  cases x with
  | error e' =>
      constructor
      · intro h
        exact Or.inl (congrArg Except.error (Except.error.inj h))
      · rintro (h | ⟨_, ⟨⟩, -⟩)
        exact congrArg Except.error (Except.error.inj h)
  | ok a =>
      constructor
      · intro h
        exact Or.inr ⟨a, rfl, h⟩
      · rintro (⟨⟨⟩⟩ | ⟨_, ⟨⟩, h⟩)
        exact h

/-- Each result of a list of computations is that of an item. -/
theorem exists_of_mem_mapM {f : α → Except ε β} : ∀ {l : List α} {bs : List β},
    l.mapM f = .ok bs → ∀ b ∈ bs, ∃ a ∈ l, f a = .ok b
  | [], _, h => by
      cases h
      nofun
  | a :: l, _, h => by
      rw [List.mapM_cons] at h
      obtain ⟨b, hb, h⟩ := bind_eq_ok_iff.mp h
      obtain ⟨bs, hbs, h⟩ := bind_eq_ok_iff.mp h
      cases h
      refine List.forall_mem_cons.mpr ⟨⟨a, List.mem_cons_self, hb⟩, fun b' hb' => ?_⟩
      obtain ⟨a', ha', h⟩ := exists_of_mem_mapM hbs b' hb'
      exact ⟨a', List.mem_cons_of_mem _ ha', h⟩

/-- The results of a list of computations stand at the places of their items. -/
theorem mapM_eq_ok_iff {f : α → Except ε β} {l : List α} {bs : List β} :
    l.mapM f = .ok bs ↔ List.Forall₂ (fun a b => f a = .ok b) l bs := by
  constructor
  · intro h
    induction l generalizing bs with
    | nil =>
        cases h
        exact .nil
    | cons a l ih =>
        rw [List.mapM_cons] at h
        obtain ⟨b, hb, h⟩ := bind_eq_ok_iff.mp h
        obtain ⟨bs, hbs, h⟩ := bind_eq_ok_iff.mp h
        cases h
        exact .cons hb (ih hbs)
  · intro h
    induction h with
    | nil => rfl
    | cons ha _ ih =>
        rw [List.mapM_cons, ha, ih]
        rfl

theorem exists_of_mapM_error {f : α → Except ε β} {e : ε} : ∀ {l : List α},
    l.mapM f = .error e → ∃ a ∈ l, f a = .error e
  | [], h => by cases h
  | a :: l, h => by
      rw [List.mapM_cons] at h
      rcases bind_eq_error_iff.mp h with h | ⟨b, -, h⟩
      · exact ⟨a, List.mem_cons_self, h⟩
      · rcases bind_eq_error_iff.mp h with h | ⟨bs, -, h⟩
        · obtain ⟨a', ha', h⟩ := exists_of_mapM_error h
          exact ⟨a', List.mem_cons_of_mem _ ha', h⟩
        · cases h

/-! ## Requirements in order -/

/-- What is asked for, and the error if it is not so. -/
structure Requirement (ε : Type) where
  Holds : Prop
  error : ε

/-- The error is that of the first requirement which does not hold. -/
def FirstUnmet (rs : List (Requirement ε)) (e : ε) : Prop :=
  ∃ front r back, rs = front ++ r :: back ∧ (∀ r' ∈ front, r'.Holds) ∧ ¬r.Holds ∧ r.error = e

/-- The computation returns `a` if all requirements hold, and else fails for the first that does
not. -/
structure Checks (rs : List (Requirement ε)) (x : Except ε α) (a : α) : Prop where
  ok : (∀ r ∈ rs, r.Holds) → x = .ok a
  error : ∀ {e : ε}, FirstUnmet rs e → x = .error e

variable {r : Requirement ε} {rs rs' : List (Requirement ε)} {e : ε} {x : Except ε α} {a b : α}

theorem not_firstUnmet_nil : ¬FirstUnmet ([] : List (Requirement ε)) e := by
  rintro ⟨front, r, back, h, -⟩
  cases front with
  | nil => cases h
  | cons _ _ => cases h

theorem firstUnmet_cons_iff : FirstUnmet (r :: rs) e ↔
    (¬r.Holds ∧ r.error = e) ∨ (r.Holds ∧ FirstUnmet rs e) := by
  constructor
  · rintro ⟨_ | ⟨r', front⟩, s, back, heq, hfront, hs, he⟩
    · cases heq
      exact Or.inl ⟨hs, he⟩
    · cases heq
      obtain ⟨hr, hfront⟩ := List.forall_mem_cons.mp hfront
      exact Or.inr ⟨hr, front, s, back, rfl, hfront, hs, he⟩
  · rintro (⟨hr, he⟩ | ⟨hr, front, s, back, rfl, hfront, hs, he⟩)
    · exact ⟨[], r, rs, rfl, nofun, hr, he⟩
    · exact ⟨r :: front, s, back, rfl, List.forall_mem_cons.mpr ⟨hr, hfront⟩, hs, he⟩

theorem firstUnmet_append_iff : FirstUnmet (rs ++ rs') e ↔
    FirstUnmet rs e ∨ ((∀ r ∈ rs, r.Holds) ∧ FirstUnmet rs' e) := by
  induction rs with
  | nil =>
      rw [List.nil_append]
      exact ⟨fun h => Or.inr ⟨nofun, h⟩, fun h => h.elim (fun h => absurd h not_firstUnmet_nil)
        And.right⟩
  | cons r rs ih =>
      rw [List.cons_append, firstUnmet_cons_iff, firstUnmet_cons_iff, ih, List.forall_mem_cons,
        and_or_left, and_assoc, or_assoc]

theorem met_or_firstUnmet (rs : List (Requirement ε)) :
    (∀ r ∈ rs, r.Holds) ∨ ∃ e, FirstUnmet rs e := by
  induction rs with
  | nil => exact Or.inl nofun
  | cons r rs ih =>
      by_cases hr : r.Holds
      · rcases ih with hrs | ⟨e, he⟩
        · exact Or.inl (List.forall_mem_cons.mpr ⟨hr, hrs⟩)
        · exact Or.inr ⟨e, firstUnmet_cons_iff.mpr (Or.inr ⟨hr, he⟩)⟩
      · exact Or.inr ⟨r.error, firstUnmet_cons_iff.mpr (Or.inl ⟨hr, rfl⟩)⟩

theorem Checks.eq_ok_iff (h : Checks rs x a) : x = .ok b ↔ (∀ r ∈ rs, r.Holds) ∧ b = a := by
  constructor
  · intro hx
    rcases met_or_firstUnmet rs with hrs | ⟨e, he⟩
    · exact ⟨hrs, Except.ok.inj (hx.symm.trans (h.ok hrs))⟩
    · cases hx.symm.trans (h.error he)
  · rintro ⟨hrs, rfl⟩
    exact h.ok hrs

theorem checks_return (a : α) : Checks ([] : List (Requirement ε)) (.ok a) a :=
  ⟨fun _ => rfl, fun he => absurd he not_firstUnmet_nil⟩

/-- A test that is made before going on. -/
theorem Checks.guard {P Q : Prop} [Decidable P] (hP : Q ↔ P) (h : Q → Checks rs x a) :
    Checks (⟨Q, e⟩ :: rs) (if ¬P then .error e else x) a := by
  constructor
  · intro hrs
    obtain ⟨hQ, hrs⟩ := List.forall_mem_cons.mp hrs
    rw [if_neg (not_not_intro (hP.mp hQ))]
    exact (h hQ).ok hrs
  · intro e' he'
    rcases firstUnmet_cons_iff.mp he' with ⟨hQ, rfl⟩ | ⟨hQ, he'⟩
    · exact if_pos ((not_congr hP).mp hQ)
    · rw [if_neg (not_not_intro (hP.mp hQ))]
      exact (h hQ).error he'

/-- A test that is made at the end. -/
theorem checks_if {P Q : Prop} [Decidable P] (hP : Q ↔ P) (a : α) (e : ε) :
    Checks [⟨Q, e⟩] (if P then .ok a else .error e) a := by
  have h := Checks.guard hP (e := e) fun _ => checks_return a
  rwa [ite_not] at h

/-- Later steps may rely on what the earlier ones have checked. -/
theorem Checks.bind {f : α → Except ε β} {b : β} (hx : Checks rs x a)
    (hf : (∀ r ∈ rs, r.Holds) → Checks rs' (f a) b) : Checks (rs ++ rs') (x >>= f) b := by
  constructor
  · intro h
    obtain ⟨hrs, hrs'⟩ := List.forall_mem_append.mp h
    rw [hx.ok hrs]
    exact (hf hrs).ok hrs'
  · intro e he
    rcases firstUnmet_append_iff.mp he with he | ⟨hrs, he⟩
    · rw [hx.error he]
      rfl
    · rw [hx.ok hrs]
      exact (hf hrs).error he

end ZoneHistory
