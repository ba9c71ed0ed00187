import Mathlib.Algebra.GroupWithZero.Nat
import Mathlib.Data.String.Basic
import ZoneHistory.Dictionary

/-!
# Dictionaries with ascending keys

Insertion keeps the keys ascending (`Ascending.insert`), so every dictionary that is
built by insertions has them in order, and two of them with the same look-ups are
equal (`Ascending.ext`). Entries that come in ascending order are only appended
(`foldl_insert_of_ascending`). A tally has each text with the number of times it occurs, whatever
the order in which they come (`mem_tally_iff`, `tally_eq_of_perm`).
-/

namespace ZoneHistory.Dictionary

variable {α : Type}

/-- The keys ascend strictly. -/
def Ascending (d : Dictionary α) : Prop :=
  d.Pairwise fun p q => p.1 < q.1

theorem Ascending.nil : Ascending ([] : Dictionary α) :=
  List.Pairwise.nil

theorem mem_insert {key : String} {value : α} {d : Dictionary α} {p : String × α}
    (h : p ∈ insert key value d) : p = (key, value) ∨ p ∈ d := by
  induction d with
  | nil => exact Or.inl (List.mem_singleton.mp h)
  | cons q d ih =>
      simp only [insert] at h
      split at h
      · rcases List.mem_cons.mp h with h | h
        · exact Or.inl h
        · exact Or.inr h
      · split at h
        · rcases List.mem_cons.mp h with h | h
          · exact Or.inl h
          · exact Or.inr (List.mem_cons_of_mem _ h)
        · rcases List.mem_cons.mp h with h | h
          · exact Or.inr (h ▸ List.mem_cons_self)
          · exact (ih h).imp_right (List.mem_cons_of_mem _)

theorem Ascending.insert {d : Dictionary α} (h : Ascending d) (key : String) (value : α) :
    Ascending (Dictionary.insert key value d) := by
  induction d with
  | nil => exact List.pairwise_singleton _ _
  | cons q d ih =>
      obtain ⟨hq, hd⟩ := List.pairwise_cons.mp h
      simp only [Dictionary.insert]
      split
      next hlt =>
        refine List.pairwise_cons.mpr ⟨fun p hp => ?_, h⟩
        rcases List.mem_cons.mp hp with rfl | hp
        · exact hlt
        · exact String.lt_trans hlt (hq p hp)
      next hge =>
        split
        next heq => exact List.pairwise_cons.mpr ⟨fun p hp => heq ▸ hq p hp, hd⟩
        next hne =>
          refine List.pairwise_cons.mpr ⟨fun p hp => ?_, ih hd⟩
          rcases mem_insert hp with rfl | hp
          · exact lt_of_le_of_ne (not_lt.mp hge) (Ne.symm hne)
          · exact hq p hp

theorem get?_eq_none_of_lt {key : String} {d : Dictionary α} (h : ∀ p ∈ d, key < p.1) :
    get? key d = none := by
  induction d with
  | nil => rfl
  | cons p d ih =>
      rw [get?_cons, if_neg (ne_of_gt (h p List.mem_cons_self)),
        ih fun q hq => h q (List.mem_cons_of_mem _ hq)]

/-- Dictionaries with the same look-ups are the same. -/
theorem Ascending.ext : ∀ {d d' : Dictionary α}, Ascending d → Ascending d' →
    (∀ key, get? key d = get? key d') → d = d'
  | [], [], _, _, _ => rfl
  | [], p :: d', _, _, h => by
      have := h p.1
      rw [get?_cons, if_pos rfl] at this
      cases this
  | p :: d, [], _, _, h => by
      have := h p.1
      rw [get?_cons, if_pos rfl] at this
      cases this
  | p :: d, q :: d', hd, hd', h => by
      obtain ⟨hp, hd⟩ := List.pairwise_cons.mp hd
      obtain ⟨hq, hd'⟩ := List.pairwise_cons.mp hd'
      have hkey : p.1 = q.1 := by
        rcases lt_trichotomy p.1 q.1 with hlt | heq | hlt
        · have hnone : get? p.1 (q :: d') = none := get?_eq_none_of_lt fun r hr => by
            rcases List.mem_cons.mp hr with rfl | hr
            · exact hlt
            · exact String.lt_trans hlt (hq r hr)
          rw [← h, get?_cons, if_pos rfl] at hnone
          cases hnone
        · exact heq
        · have hnone : get? q.1 (p :: d) = none := get?_eq_none_of_lt fun r hr => by
            rcases List.mem_cons.mp hr with rfl | hr
            · exact hlt
            · exact String.lt_trans hlt (hp r hr)
          rw [h, get?_cons, if_pos rfl] at hnone
          cases hnone
      have hvalue := h p.1
      rw [get?_cons, get?_cons, if_pos rfl, if_pos hkey.symm, Option.some.injEq] at hvalue
      have hrest : d = d' := by
        refine Ascending.ext hd hd' fun key => ?_
        by_cases heq : p.1 = key
        · rw [← heq, get?_eq_none_of_lt hp, hkey, get?_eq_none_of_lt hq]
        · have := h key
          rwa [get?_cons, get?_cons, if_neg heq, if_neg (hkey ▸ heq)] at this
      rw [hrest, Prod.ext hkey hvalue]

theorem perm_insert {key : String} {value : α} {d : Dictionary α} (h : get? key d = none) :
    (insert key value d).Perm ((key, value) :: d) := by
  induction d with
  | nil => exact .refl _
  | cons p d ih =>
      obtain ⟨k, v⟩ := p
      rw [get?_cons] at h
      split at h
      · cases h
      next hne =>
        rw [insert]
        split
        · exact .refl _
        · rw [if_neg (Ne.symm hne)]
          exact ((ih h).cons _).trans (.swap _ _ _)

theorem Ascending.get?_eq_some_iff {d : Dictionary α} (h : Ascending d) {key : String} {value : α} :
    get? key d = some value ↔ (key, value) ∈ d := by
  induction d with
  | nil => simp
  | cons p d ih =>
      obtain ⟨k, v⟩ := p
      obtain ⟨hk, hd⟩ := List.pairwise_cons.mp h
      rw [get?_cons, List.mem_cons, Prod.mk.injEq]
      by_cases heq : k = key
      · have hnot : (key, value) ∉ d := fun hmem => lt_irrefl key (heq ▸ hk _ hmem)
        simp [heq, hnot, eq_comm]
      · simp [heq, ih hd, Ne.symm heq]

theorem ascending_foldl_insert (pairs : List (String × α)) {d : Dictionary α} (h : Ascending d) :
    Ascending (pairs.foldl (fun d p => insert p.1 p.2 d) d) := by
  induction pairs generalizing d with
  | nil => exact h
  | cons p pairs ih => exact ih (h.insert p.1 p.2)

theorem ascending_ofList (pairs : List (String × α)) : Ascending (ofList pairs) :=
  ascending_foldl_insert pairs .nil

theorem insert_of_gt {key : String} {value : α} : ∀ {d : Dictionary α}, (∀ p ∈ d, p.1 < key) →
    insert key value d = d ++ [(key, value)]
  | [], _ => rfl
  | p :: d, h => by
      have hp := h p List.mem_cons_self
      rw [insert, if_neg (lt_asymm hp), if_neg (ne_of_gt hp),
        insert_of_gt fun q hq => h q (List.mem_cons_of_mem _ hq), List.cons_append]

/-- Entries in ascending order are appended one by one. -/
theorem foldl_insert_of_ascending : ∀ {d d' : Dictionary α}, Ascending (d ++ d') →
    d'.foldl (fun d p => insert p.1 p.2 d) d = d ++ d'
  | d, [], _ => (List.append_nil d).symm
  | d, p :: d', h => by
      have hp : ∀ q ∈ d, q.1 < p.1 := fun q hq =>
        (List.pairwise_append.mp h).2.2 q hq p List.mem_cons_self
      rw [List.foldl_cons, insert_of_gt hp, foldl_insert_of_ascending]
      · rw [List.append_assoc, List.singleton_append]
      · rwa [List.append_assoc, List.singleton_append]

theorem ofList_of_ascending {d : Dictionary α} (h : Ascending d) : ofList d = d :=
  foldl_insert_of_ascending (d := []) h

/-! ## Tallies -/

/-- One more under `key`. -/
def increment (d : Dictionary Nat) (key : String) : Dictionary Nat :=
  insert key ((get? key d).getD 0 + 1) d

theorem tally_eq (keys : List String) : tally keys = keys.foldl increment [] := rfl

theorem Ascending.increment {d : Dictionary Nat} (h : Ascending d) (key : String) :
    Ascending (Dictionary.increment d key) :=
  h.insert key _

theorem Ascending.foldl_increment (keys : List String) {d : Dictionary Nat} (h : Ascending d) :
    Ascending (keys.foldl Dictionary.increment d) := by
  induction keys generalizing d with
  | nil => exact h
  | cons key keys ih => exact ih (h.increment key)

theorem ascending_tally (keys : List String) : Ascending (tally keys) :=
  Ascending.nil.foldl_increment keys

theorem get?_foldl_increment (key : String) (keys : List String) (d : Dictionary Nat) :
    get? key (keys.foldl increment d) =
      if key ∈ keys then some ((get? key d).getD 0 + keys.count key) else get? key d := by
  induction keys generalizing d with
  | nil => simp
  | cons other keys ih =>
      rw [List.foldl_cons, ih]
      by_cases h : key = other
      · subst h
        rw [increment, get?_insert_self]
        by_cases hmem : key ∈ keys
        · simp [hmem]
          omega
        · simp [hmem, List.count_eq_zero.mpr hmem]
      · rw [increment, get?_insert_of_ne h]
        simp [h, Ne.symm h]

/-- A text is in the tally if it occurs, with the number of times. -/
theorem mem_tally_iff {key : String} {n : Nat} {keys : List String} :
    (key, n) ∈ tally keys ↔ 0 < n ∧ n = keys.count key := by
  rw [← (ascending_tally keys).get?_eq_some_iff, tally_eq, get?_foldl_increment]
  by_cases h : key ∈ keys
  · have hpos := List.count_pos_iff.mpr h
    simp [h]
    omega
  · have hzero := List.count_eq_zero.mpr h
    simp [h]
    omega

theorem Ascending.sum_increment : ∀ {d : Dictionary Nat}, Ascending d → ∀ key,
    ((Dictionary.increment d key).map Prod.snd).sum = (d.map Prod.snd).sum + 1
  | [], _, key => by simp [Dictionary.increment, Dictionary.insert]
  | (k, v) :: d, h, key => by
      obtain ⟨hk, hd⟩ := List.pairwise_cons.mp h
      rw [Dictionary.increment, Dictionary.insert, get?_cons]
      by_cases hlt : key < k
      · have hnone : get? key d = none :=
          get?_eq_none_of_lt fun p hp => String.lt_trans hlt (hk p hp)
        simp [hlt, ne_of_gt hlt, hnone]
        omega
      · by_cases heq : key = k
        · subst heq
          simp
          omega
        · have hrest := Ascending.sum_increment hd key
          rw [Dictionary.increment] at hrest
          simp [hlt, heq, Ne.symm heq, hrest]
          omega

theorem Ascending.sum_foldl_increment (keys : List String) {d : Dictionary Nat} (h : Ascending d) :
    ((keys.foldl Dictionary.increment d).map Prod.snd).sum =
      (d.map Prod.snd).sum + keys.length := by
  induction keys generalizing d with
  | nil => rfl
  | cons key keys ih =>
      rw [List.foldl_cons, ih (h.increment key), h.sum_increment, List.length_cons]
      omega

theorem sum_tally (keys : List String) : ((tally keys).map Prod.snd).sum = keys.length := by
  rw [tally_eq, Ascending.nil.sum_foldl_increment]
  simp

/-- The order in which texts are counted does not matter. -/
theorem tally_eq_of_perm {keys keys' : List String} (h : keys.Perm keys') :
    tally keys = tally keys' := by
  refine (ascending_tally keys).ext (ascending_tally keys') ?_
  intro key
  refine Option.ext fun n => ?_
  rw [(ascending_tally keys).get?_eq_some_iff, (ascending_tally keys').get?_eq_some_iff,
    mem_tally_iff, mem_tally_iff, h.count_eq]

end ZoneHistory.Dictionary
