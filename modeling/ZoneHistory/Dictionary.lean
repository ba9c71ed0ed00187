/-!
# Dictionaries in key order

A dictionary is a list of pairs whose keys ascend, so that equal contents are
equal lists. Texts ascend by code points, which is the order of their UTF-8
bytes. `insert` keeps the order and replaces the value of a key that is there.
-/

namespace ZoneHistory

/-- Pairs of a key and a value with ascending keys. -/
abbrev Dictionary (α : Type) := List (String × α)

namespace Dictionary

variable {α : Type}

/-- The dictionary with `value` under `key`, in place of the value that was there. -/
def insert (key : String) (value : α) : Dictionary α → Dictionary α
  | [] => [(key, value)]
  | (k, v) :: rest =>
    if key < k then (key, value) :: (k, v) :: rest
    else if key = k then (key, value) :: rest
    else (k, v) :: insert key value rest

/-- The value under `key`. -/
def get? (key : String) (d : Dictionary α) : Option α :=
  (d.find? (·.1 = key)).map (·.2)

/-- Whether `key` has a value. -/
def hasKey (key : String) (d : Dictionary α) : Bool :=
  d.any (·.1 = key)

/-! ## What insertion does to look-ups -/

@[simp] theorem get?_nil (key : String) : get? key ([] : Dictionary α) = none := rfl

theorem get?_cons (key : String) (p : String × α) (d : Dictionary α) :
    get? key (p :: d) = if p.1 = key then some p.2 else get? key d := by
  by_cases h : p.1 = key <;> simp [get?, h]

theorem get?_insert_self (key : String) (value : α) (d : Dictionary α) :
    get? key (insert key value d) = some value := by
  induction d with
  | nil => simp [insert, get?_cons]
  | cons p d ih =>
    simp only [insert]
    split
    · simp [get?_cons]
    · split
      · simp [get?_cons]
      next hne => rw [get?_cons, if_neg (Ne.symm hne), ih]

theorem get?_insert_of_ne {key other : String} (h : other ≠ key) (value : α) (d : Dictionary α) :
    get? other (insert key value d) = get? other d := by
  induction d with
  | nil => simp [insert, get?_cons, Ne.symm h]
  | cons p d ih =>
    simp only [insert]
    split
    · rw [get?_cons, if_neg (Ne.symm h)]
    · split
      next heq => rw [get?_cons, get?_cons, if_neg (Ne.symm h), if_neg (heq ▸ Ne.symm h)]
      · rw [get?_cons, get?_cons, ih]

theorem hasKey_eq_isSome_get? (key : String) (d : Dictionary α) :
    hasKey key d = (get? key d).isSome := by
  induction d with
  | nil => rfl
  | cons p d ih =>
    rw [get?_cons, hasKey, List.any_cons, ← hasKey, ih]
    by_cases h : p.1 = key <;> simp [h]

/-! ## Building dictionaries -/

/-- The dictionary of a list of pairs; of two pairs with one key the later counts. -/
def ofList (pairs : List (String × α)) : Dictionary α :=
  pairs.foldl (fun d p => insert p.1 p.2 d) []

/-- The number of times each text occurs. -/
def tally (keys : List String) : Dictionary Nat :=
  keys.foldl (fun d key => insert key ((get? key d).getD 0 + 1) d) []

end Dictionary

end ZoneHistory
