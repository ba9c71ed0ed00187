import ZoneHistory.Source.Until

/-!
# What a parser reads

What a parser returns does not depend on the context: a context only tells where
reading has got to. `Reads p P` says so, and says which values `p` may return. The
lemmas are one for each way in which parsers are built, so that the values of a
parser are read off its parts.
-/

namespace ZoneHistory.Source.Parse

variable {α β : Type}

/-- In every context, `p` returns the values with the property `P` and no other. -/
def Reads (p : Parse α) (P : α → Prop) : Prop :=
  ∀ (c : Context) (a : α), (p c).1 = .ok a ↔ P a

variable {p : Parse α} {P Q : α → Prop}

theorem Reads.congr (h : Reads p P) (hPQ : ∀ a, P a ↔ Q a) : Reads p Q :=
  fun c a => (h c a).trans (hPQ a)

theorem reads_return (a : α) : Reads (return a) (· = a) := by
  intro c b
  show Except.ok a = Except.ok b ↔ b = a
  rw [Except.ok.injEq, eq_comm]

theorem reads_fail (e : Context → SourceError) : Reads (fail e : Parse α) fun _ => False :=
  fun _ _ => ⟨nofun, nofun⟩

theorem reads_update (f : Context → Context) : Reads (update f) fun _ => True :=
  fun _ _ => ⟨fun _ => trivial, fun _ => rfl⟩

theorem bind_of_ok {f : α → Parse β} {c d : Context} {a : α} (h : p c = (.ok a, d)) :
    (p >>= f) c = f a d := by
  show Parse.bind p f c = _
  rw [Parse.bind, h]

theorem bind_of_error {f : α → Parse β} {c d : Context} {e : SourceError}
    (h : p c = (.error e, d)) : (p >>= f) c = (.error e, d) := by
  show Parse.bind p f c = _
  rw [Parse.bind, h]

/-- What comes after a step does not ask how the step has been made. -/
theorem bind_eq_bind {q : Parse α} {f : α → Parse β} {c d : Context} (h : p c = q d) :
    (p >>= f) c = (q >>= f) d := by
  show Parse.bind p f c = Parse.bind q f d
  rw [Parse.bind, Parse.bind, h]

theorem bind_ok_iff {f : α → Parse β} {c d : Context} {b : β} :
    (p >>= f) c = (.ok b, d) ↔ ∃ a c', p c = (.ok a, c') ∧ f a c' = (.ok b, d) := by
  rcases hrun : p c with ⟨e | a, c'⟩
  · rw [bind_of_error hrun]
    exact ⟨nofun, fun ⟨_, _, h, _⟩ => by cases h⟩
  · rw [bind_of_ok hrun]
    constructor
    · exact fun h => ⟨a, c', rfl, h⟩
    · rintro ⟨_, _, ⟨⟩, h⟩
      exact h

theorem bind_error_iff {f : α → Parse β} {c d : Context} {e : SourceError} :
    (p >>= f) c = (.error e, d) ↔
      p c = (.error e, d) ∨ ∃ a c', p c = (.ok a, c') ∧ f a c' = (.error e, d) := by
  rcases hrun : p c with ⟨e' | a, c'⟩
  · rw [bind_of_error hrun]
    constructor
    · rintro ⟨⟩
      exact Or.inl rfl
    · rintro (⟨⟨⟩⟩ | ⟨_, _, ⟨⟩, -⟩)
      rfl
  · rw [bind_of_ok hrun]
    constructor
    · exact fun h => Or.inr ⟨a, c', rfl, h⟩
    · rintro (⟨⟨⟩⟩ | ⟨_, _, ⟨⟩, h⟩)
      exact h

theorem map_ok_iff {f : α → β} {c d : Context} {b : β} :
    (f <$> p) c = (.ok b, d) ↔ ∃ a, p c = (.ok a, d) ∧ b = f a := by
  refine bind_ok_iff.trans ⟨?_, ?_⟩
  · rintro ⟨a, c', h, ⟨⟩⟩
    exact ⟨a, h, rfl⟩
  · rintro ⟨a, h, rfl⟩
    exact ⟨a, d, h, rfl⟩

theorem map_error_iff {f : α → β} {c d : Context} {e : SourceError} :
    (f <$> p) c = (.error e, d) ↔ p c = (.error e, d) :=
  bind_error_iff.trans (or_iff_left fun ⟨_, _, _, h⟩ => by cases h)

theorem within_eq_error {label : String} {c d : Context} {e : SourceError} :
    within label p c = (.error e, d) ↔ p (c.enter label) = (.error e, d) := by
  show (do
    let a ← p
    update Context.leave
    return a : Parse α) (c.enter label) = _ ↔ _
  exact bind_error_iff.trans (or_iff_left fun ⟨_, _, _, h⟩ => by cases h)

theorem Reads.bind {f : α → Parse β} {Q : α → β → Prop} (hp : Reads p P)
    (hf : ∀ a, P a → Reads (f a) (Q a)) : Reads (p >>= f) fun b => ∃ a, P a ∧ Q a b := by
  intro c b
  have hc := hp c
  rcases hrun : p c with ⟨e | a, d⟩
  · rw [bind_of_error hrun]
    rw [hrun] at hc
    constructor
    · intro h
      cases h
    · rintro ⟨a, ha, -⟩
      cases (hc a).mpr ha
  · rw [bind_of_ok hrun]
    rw [hrun] at hc
    have ha : P a := (hc a).mp rfl
    refine (hf a ha d b).trans ?_
    constructor
    · intro hb
      exact ⟨a, ha, hb⟩
    · rintro ⟨a', ha', hb⟩
      obtain rfl : a = a' := Except.ok.inj ((hc a').mpr ha')
      exact hb

/-- A first part that returns nothing of interest only changes the context. -/
theorem Reads.afterUpdate {f : Context → Context} (h : Reads p P) :
    Reads (do update f; p) P :=
  ((reads_update f).bind fun _ _ => h).congr fun _ =>
    ⟨fun ⟨_, _, h⟩ => h, fun h => ⟨(), trivial, h⟩⟩

theorem Reads.map {f : α → β} (h : Reads p P) : Reads (f <$> p) fun b => ∃ a, P a ∧ b = f a :=
  h.bind fun a _ => reads_return (f a)

theorem Reads.within (h : Reads p P) (label : String) : Reads (Parse.within label p) P :=
  (h.bind fun a _ => (reads_return a).afterUpdate).afterUpdate.congr fun _ =>
    ⟨fun ⟨_, h, heq⟩ => heq ▸ h, fun h => ⟨_, h, rfl⟩⟩

theorem Reads.labelled (h : Reads p P) (label : String) : Reads (Parse.labelled label p) P :=
  fun c a => h (c.enter label) a

theorem reads_column (ss : List String) : Reads (column ss) fun r => ss = r.1 :: r.2 := by
  cases ss with
  | nil => exact (reads_fail _).congr fun _ => ⟨nofun, nofun⟩
  | cons s rest =>
      refine (reads_return (s, rest)).congr fun r => ⟨?_, ?_⟩
      · rintro rfl
        rfl
      · rintro h
        cases h
        rfl

theorem reads_integer (range : Text.IntegerRange) (s : String) :
    Reads (integer range s) fun n => Text.readInteger range s = .ok n := by
  rw [integer]
  cases Text.readInteger range s with
  | error e => exact (reads_fail _).congr fun _ => ⟨nofun, nofun⟩
  | ok n => exact (reads_return n).congr fun _ => by rw [Except.ok.injEq, eq_comm]

theorem reads_unknownValue (s : String) : Reads (unknownValue s : Parse α) fun _ => False :=
  reads_fail _

theorem reads_endOfLine : Reads (endOfLine : Parse α) fun _ => False :=
  reads_fail _

/-- A value that is looked up is the one found. -/
theorem reads_lookup {found : Option α} {s : String} (hsome : ∀ a, found = some a → p = return a)
    (hnone : found = none → p = unknownValue s) : Reads p fun a => found = some a := by
  cases found with
  | none =>
      rw [hnone rfl]
      exact (reads_unknownValue s).congr fun _ => ⟨nofun, nofun⟩
  | some a =>
      rw [hsome a rfl]
      exact (reads_return a).congr fun _ => by rw [Option.some.injEq, eq_comm]

/-- A check after reading keeps the values that pass it. -/
theorem reads_if (a : α) (condition : Prop) [Decidable condition] (s : String) :
    Reads (if condition then return a else unknownValue s) fun b => b = a ∧ condition := by
  split
  next h => exact (reads_return a).congr fun _ => by simp [h]
  next h => exact (reads_unknownValue s).congr fun _ => by simp [h]

end ZoneHistory.Source.Parse
