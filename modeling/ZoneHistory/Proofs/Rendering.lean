import Mathlib.Data.Set.Function
import ZoneHistory.Proofs.Calendar.DayCount
import ZoneHistory.Proofs.Table.Invariant
import ZoneHistory.Proofs.Text.Widths
import ZoneHistory.Proofs.WallTime
import ZoneHistory.Verification

/-!
# Different values have different texts

Main statement: readings, instants, offsets and resolutions can be told from their texts, and so
a mismatch never shows the same text twice (`texts_are_unambiguous`).

Each field is peeled off the front of a text, whatever stands behind it (the lemmas `_append_inj`).
A number ends where the separator after it begins, a time ends before anything but a digit or a
point, and an instant ends with its own `Z`, so that the two instants of a gap can be told apart.
What is left for instants is that their dates and times count them.
-/

namespace ZoneHistory

open Calendar Text

/-! ## Times of day -/

/-- The text does not go on with a time of day: it begins with neither a digit nor a point. -/
def EndsTime (cs : List Char) : Prop :=
  EndsNumber cs ∧ cs.head? ≠ some '.'

theorem endsTime_nil : EndsTime [] :=
  ⟨endsNumber_nil, nofun⟩

theorem endsTime_cons {c : Char} {cs : List Char} (hdigit : c.isDigit = false) (hpoint : c ≠ '.') :
    EndsTime (c :: cs) :=
  ⟨endsNumber_cons hdigit, fun h => hpoint (Option.some.inj h)⟩

namespace TimeOfDay

/-- The milliseconds as they stand at the end of a time. -/
def fractionText (millisecond : Nat) : String :=
  if millisecond = 0 then "" else "." ++ padded 3 millisecond

theorem toList_fractionText_of_pos {millisecond : Nat} (h : millisecond ≠ 0) :
    (fractionText millisecond).toList = '.' :: (padded 3 millisecond).toList := by
  rw [fractionText, if_neg h, String.toList_append]
  rfl

theorem endsNumber_fraction {millisecond : Nat} {s : List Char} (hs : EndsTime s) :
    EndsNumber ((fractionText millisecond).toList ++ s) := by
  by_cases h : millisecond = 0
  · subst h
    exact hs.1
  · rw [toList_fractionText_of_pos h]
    exact endsNumber_cons rfl

theorem fraction_append_inj {m n : Nat} {s t : List Char} (hs : EndsTime s) (ht : EndsTime t)
    (h : (fractionText m).toList ++ s = (fractionText n).toList ++ t) : m = n ∧ s = t := by
  by_cases hm : m = 0 <;> by_cases hn : n = 0
  · subst hm hn
    exact ⟨rfl, h⟩
  · -- only one of the two has a point
    subst hm
    rw [toList_fractionText_of_pos hn] at h
    exact absurd (congrArg List.head? h) hs.2
  · subst hn
    rw [toList_fractionText_of_pos hm] at h
    exact absurd (congrArg List.head? h.symm) ht.2
  · rw [toList_fractionText_of_pos hm, toList_fractionText_of_pos hn] at h
    exact padded_append_inj hs.1 ht.1 (List.cons.inj h).2

theorem toList_text (t : TimeOfDay) : t.text.toList = (padded 2 t.hour).toList ++ ':' ::
    ((padded 2 t.minute).toList ++ ':' ::
      ((padded 2 t.second).toList ++ (fractionText t.millisecond).toList)) := by
  simp [text, fractionText]

theorem text_append_inj {a b : TimeOfDay} {s t : List Char} (hs : EndsTime s) (ht : EndsTime t)
    (h : a.text.toList ++ s = b.text.toList ++ t) : a = b ∧ s = t := by
  simp only [toList_text, List.append_assoc, List.cons_append] at h
  have hcolon {cs : List Char} : EndsNumber (':' :: cs) := endsNumber_cons rfl
  obtain ⟨hhour, h⟩ := padded_append_inj hcolon hcolon h
  obtain ⟨hminute, h⟩ := padded_append_inj hcolon hcolon (List.cons.inj h).2
  obtain ⟨hsecond, h⟩ := padded_append_inj (endsNumber_fraction hs) (endsNumber_fraction ht)
    (List.cons.inj h).2
  obtain ⟨hmillisecond, hrest⟩ := fraction_append_inj hs ht h
  cases a
  cases b
  rw [mk.injEq]
  exact ⟨⟨hhour, hminute, hsecond, hmillisecond⟩, hrest⟩

end TimeOfDay

/-! ## Dates -/

/-- What stands behind the year in a date, and in front of the time. -/
theorem monthAndDay_append_inj {d e : Date} (hyear : d.year = e.year) {s t : List Char}
    (hs : EndsNumber s) (ht : EndsNumber t)
    (h : '-' :: ((padded 2 d.month).toList ++ '-' :: ((padded 2 d.day).toList ++ s)) =
      '-' :: ((padded 2 e.month).toList ++ '-' :: ((padded 2 e.day).toList ++ t))) :
    d = e ∧ s = t := by
  have hdash {cs : List Char} : EndsNumber ('-' :: cs) := endsNumber_cons rfl
  obtain ⟨hmonth, h⟩ := padded_append_inj hdash hdash (List.cons.inj h).2
  obtain ⟨hday, hrest⟩ := padded_append_inj hs ht (List.cons.inj h).2
  cases d
  cases e
  rw [Date.mk.injEq]
  exact ⟨⟨hyear, hmonth, hday⟩, hrest⟩

/-- Both ways to write a year have a sign and a size. -/
theorem exists_toList_dateText (d : Date) : ∃ plus width, IsPlus plus ∧ (dateText d).toList =
    signOf plus d.year ++ ((padded width d.year.natAbs).toList ++ '-' ::
      ((padded 2 d.month).toList ++ '-' :: (padded 2 d.day).toList)) := by
  by_cases hfour : 0 ≤ d.year ∧ d.year ≤ 9999
  · have hpositive : ¬d.year < 0 := by omega
    exact ⟨[], 4, Or.inl rfl, by simp [dateText, signOf, hfour, hpositive]⟩
  · refine ⟨['+'], 6, Or.inr rfl, ?_⟩
    by_cases hnegative : d.year < 0
    · simp [dateText, signOf, hfour, hnegative]
    · simp [dateText, signOf, hfour, hnegative]

theorem dateText_append_inj {d e : Date} {s t : List Char} (hs : EndsNumber s) (ht : EndsNumber t)
    (h : (dateText d).toList ++ s = (dateText e).toList ++ t) : d = e ∧ s = t := by
  obtain ⟨plus, width, hplus, hd⟩ := exists_toList_dateText d
  obtain ⟨plus', width', hplus', he⟩ := exists_toList_dateText e
  rw [hd, he] at h
  simp only [List.append_assoc, List.cons_append] at h
  obtain ⟨hyear, h⟩ :=
    integer_append_inj hplus hplus' (endsNumber_cons rfl) (endsNumber_cons rfl) h
  exact monthAndDay_append_inj hyear hs ht h

/-! ## Readings -/

theorem Calendar.Weekday.length_abbreviation (w : Weekday) : w.abbreviation.toList.length = 3 := by
  cases w <;> rfl

namespace Reading

theorem toList_text (r : Reading) : r.text.toList =
    r.weekday.abbreviation.toList ++ ' ' ::
      ((dateText r.date).toList ++ 'T' :: r.time.text.toList) := by
  simp [text]

theorem eq_of_date_of_time {q r : Reading} (hdate : q.date = r.date) (htime : q.time = r.time) :
    q = r := by
  cases q
  cases r
  rw [mk.injEq]
  exact ⟨hdate, htime⟩

/-- The weekday says nothing more, so that it is only passed over. -/
theorem text_injective : Function.Injective text := by
  intro a b h
  have h := congrArg String.toList h
  rw [toList_text, toList_text] at h
  obtain ⟨-, h⟩ := List.append_inj h (by simp [Weekday.length_abbreviation])
  obtain ⟨hdate, h⟩ :=
    dateText_append_inj (endsNumber_cons rfl) (endsNumber_cons rfl) (List.cons.inj h).2
  have htime := (List.cons.inj h).2
  rw [← List.append_nil a.time.text.toList, ← List.append_nil b.time.text.toList] at htime
  obtain ⟨htime, -⟩ := TimeOfDay.text_append_inj endsTime_nil endsTime_nil htime
  exact eq_of_date_of_time hdate htime

end Reading

/-! ## Offsets -/

namespace Offset

theorem toList_text (o : Offset) : o.text.toList = signOf ['+'] o.minutes ++
    ((padded 2 (o.minutes.natAbs / 60)).toList ++ ':' ::
      (padded 2 (o.minutes.natAbs % 60)).toList) := by
  by_cases h : o.minutes < 0 <;> simp [text, signOf, h]

theorem text_injective : Function.Injective text := by
  intro a b h
  have h := congrArg String.toList h
  rw [toList_text, toList_text] at h
  obtain ⟨hsign, hhours, h⟩ := signOf_append_inj (Or.inr rfl) (Or.inr rfl) (endsNumber_cons rfl)
    (endsNumber_cons rfl) h
  have hminutes := (List.cons.inj h).2
  rw [← List.append_nil (padded 2 (a.minutes.natAbs % 60)).toList,
    ← List.append_nil (padded 2 (b.minutes.natAbs % 60)).toList] at hminutes
  obtain ⟨hminutes, -⟩ := padded_append_inj endsNumber_nil endsNumber_nil hminutes
  obtain ⟨a⟩ := a
  obtain ⟨b⟩ := b
  rw [mk.injEq]
  dsimp only at hsign hhours hminutes
  omega

end Offset

/-! ## Instants -/

namespace Instant

/-- A valid instant, or the beginning of time. -/
def IsPoint (t : Instant) : Prop :=
  t.Valid ∨ t = beginning

theorem toList_text_of_ne {t : Instant} (h : t ≠ beginning) {r : Reading}
    (hr : Reading.ofWallMs t.ms = r) : ∃ width, t.text.toList =
    signOf [] r.date.year ++ ((padded width r.date.year.natAbs).toList ++ '-' ::
      ((padded 2 r.date.month).toList ++ '-' :: ((padded 2 r.date.day).toList ++ 'T' ::
        (r.time.text.toList ++ ['Z'])))) := by
  have htext : t.text = paddedSigned 4 r.date.year ++ "-" ++ padded 2 r.date.month ++ "-" ++
      padded 2 r.date.day ++ "T" ++ r.time.text ++ "Z" := by
    rw [← hr]
    exact if_neg h
  rw [htext]
  by_cases hnegative : r.date.year < 0
  · exact ⟨3, by simp [paddedSigned, signOf, hnegative]⟩
  · exact ⟨4, by simp [paddedSigned, signOf, hnegative]⟩

/-- The name of the beginning is the only text with a letter after its sign. -/
theorem beginning_append_ne {u : Instant} (hu : u ≠ beginning) (s t : List Char) :
    beginning.text.toList ++ s ≠ u.text.toList ++ t := by
  intro h
  obtain ⟨width, hwidth⟩ := toList_text_of_ne hu rfl
  have hsign := congrArg (List.takeWhile fun c => !c.isDigit) h
  rw [hwidth, List.append_assoc, List.append_assoc, takeWhile_signOf_append (Or.inl rfl)] at hsign
  have hletters : beginning.text.toList = "-infinity".toList := rfl
  rw [hletters, signOf] at hsign
  split at hsign <;> simp at hsign

theorem Valid.wallMs_ofWallMs {t : Instant} (h : t.Valid) :
    (Reading.ofWallMs t.ms).wallMs = t.ms := by
  obtain ⟨hleast, hgreatest⟩ := h
  unfold limitMs at hleast hgreatest
  refine Reading.wallMs_ofWallMs ?_ ?_ <;>
  · unfold msPerDay
    omega

theorem Valid.eq_of_ofWallMs {a b : Instant} (ha : a.Valid) (hb : b.Valid)
    (h : Reading.ofWallMs a.ms = Reading.ofWallMs b.ms) : a = b := by
  obtain ⟨m⟩ := a
  obtain ⟨n⟩ := b
  have hms : m = n := calc
    m = (Reading.ofWallMs m).wallMs := ha.wallMs_ofWallMs.symm
    _ = (Reading.ofWallMs n).wallMs := congrArg Reading.wallMs h
    _ = n := hb.wallMs_ofWallMs
  rw [hms]

/-- An instant ends with its text, whatever comes next. -/
theorem text_append_inj {a b : Instant} (ha : a.IsPoint) (hb : b.IsPoint) {s t : List Char}
    (h : a.text.toList ++ s = b.text.toList ++ t) : a = b ∧ s = t := by
  by_cases ha' : a = beginning <;> by_cases hb' : b = beginning
  · subst ha' hb'
    exact ⟨rfl, List.append_cancel_left h⟩
  · subst ha'
    exact absurd h (beginning_append_ne hb' s t)
  · subst hb'
    exact absurd h.symm (beginning_append_ne ha' t s)
  · obtain ⟨q, hq⟩ : ∃ q, Reading.ofWallMs a.ms = q := ⟨_, rfl⟩
    obtain ⟨r, hr⟩ : ∃ r, Reading.ofWallMs b.ms = r := ⟨_, rfl⟩
    obtain ⟨width, hwidth⟩ := toList_text_of_ne ha' hq
    obtain ⟨width', hwidth'⟩ := toList_text_of_ne hb' hr
    rw [hwidth, hwidth'] at h
    simp only [List.append_assoc, List.cons_append, List.nil_append] at h
    obtain ⟨hyear, h⟩ := integer_append_inj (Or.inl rfl) (Or.inl rfl) (endsNumber_cons rfl)
      (endsNumber_cons rfl) h
    obtain ⟨hdate, h⟩ := monthAndDay_append_inj hyear (endsNumber_cons rfl) (endsNumber_cons rfl) h
    obtain ⟨htime, h⟩ := TimeOfDay.text_append_inj (endsTime_cons rfl (by decide))
      (endsTime_cons rfl (by decide)) (List.cons.inj h).2
    have hreading := Reading.eq_of_date_of_time hdate htime
    rw [← hq, ← hr] at hreading
    exact ⟨(ha.resolve_right ha').eq_of_ofWallMs (hb.resolve_right hb') hreading,
      (List.cons.inj h).2⟩

theorem text_inj {a b : Instant} (ha : a.IsPoint) (hb : b.IsPoint)
    (h : a.text.toList = b.text.toList) : a = b := by
  rw [← List.append_nil a.text.toList, ← List.append_nil b.text.toList] at h
  exact (text_append_inj ha hb h).1

theorem head?_text {t : Instant} {c : Char} (h : t.text.toList.head? = some c) :
    c = '-' ∨ c.isDigit = true := by
  by_cases ht : t = beginning
  · subst ht
    cases h
    exact Or.inl rfl
  · obtain ⟨width, hwidth⟩ := toList_text_of_ne ht rfl
    obtain ⟨d, ds, hds⟩ := List.exists_cons_of_ne_nil (padded_ne_nil width _)
    rw [hwidth, hds, signOf] at h
    split at h
    · cases h
      exact Or.inl rfl
    · cases h
      exact Or.inr (isDigit_of_mem_padded (hds ▸ List.mem_cons_self))

end Instant

/-! ## Resolutions -/

namespace Resolution

theorem toList_text_gap (a b : Instant) : (gap a b).text.toList =
    "gap between ".toList ++ (a.text.toList ++ (" and ".toList ++ b.text.toList)) := by
  simp [text]

theorem toList_text_overlap (a b : Instant) : (overlap a b).text.toList =
    "overlap of ".toList ++ (a.text.toList ++ (" and ".toList ++ b.text.toList)) := by
  simp [text]

theorem pair_inj {a a' b b' : Instant} (ha : ∀ t ∈ [a, a'], t.IsPoint)
    (hb : ∀ t ∈ [b, b'], t.IsPoint) (h : a.text.toList ++ (" and ".toList ++ a'.text.toList) =
      b.text.toList ++ (" and ".toList ++ b'.text.toList)) : a = b ∧ a' = b' := by
  obtain ⟨hearlier, ha'⟩ := List.forall_mem_cons.mp ha
  obtain ⟨hearlier', hb'⟩ := List.forall_mem_cons.mp hb
  obtain ⟨heq, h⟩ := Instant.text_append_inj hearlier hearlier' h
  exact ⟨heq, Instant.text_inj (ha' _ List.mem_cons_self) (hb' _ List.mem_cons_self)
    (List.append_cancel_left h)⟩

/-- An instant has no word in front of it. -/
theorem text_ne_gap (t a b : Instant) : t.text.toList ≠ (gap a b).text.toList := by
  intro h
  rw [toList_text_gap] at h
  rcases Instant.head?_text (congrArg List.head? h) with h | h <;> cases h

theorem text_ne_overlap (t a b : Instant) : t.text.toList ≠ (overlap a b).text.toList := by
  intro h
  rw [toList_text_overlap] at h
  rcases Instant.head?_text (congrArg List.head? h) with h | h <;> cases h

theorem gap_ne_overlap (a a' b b' : Instant) :
    (gap a a').text.toList ≠ (overlap b b').text.toList := by
  intro h
  rw [toList_text_gap, toList_text_overlap] at h
  cases congrArg List.head? h

theorem text_injOn : Set.InjOn text {r | ∀ t ∈ r.instants, t.IsPoint} := by
  intro q hq r hr h
  have h := congrArg String.toList h
  cases q with
  | unique a =>
      cases r with
      | unique b => rw [Instant.text_inj (hq a List.mem_cons_self) (hr b List.mem_cons_self) h]
      | gap b b' => exact absurd h (text_ne_gap a b b')
      | overlap b b' => exact absurd h (text_ne_overlap a b b')
  | gap a a' =>
      cases r with
      | unique b => exact absurd h.symm (text_ne_gap b a a')
      | gap b b' =>
          rw [toList_text_gap, toList_text_gap] at h
          obtain ⟨rfl, rfl⟩ := pair_inj hq hr (List.append_cancel_left h)
          rfl
      | overlap b b' => exact absurd h (gap_ne_overlap a a' b b')
  | overlap a a' =>
      cases r with
      | unique b => exact absurd h.symm (text_ne_overlap b a a')
      | gap b b' => exact absurd h.symm (gap_ne_overlap b b' a a')
      | overlap b b' =>
          rw [toList_text_overlap, toList_text_overlap] at h
          obtain ⟨rfl, rfl⟩ := pair_inj hq hr (List.append_cancel_left h)
          rfl

end Resolution

/-! ## Mismatches -/

namespace Zone

theorem valid_of_toReading {z : Zone} {t : Instant} {r : Reading} (h : z.toReading t = .ok r) :
    t.Valid := by
  rw [toReading] at h
  split at h
  next ht => exact ht
  next => cases h

theorem valid_of_resolve {z : Zone} {r : Reading} {res : Resolution} (h : z.resolve r = .ok res) :
    res.Valid := by
  obtain ⟨found, -, h⟩ := bind_eq_ok_iff.mp h
  split at h
  next hvalid =>
    cases h
    exact hvalid
  next => cases h

theorem texts_ne_of_verify {z : Zone} {r : Reading} {t : Instant} {m : Mismatch}
    (h : z.verify r t = .ok (.mismatch m)) : m.expectedText ≠ m.actualText := by
  obtain ⟨shown, hshown, h⟩ := bind_eq_ok_iff.mp h
  split at h
  next hne =>
    cases h
    exact Reading.text_injective.ne hne.symm
  next =>
    obtain ⟨resolved, hresolved, h⟩ := bind_eq_ok_iff.mp h
    split at h
    next hne =>
      cases h
      intro heq
      have ht : t.IsPoint := Or.inl (valid_of_toReading hshown)
      have hpoints : ∀ u ∈ resolved.instants, u.IsPoint := fun u hu =>
        Or.inl (valid_of_resolve hresolved u hu)
      -- the expected instant has the text of the resolution that was hoped for
      have halone : ∀ u ∈ (Resolution.unique t).instants, u.IsPoint :=
        List.forall_mem_singleton.mpr ht
      exact hne (Resolution.text_injOn halone hpoints heq).symm
    next => cases h

theorem texts_ne_of_verifyClaim {z : Zone} {check : Bool} {c : Claim} {m : Mismatch}
    (h : z.verifyClaim check c = .ok (.mismatch m)) : m.expectedText ≠ m.actualText := by
  obtain ⟨verdict, hverdict, h⟩ := bind_eq_ok_iff.mp h
  split at h
  next =>
    cases h
    exact texts_ne_of_verify hverdict
  next =>
    dsimp only at h
    split at h
    next hne =>
      cases h
      exact Offset.text_injective.ne hne.symm
    next => cases h

end Zone

/-- No two readings have the same text, whatever their years and milliseconds; no two valid instants
have, and none has that of the beginning of time; no two offsets have, and no two resolutions into
such instants. So if a reading and an instant or a claim are found to disagree, in a zone or in the
zone of a table that a name stands for, the text of what was expected is not that of what was
found. -/
theorem texts_are_unambiguous :
    Function.Injective Reading.text ∧
    Set.InjOn Instant.text {t | t.Valid ∨ t = Instant.beginning} ∧
    Function.Injective Offset.text ∧
    Set.InjOn Resolution.text {r | ∀ t ∈ r.instants, t.Valid ∨ t = Instant.beginning} ∧
    (∀ (z : Zone) r t m, z.verify r t = .ok (.mismatch m) → m.expectedText ≠ m.actualText) ∧
    (∀ (z : Zone) check c m, z.verifyClaim check c = .ok (.mismatch m) →
      m.expectedText ≠ m.actualText) ∧
    ∀ (table : Table) name m,
      (∀ r t, table.verify name r t = .ok (.mismatch m) → m.expectedText ≠ m.actualText) ∧
      ∀ c, table.verifyClaim name c = .ok (.mismatch m) → m.expectedText ≠ m.actualText := by
  refine ⟨Reading.text_injective, ?_, Offset.text_injective, Resolution.text_injOn, ?_, ?_, ?_⟩
  · intro a ha b hb h
    exact Instant.text_inj ha hb (congrArg String.toList h)
  · intro z r t m h
    exact Zone.texts_ne_of_verify h
  · intro z check c m h
    exact Zone.texts_ne_of_verifyClaim h
  · intro table name m
    refine ⟨?_, ?_⟩
    · intro r t h
      obtain ⟨z, -, h⟩ := bind_eq_ok_iff.mp h
      exact Zone.texts_ne_of_verify h
    · intro c h
      obtain ⟨z, -, h⟩ := bind_eq_ok_iff.mp h
      exact Zone.texts_ne_of_verifyClaim h

/-- The clock is set back by an hour at 1970-01-01T00:00Z. An instant half an hour later is expected
and an overlap that ends with it is found. The years 1 and -1 differ in more than a sign. -/
theorem texts_of_instant_in_overlap :
    let z := Zone.ofChanges ⟨60⟩ [(⟨0⟩, ⟨0⟩)]
    let r : Reading := ⟨⟨1970, 1, 1⟩, ⟨0, 30, 0, 0⟩⟩
    let found : Resolution := .overlap ⟨-1800000⟩ ⟨1800000⟩
    z.verify r ⟨1800000⟩ = .ok (.mismatch (.localToUtc ⟨1800000⟩ found)) ∧
      Instant.text ⟨1800000⟩ ≠ found.text ∧
      Reading.text ⟨⟨1, 1, 1⟩, .midnight⟩ ≠ Reading.text ⟨⟨-1, 1, 1⟩, .midnight⟩ := by
  intro z r found
  have hverify : z.verify r ⟨1800000⟩ = .ok (.mismatch (.localToUtc ⟨1800000⟩ found)) := by
    decide +kernel
  obtain ⟨hreadings, -, -, -, hmismatch, -⟩ := texts_are_unambiguous
  exact ⟨hverify, hmismatch z r _ _ hverify, hreadings.ne (by decide)⟩

end ZoneHistory
