import ZoneHistory.Proofs.Source.Grammar
import ZoneHistory.Proofs.Source.Reads

/-!
# Parsers of amounts

The parser of amounts reads what `Amount.Spelled` says, as far as it is well formed
(`reads_amount`), and so does the parser of daylight saving amounts (`reads_saving`).
The size of an amount is cut at its colons, so that each part can be read by itself
(`size_iff`).
-/

namespace ZoneHistory.Source

open Text Parse

/-! ## Integers -/

theorem reads_signed {range : IntegerRange} (hleast : range.least < 0)
    (hgreatest : 0 ≤ range.greatest) (s : String) :
    Reads (integer range s) fun n => Signed n s.toList ∧ range.contains n = true :=
  (reads_integer range s).congr fun _ => readIntegerOf_signed_iff hleast hgreatest

theorem reads_byte (s : String) :
    Reads (integer .unsigned8 s) fun n => ∃ k : Nat, n = k ∧ Unsigned k s.toList ∧ k ≤ 255 := by
  refine (reads_integer _ s).congr fun n => (readIntegerOf_unsigned_iff rfl (by decide)).trans ?_
  refine exists_congr fun k => and_congr_right fun hn => and_congr_right fun _ => ?_
  rw [IntegerRange.contains_iff]
  show 0 ≤ n ∧ n ≤ 255 ↔ k ≤ 255
  omega

/-! ## Amounts -/

theorem not_mem_colon_of_signed {n : Int} {cs : List Char} (h : Signed n cs) : ':' ∉ cs := by
  intro hmem
  rcases h.digit_or_sign _ hmem with h | h | h
  · exact absurd h (by decide)
  · exact absurd h (by decide)
  · exact absurd h (by decide)

namespace Amount

theorem beforeColon_eq_none_iff {s first : String} :
    beforeColon s = (first, none) ↔ first = s ∧ ':' ∉ s.toList := by
  rw [beforeColon]
  cases h : splitOnce? ":" s with
  | none =>
      have hmem : ':' ∉ s.toList := (splitOnce?_char_eq_none_iff rfl).mp h
      simp [hmem, eq_comm]
  | some p =>
      have hsplit : s.toList = p.1.toList ++ ':' :: p.2.toList :=
        ((splitOnce?_char_eq_some_iff rfl).mp h).1
      simp [hsplit]

theorem beforeColon_eq_some_iff {s first rest : String} :
    beforeColon s = (first, some rest) ↔
      s.toList = first.toList ++ ':' :: rest.toList ∧ ':' ∉ first.toList := by
  have hpattern : ":".toList = [':'] := rfl
  rw [← splitOnce?_char_eq_some_iff hpattern, beforeColon]
  cases splitOnce? ":" s with
  | none => simp
  | some p => simp [Prod.ext_iff]

theorem beforeColon_of_append {s : String} {first rest : List Char}
    (hs : s.toList = first ++ ':' :: rest) (hfirst : ':' ∉ first) :
    beforeColon s = (.ofList first, some (.ofList rest)) := by
  rw [beforeColon_eq_some_iff, String.toList_ofList, String.toList_ofList]
  exact ⟨hs, hfirst⟩

/-- The texts of the minutes and the seconds in what follows the hours. -/
def fractionTexts : Option String → Option String × Option String
  | none => (none, none)
  | some rest => (some (beforeColon rest).1, (beforeColon rest).2)

/-- What the text of a part spells, which may be missing. -/
def SpelledPart (n : Int) : Option String → Prop
  | none => n = 0
  | some s => Signed n s.toList

/-- The parts of an amount stand between its colons. -/
theorem size_iff {hour : Int} {minute second : Nat} {size : String} :
    Size hour minute second size.toList ↔
      Signed hour (beforeColon size).1.toList ∧
        SpelledPart minute (fractionTexts (beforeColon size).2).1 ∧
          SpelledPart second (fractionTexts (beforeColon size).2).2 := by
  constructor
  · generalize hsize : size.toList = cs
    intro h
    cases h with
    | hour hhs =>
        rw [beforeColon_eq_none_iff.mpr ⟨rfl, hsize ▸ not_mem_colon_of_signed hhs⟩]
        exact ⟨hsize ▸ hhs, rfl, rfl⟩
    | @minute minute hs ms hhs hms =>
        have hrest : beforeColon (.ofList ms) = (.ofList ms, none) := by
          rw [beforeColon_eq_none_iff, String.toList_ofList]
          exact ⟨rfl, not_mem_colon_of_signed hms⟩
        simp only [beforeColon_of_append hsize (not_mem_colon_of_signed hhs), fractionTexts, hrest,
          SpelledPart, String.toList_ofList]
        exact ⟨hhs, hms, rfl⟩
    | @second minute second hs ms ss hhs hms hss =>
        have hrest : beforeColon (.ofList (ms ++ ':' :: ss)) = (.ofList ms, some (.ofList ss)) :=
          beforeColon_of_append String.toList_ofList (not_mem_colon_of_signed hms)
        simp only [beforeColon_of_append hsize (not_mem_colon_of_signed hhs), fractionTexts, hrest,
          SpelledPart, String.toList_ofList]
        exact ⟨hhs, hms, hss⟩
  · rcases hsize : beforeColon size with ⟨hs, _ | rest⟩
    · rintro ⟨hhs, hms, hss⟩
      obtain rfl : minute = 0 := Int.ofNat_inj.mp hms
      obtain rfl : second = 0 := Int.ofNat_inj.mp hss
      obtain ⟨rfl, -⟩ := beforeColon_eq_none_iff.mp hsize
      exact .hour hhs
    · rw [(beforeColon_eq_some_iff.mp hsize).1]
      rcases hrest : beforeColon rest with ⟨ms, _ | ss⟩
      · simp only [fractionTexts, hrest, SpelledPart]
        rintro ⟨hhs, hms, hss⟩
        obtain rfl : second = 0 := Int.ofNat_inj.mp hss
        obtain ⟨rfl, -⟩ := beforeColon_eq_none_iff.mp hrest
        exact .minute hhs hms
      · simp only [fractionTexts, hrest, SpelledPart, (beforeColon_eq_some_iff.mp hrest).1]
        rintro ⟨hhs, hms, hss⟩
        exact .second hhs hms hss

theorem spelled_iff {a : Amount} {s : String} :
    a.Spelled s.toList ↔ a.negative = (after? "-" s).isSome ∧
      Size a.hour a.minute a.second ((after? "-" s).getD s).toList := by
  cases hsign : after? "-" s with
  | none =>
      have hhead : s.toList.head? ≠ some '-' := by
        intro h
        obtain ⟨cs, hcs⟩ := List.head?_eq_some_iff.mp h
        have hsome : after? "-" s = some (.ofList cs) :=
          after?_eq_some_iff.mpr (by simpa using hcs)
        rw [hsign] at hsome
        cases hsome
      rw [Option.getD_none]
      generalize s.toList = cs at hhead ⊢
      constructor
      · intro h
        cases h with
        | positive h _ => exact ⟨rfl, h⟩
        | negative h => exact absurd rfl hhead
      · obtain ⟨negative, hour, minute, second⟩ := a
        rintro ⟨rfl, h⟩
        exact .positive h hhead
  | some size =>
      have hs : s.toList = '-' :: size.toList := after?_eq_some_iff.mp hsign
      rw [hs]
      constructor
      · intro h
        cases h with
        | positive _ hhead => exact absurd rfl hhead
        | negative h => exact ⟨rfl, h⟩
      · obtain ⟨negative, hour, minute, second⟩ := a
        rintro ⟨rfl, h⟩
        exact .negative h

theorem reads_part (s : Option String) :
    Reads (part s) fun n => SpelledPart n s ∧ IntegerRange.signed8.contains n = true := by
  cases s with
  | none =>
      refine (reads_return 0).congr fun n => (and_iff_left_of_imp ?_).symm
      rintro rfl
      rfl
  | some s => exact reads_signed (by decide) (by decide) s

theorem reads_parts (negative : Bool) (size hour : String) (minute second : Option String) :
    Reads (do
      let hour ← integer .signed8 hour
      let minute ← part minute
      let second ← part second
      if 0 ≤ minute ∧ minute < 60 ∧ 0 ≤ second ∧ second < 60 then
        return (⟨negative, hour, minute.toNat, second.toNat⟩ : Amount)
      else unknownValue size) fun a =>
    (a.negative = negative ∧ -128 ≤ a.hour ∧ a.hour ≤ 127 ∧ a.minute < 60 ∧ a.second < 60) ∧
      Signed a.hour hour.toList ∧ SpelledPart a.minute minute ∧ SpelledPart a.second second := by
  refine ((reads_signed (by decide) (by decide) hour).bind fun _ _ => (reads_part minute).bind
    fun _ _ => (reads_part second).bind fun _ _ => reads_if _ _ size).congr fun a => ?_
  simp only [IntegerRange.contains_iff, IntegerRange.signed8]
  constructor
  · rintro ⟨h, ⟨hhour, hh⟩, m, ⟨hminute, -⟩, s, ⟨hsecond, -⟩, rfl, hm, hm', hs, hs'⟩
    refine ⟨⟨rfl, hh.1, hh.2, (Int.toNat_lt hm).mpr hm', (Int.toNat_lt hs).mpr hs'⟩, hhour, ?_, ?_⟩
    · rwa [Int.toNat_of_nonneg hm]
    · rwa [Int.toNat_of_nonneg hs]
  · obtain ⟨negative, h, m, s⟩ := a
    rintro ⟨⟨rfl, hh, hh', hm, hs⟩, hhour, hminute, hsecond⟩
    dsimp only at hh hh' hm hs
    exact ⟨h, ⟨hhour, hh, hh'⟩, m, ⟨hminute, by omega⟩, s, ⟨hsecond, by omega⟩, rfl, by omega⟩

theorem Size.exists_hour {hour : Int} {minute second : Nat} {cs : List Char}
    (h : Size hour minute second cs) : ∃ hs rest, cs = hs ++ rest ∧ Signed hour hs := by
  cases h with
  | hour h => exact ⟨_, [], (List.append_nil _).symm, h⟩
  | minute h _ => exact ⟨_, _, rfl, h⟩
  | second h _ _ => exact ⟨_, _, rfl, h⟩

/-- Negative hours begin with a minus sign of their own. -/
theorem Size.head?_of_neg {hour : Int} {minute second : Nat} {cs : List Char}
    (h : Size hour minute second cs) (hhour : hour < 0) : cs.head? = some '-' := by
  obtain ⟨hs, rest, rfl, hhs⟩ := h.exists_hour
  cases hhs with
  | unsigned _ => omega
  | minus _ => rfl

/-- Without a minus sign there are no negative hours. -/
theorem Spelled.hour_nonneg {a : Amount} {cs : List Char} (h : a.Spelled cs)
    (hpositive : a.negative = false) : 0 ≤ a.hour := by
  cases h with
  | negative _ => cases hpositive
  | positive h hhead => exact Int.not_lt.mp fun hhour => hhead (h.head?_of_neg hhour)

theorem reads_amount (s : String) :
    Reads (Amount.parse s) fun a => a.WellFormed ∧ a.Spelled s.toList := by
  let size := (after? "-" s).getD s
  have h := reads_parts (after? "-" s).isSome size (beforeColon size).1
    (fractionTexts (beforeColon size).2).1 (fractionTexts (beforeColon size).2).2
  refine Reads.within (h.congr fun a => ?_) "Time"
  rw [← size_iff]
  constructor
  · rintro ⟨⟨hnegative, hmin, hmax, hminute, hsecond⟩, hsize⟩
    have hspelled : a.Spelled s.toList := spelled_iff.mpr ⟨hnegative, hsize⟩
    exact ⟨⟨⟨hmin, hmax⟩, hspelled.hour_nonneg, hminute, hsecond⟩, hspelled⟩
  · rintro ⟨hwf, hspelled⟩
    obtain ⟨hnegative, hsize⟩ := spelled_iff.mp hspelled
    exact ⟨⟨hnegative, hwf.hour.1, hwf.hour.2, hwf.minute, hwf.second⟩, hsize⟩

end Amount

/-! ## Daylight saving amounts -/

theorem startsNumeric_eq_true_iff {s : String} :
    startsNumeric s = true ↔ StartsNumeric s.toList := by
  rw [startsNumeric]
  constructor
  · intro h
    split at h
    next c rest hdrop =>
      refine ⟨(s.toList.takeWhile (· == '-')).length, c, rest, ?_, h⟩
      rw [← List.eq_replicate_of_mem fun c hc => ?_, ← hdrop, List.takeWhile_append_dropWhile]
      simpa using List.mem_takeWhile_imp hc
    next => cases h
  · rintro ⟨signs, c, rest, hs, hc⟩
    have hminus : (c == '-') = false := by
      rw [beq_eq_false_iff_ne]
      rintro rfl
      exact absurd hc (by decide)
    rw [hs, List.dropWhile_append_of_pos (by simp), List.dropWhile_cons, hminus]
    exact hc

theorem reads_saving (s : String) :
    Reads (parseSaving s) fun saving =>
      (∀ a, saving = some a → a.WellFormed) ∧ SpelledSaving saving s.toList := by
  refine Reads.within ?_ "Rules"
  split
  next h =>
    subst h
    refine (reads_return none).congr fun saving => ⟨?_, fun ⟨_, h⟩ => ?_⟩
    · rintro rfl
      exact ⟨nofun, .none⟩
    · have hsign : ¬StartsNumeric "-".toList := by
        rw [← startsNumeric_eq_true_iff]
        decide
      generalize "-".toList = cs at h hsign
      cases h with
      | none => rfl
      | amount _ hstart => exact absurd hstart hsign
  next h =>
    have hs : s.toList ≠ ['-'] := fun heq => h (String.toList_inj.mp heq)
    split
    next hnumeric =>
      rw [startsNumeric_eq_true_iff] at hnumeric
      refine (Amount.reads_amount s).map.congr fun saving => ?_
      generalize s.toList = cs at hs hnumeric
      constructor
      · rintro ⟨a, ⟨hwf, hspelled⟩, rfl⟩
        refine ⟨?_, .amount hspelled hnumeric⟩
        rintro _ ⟨⟩
        exact hwf
      · rintro ⟨hwf, h⟩
        cases h with
        | none => exact absurd rfl hs
        | amount h _ => exact ⟨_, ⟨hwf _ rfl, h⟩, rfl⟩
    next hnumeric =>
      rw [startsNumeric_eq_true_iff] at hnumeric
      refine (reads_fail _).congr fun saving => ⟨nofun, fun ⟨_, h⟩ => ?_⟩
      generalize s.toList = cs at hs hnumeric h
      cases h with
      | none => exact hs rfl
      | amount _ hstart => exact hnumeric hstart

end ZoneHistory.Source
