import ZoneHistory.Proofs.Source.Amounts

/-!
# Parsers of the other columns

Designations, weekdays, months, days of a month and times of day: the parser of each
reads what its grammar spells. The tests that a parser makes come in an order, so each
form has to fail the tests before its own (`passesTests_iff`, `clockOf_unnamed`).
-/

namespace ZoneHistory.Source

open Calendar Text Parse

/-! ## Abbreviations -/

namespace Designation

theorem eq_ofText_iff {d : Designation} {s : String} : d = ofText s ↔ d.Spelled s.toList := by
  rw [ofText]
  constructor
  · rintro rfl
    split
    next hs => exact .lettered (contains_iff.mp hs)
    next hs =>
      rw [contains_iff] at hs
      split
      next hz => exact .numeric hs (contains_iff.mp hz)
      next hz =>
        rw [contains_iff] at hz
        split
        next standard daylight h =>
          obtain ⟨heq, hmem⟩ := (splitOnce?_char_eq_some_iff rfl).mp h
          exact .pair heq hmem hs hz
        next h => exact .plain ((splitOnce?_char_eq_none_iff rfl).mp h) hs hz
  · generalize hcs : s.toList = cs
    intro h
    cases h with
    | lettered hs =>
        obtain rfl := String.toList_inj.mp hcs
        rw [if_pos (contains_iff.mpr hs)]
    | numeric hs hz =>
        subst hcs
        rw [if_neg (contains_iff.not.mpr hs), if_pos (contains_iff.mpr hz)]
    | pair heq hmem hs hz =>
        subst hcs
        rw [if_neg (contains_iff.not.mpr hs), if_neg (contains_iff.not.mpr hz),
          (splitOnce?_char_eq_some_iff rfl).mpr ⟨heq, hmem⟩]
    | plain hmem hs hz =>
        obtain rfl := String.toList_inj.mp hcs
        rw [if_neg (contains_iff.not.mpr hs), if_neg (contains_iff.not.mpr hz),
          (splitOnce?_char_eq_none_iff rfl).mpr hmem]

theorem reads_designation (s : String) :
    Reads (Designation.parse s) fun d => d.Spelled s.toList :=
  ((reads_return (ofText s)).congr fun _ => eq_ofText_iff).within "Abbr. Format"

end Designation

/-! ## Days -/

theorem weekdayOf?_eq_some_iff {s : String} {w : Weekday} :
    weekdayOf? s = some w ↔ SpelledWeekday w s.toList := by
  rw [weekdayOf?]
  constructor
  · intro h
    split at h
    next heq =>
      cases h
      rw [heq]
      exact .tues
    · split at h
      next heq =>
        cases h
        rw [heq]
        exact .thurs
      · have heq := List.find?_some h
        rw [← of_decide_eq_true heq]
        exact .abbreviation
  · generalize hcs : s.toList = cs
    intro h
    cases h with
    | abbreviation =>
        rw [String.toList_inj.mp hcs]
        cases w <;> decide
    | tues => rw [String.toList_inj.mp hcs, if_pos rfl]
    | thurs =>
        rw [String.toList_inj.mp hcs]
        decide

theorem reads_weekday (s : String) :
    Reads (parseWeekday s) fun w => SpelledWeekday w s.toList :=
  (reads_lookup (fun _ h => by rw [parseWeekday, h]) (fun h => by rw [parseWeekday, h])).congr
    fun _ => weekdayOf?_eq_some_iff

theorem ofAbbreviation?_eq_some_iff {s : String} {m : Month} :
    Month.ofAbbreviation? s = some m ↔ s.toList = m.abbreviation.toList := by
  rw [String.toList_inj]
  constructor
  · intro h
    simpa using List.find?_some h
  · rintro rfl
    exact m.ofAbbreviation?_abbreviation

theorem reads_month (s : String) :
    Reads (parseMonth s) fun m => s.toList = m.abbreviation.toList :=
  ((reads_lookup (fun _ h => by rw [h]) (fun h => by rw [h])).congr fun _ =>
    ofAbbreviation?_eq_some_iff).labelled "Month"

theorem SpelledWeekday.isAlpha {w : Weekday} {cs : List Char} (h : SpelledWeekday w cs) :
    ∀ c ∈ cs, c.isAlpha = true := by
  refine List.all_eq_true.mp ?_
  cases h with
  | abbreviation => cases w <;> decide
  | tues => decide
  | thurs => decide

/-- The name of a weekday does not begin like the word `last`. -/
theorem SpelledWeekday.head?_ne {w : Weekday} {cs : List Char} (h : SpelledWeekday w cs)
    (rest : List Char) : (cs ++ rest).head? ≠ some 'l' := by
  cases h with
  | abbreviation => cases w <;> simp [Weekday.abbreviation]
  | tues => simp
  | thurs => simp

theorem not_mem_of_unsigned {n : Nat} {cs : List Char} (h : Unsigned n cs) {c : Char}
    (hdigit : c.isDigit = false) (hplus : c ≠ '+') : c ∉ cs := by
  intro hmem
  rcases h.digit_or_plus c hmem with hc | hc
  · rw [hdigit] at hc
    cases hc
  · exact hplus hc

namespace DaySelector

theorem reads_comparison (weekdayText dayText : String) :
    Reads (parseComparison weekdayText dayText) fun r =>
      SpelledWeekday r.1 weekdayText.toList ∧ Unsigned r.2 dayText.toList ∧ r.2 ≤ 255 := by
  refine ((reads_weekday weekdayText).bind fun w _ => (reads_byte dayText).bind fun d _ =>
    reads_return (w, d.toNat)).congr fun r => ?_
  constructor
  · rintro ⟨w, hw, d, ⟨k, rfl, hd, hle⟩, rfl⟩
    exact ⟨hw, hd, hle⟩
  · rintro ⟨hw, hd, hle⟩
    exact ⟨r.1, hw, r.2, ⟨r.2, rfl, hd, hle⟩, rfl⟩

/-- The number of a day fits into a byte. -/
def InByte : DaySelector → Prop
  | last _ => True
  | onOrAfter _ d | onOrBefore _ d | day d => d ≤ 255

/-- What the tests of the parser make of a selector, in their order. -/
def PassesTests (s : String) (d : DaySelector) : Prop :=
  match after? "last" s with
  | some weekdayText => ∃ w, SpelledWeekday w weekdayText.toList ∧ d = .last w
  | none =>
    match splitOnce? ">=" s with
    | some (weekdayText, dayText) => ∃ r : Weekday × Nat, (SpelledWeekday r.1 weekdayText.toList ∧
        Unsigned r.2 dayText.toList ∧ r.2 ≤ 255) ∧ d = .onOrAfter r.1 r.2
    | none =>
      match splitOnce? "<=" s with
      | some (weekdayText, dayText) => ∃ r : Weekday × Nat,
        (SpelledWeekday r.1 weekdayText.toList ∧ Unsigned r.2 dayText.toList ∧ r.2 ≤ 255) ∧
          d = .onOrBefore r.1 r.2
      | none => ∃ n : Int, (∃ k : Nat, n = k ∧ Unsigned k s.toList ∧ k ≤ 255) ∧ d = .day n.toNat

theorem reads_passesTests (s : String) : Reads (DaySelector.parse s) (PassesTests s) := by
  refine Reads.labelled ?_ "DayOfMonth"
  unfold PassesTests
  rcases after? "last" s with _ | weekdayText
  · rcases splitOnce? ">=" s with _ | ⟨weekdayText, dayText⟩
    · rcases splitOnce? "<=" s with _ | ⟨weekdayText, dayText⟩
      · exact (reads_byte s).map
      · exact (reads_comparison weekdayText dayText).map
    · exact (reads_comparison weekdayText dayText).map
  · exact (reads_weekday weekdayText).map

theorem after?_last_eq_none {s : String} (h : s.toList.head? ≠ some 'l') :
    after? "last" s = none := by
  cases hlast : after? "last" s with
  | none => rfl
  | some weekdayText =>
      rw [after?_eq_some_iff.mp hlast] at h
      exact absurd rfl h

theorem splitOnce?_of_weekday {w : Weekday} {cs ds : List Char} {c : Char} {pattern s : String}
    (hw : SpelledWeekday w cs) (hc : c.isAlpha = false) (hpattern : pattern.toList = [c, '='])
    (hs : s.toList = cs ++ (pattern.toList ++ ds)) :
    splitOnce? pattern s = some (.ofList cs, .ofList ds) := by
  have hmem : c ∉ cs := fun h => by
    rw [hw.isAlpha c h] at hc
    cases hc
  rw [splitOnce?_eq_some_iff, hs, hpattern, String.toList_ofList, String.toList_ofList]
  exact splitAt?_append ds hmem

theorem splitOnce?_of_not_mem {c : Char} {pattern s : String} (hpattern : pattern.toList = [c, '='])
    (hs : c ∉ s.toList) : splitOnce? pattern s = none := by
  rw [splitOnce?_eq_none_iff, hpattern]
  exact splitAt?_eq_none_of_not_mem hs

theorem passesTests_iff {s : String} {d : DaySelector} :
    PassesTests s d ↔ d.InByte ∧ d.Spelled s.toList := by
  rw [PassesTests]
  constructor
  · intro h
    split at h
    next weekdayText hlast =>
      obtain ⟨w, hw, rfl⟩ := h
      rw [after?_eq_some_iff.mp hlast]
      exact ⟨trivial, .last hw⟩
    next =>
      split at h
      next weekdayText dayText hsplit =>
        obtain ⟨⟨w, n⟩, ⟨hw, hn, hle⟩, rfl⟩ := h
        rw [eq_append_of_splitAt? (splitOnce?_eq_some_iff.mp hsplit)]
        exact ⟨hle, .onOrAfter hw hn⟩
      next =>
        split at h
        next weekdayText dayText hsplit =>
          obtain ⟨⟨w, n⟩, ⟨hw, hn, hle⟩, rfl⟩ := h
          rw [eq_append_of_splitAt? (splitOnce?_eq_some_iff.mp hsplit)]
          exact ⟨hle, .onOrBefore hw hn⟩
        next =>
          obtain ⟨-, ⟨k, rfl, hk, hle⟩, rfl⟩ := h
          exact ⟨hle, .day hk⟩
  · generalize hs : s.toList = cs
    rintro ⟨hbyte, h⟩
    cases h with
    | @last w ws hw =>
        have hlast : after? "last" s = some (.ofList ws) := by
          rw [after?_eq_some_iff, hs]
          exact congrArg _ String.toList_ofList.symm
        simp only [hlast, String.toList_ofList]
        exact ⟨w, hw, rfl⟩
    | @onOrAfter w d ws ds hw hd =>
        have hlast := after?_last_eq_none (hs ▸ hw.head?_ne _)
        have hafter : splitOnce? ">=" s = some (.ofList ws, .ofList ds) :=
          splitOnce?_of_weekday hw (by decide) rfl hs
        simp only [hlast, hafter, String.toList_ofList]
        exact ⟨(w, d), ⟨hw, hd, hbyte⟩, rfl⟩
    | @onOrBefore w d ws ds hw hd =>
        have hlast := after?_last_eq_none (hs ▸ hw.head?_ne _)
        have hmem : '>' ∉ s.toList := by
          rw [hs, List.mem_append, List.mem_append]
          rintro (h | h | h)
          · exact absurd (hw.isAlpha _ h) (by decide)
          · exact absurd h (by decide)
          · exact not_mem_of_unsigned hd (by decide) (by decide) h
        have hafter : splitOnce? ">=" s = none := splitOnce?_of_not_mem rfl hmem
        have hbefore : splitOnce? "<=" s = some (.ofList ws, .ofList ds) :=
          splitOnce?_of_weekday hw (by decide) rfl hs
        simp only [hlast, hafter, hbefore, String.toList_ofList]
        exact ⟨(w, d), ⟨hw, hd, hbyte⟩, rfl⟩
    | @day d ds hd =>
        have hmem {c : Char} (hdigit : c.isDigit = false) (hplus : c ≠ '+') : c ∉ s.toList :=
          hs ▸ not_mem_of_unsigned hd hdigit hplus
        have hlast := after?_last_eq_none fun h =>
          hmem (by decide) (by decide) (List.mem_of_mem_head? h)
        have hafter : splitOnce? ">=" s = none :=
          splitOnce?_of_not_mem rfl (hmem (by decide) (by decide))
        have hbefore : splitOnce? "<=" s = none :=
          splitOnce?_of_not_mem rfl (hmem (by decide) (by decide))
        simp only [hlast, hafter, hbefore]
        exact ⟨d, ⟨d, rfl, hd, hbyte⟩, rfl⟩

theorem reads_daySelector (s : String) :
    Reads (DaySelector.parse s) fun d => d.InByte ∧ d.Spelled s.toList :=
  (reads_passesTests s).congr fun _ => passesTests_iff

end DaySelector

/-! ## Times -/

theorem Amount.Size.endsWithDigit {hour : Int} {minute second : Nat} {cs : List Char}
    (h : Size hour minute second cs) : EndsWithDigit cs := by
  cases h with
  | hour h => exact h.endsWithDigit
  | minute _ h => exact (h.endsWithDigit.append [':']).append _
  | second _ _ h => exact (((h.endsWithDigit.append [':']).append _).append [':']).append _

theorem Amount.Spelled.endsWithDigit {a : Amount} {cs : List Char} (h : a.Spelled cs) :
    EndsWithDigit cs := by
  cases h with
  | positive h _ => exact h.endsWithDigit
  | negative h => exact h.endsWithDigit.append ['-']

namespace ClockTime

theorem before?_of_append {s : String} {cs : List Char} {final : Char}
    (hs : s.toList = cs ++ [final]) (c : Char) :
    before? c s = if final = c then some (.ofList cs) else none := by
  rw [before?, hs, List.getLast?_concat, List.dropLast_concat]
  simp only [Option.some.injEq]

theorem clockOf_named {clock : Clock} {letter : Char} (h : (clock, letter) ∈ clockLetters)
    {s : String} {cs : List Char} (hs : s.toList = cs ++ [letter]) :
    clockOf s = (clock, .ofList cs) := by
  simp only [clockLetters, List.mem_cons, Prod.mk.injEq, List.not_mem_nil, or_false] at h
  rcases h with ⟨rfl, rfl⟩ | ⟨rfl, rfl⟩ | ⟨rfl, rfl⟩ | ⟨rfl, rfl⟩ | ⟨rfl, rfl⟩
  all_goals simp [clockOf, before?_of_append hs]

theorem clockOf_unnamed {s : String} (h : ∀ p ∈ clockLetters, before? p.2 s = none) :
    clockOf s = (.wall, s) := by
  simp only [clockLetters, List.forall_mem_cons] at h
  obtain ⟨hw, hs, hu, hg, hz, -⟩ := h
  rw [clockOf, hw, hs, hu, hg, hz]
  rfl

/-- The last letter tells the clock. -/
theorem spelled_iff {t : ClockTime} {s : String} :
    t.Spelled s.toList ↔ t.clock = (clockOf s).1 ∧ t.amount.Spelled (clockOf s).2.toList := by
  obtain ⟨clock, a⟩ := t
  constructor
  · generalize hs : s.toList = cs
    intro h
    cases h with
    | wall h =>
        obtain ⟨front, c, rfl, hc⟩ := h.endsWithDigit
        have hletters : ∀ p ∈ clockLetters, p.2.isDigit = false := by decide
        rw [clockOf_unnamed]
        · exact ⟨rfl, hs ▸ h⟩
        · intro p hp
          rw [before?_of_append hs, if_neg]
          rintro rfl
          rw [hletters p hp] at hc
          cases hc
    | named hmem h =>
        rw [clockOf_named hmem hs, String.toList_ofList]
        exact ⟨rfl, h⟩
  · rintro ⟨hclock, h⟩
    dsimp only at hclock h
    subst hclock
    by_cases hletter : ∃ p ∈ clockLetters, ∃ amount, before? p.2 s = some amount
    · obtain ⟨p, hp, amount, hbefore⟩ := hletter
      have hs := before?_eq_some_iff.mp hbefore
      rw [clockOf_named hp hs] at h ⊢
      rw [hs]
      exact .named hp (by rwa [String.toList_ofList] at h)
    · rw [clockOf_unnamed] at h ⊢
      · exact .wall h
      all_goals exact fun p hp => Option.eq_none_iff_forall_ne_some.mpr fun amount heq =>
          hletter ⟨p, hp, amount, heq⟩

theorem reads_clockTime (s : String) :
    Reads (ClockTime.parse s) fun t => t.amount.WellFormed ∧ t.Spelled s.toList := by
  refine (Amount.reads_amount (clockOf s).2).map.congr fun t => ?_
  rw [spelled_iff]
  constructor
  · rintro ⟨a, ⟨hwf, h⟩, rfl⟩
    exact ⟨hwf, rfl, h⟩
  · rintro ⟨hwf, hclock, h⟩
    exact ⟨t.amount, ⟨hwf, h⟩, congrArg (ClockTime.mk · t.amount) hclock⟩

end ClockTime

end ZoneHistory.Source
