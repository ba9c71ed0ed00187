import Mathlib.Order.Bounds.Basic
import ZoneHistory.Proofs.Source.Ends
import ZoneHistory.Proofs.Table.Partition

/-!
# What holds of every zone

Main statement: every zone of a table keeps `Zone.Invariant`, whether the table was loaded from
source text or from JSON or zones were inserted one by one (`zones_keep_invariant`). All three ways
lead through `Regime.make` and `Zone.make`, so the invariant is what these two check, and it stays
true because a table only ever gets accepted zones (`Table.Built.wellFormed`).

The other direction says that the two check nothing else. `Zone.make` refuses regimes only if there
are none or at the first index that is out of order (`make_eq_error_iff`), and `Regime.make` judges
an offset on the sum of its two amounts as it is, however large they are
(`make_eq_error_offset_iff`).
-/

namespace ZoneHistory

/-! ## The bytes of an abbreviation -/

theorem utf8Len_of_ascii : ∀ {cs : List Char}, (∀ c ∈ cs, c.toNat < 128) →
    String.utf8Len cs = cs.length
  | [], _ => rfl
  | c :: cs, h => by
      have hc : c.val ≤ 127 := Nat.le_of_lt_succ (h c List.mem_cons_self)
      rw [String.utf8Len_cons, Char.utf8Size_eq_one_iff.mpr hc,
        utf8Len_of_ascii fun d hd => h d (List.mem_cons_of_mem _ hd), List.length_cons]

/-- The characters of an abbreviation are single bytes. -/
theorem IsAbbreviation.bytes {s : String} (h : IsAbbreviation s) :
    s.utf8ByteSize ≤ 8 ∧ ∀ c ∈ s.toList, c.toNat < 128 := by
  obtain ⟨hlength, hchars⟩ := h
  have hascii : ∀ c ∈ s.toList, c.toNat < 128 := fun c hc => by
    have hboth := List.all_eq_true.mp hchars c hc
    simp only [Bool.and_eq_true, decide_eq_true_eq] at hboth
    exact hboth.2
  have hsize := String.utf8ByteSize_ofList s.toList
  rw [String.ofList_toList, utf8Len_of_ascii hascii] at hsize
  exact ⟨hsize ▸ hlength, hascii⟩

/-! ## The sum that is judged -/

theorem Offset.withinDay_iff {o : Offset} : o.WithinDay ↔ o.minutes.natAbs < 1440 := by
  unfold WithinDay minutesPerDay
  omega

namespace Regime

/-- The minutes of the standard offset and of the daylight saving amount, if there is one. -/
def sumOf (standard : Int) (saving : Option Int) : Int :=
  standard + saving.getD 0

theorem minutes_total (standard : Int) (saving : Option Int) :
    (Offset.mk standard + (saving.map Offset.mk).getD Offset.zero).minutes =
      sumOf standard saving := by
  cases saving with
  | none => rfl
  | some minutes => rfl

variable {start : Instant} {standard : Int} {saving : Option Int} {abbreviation : String}

theorem make_eq_error_offset_iff (hstart : start = Instant.beginning ∨ start.Valid) {m : Int} :
    make start ⟨standard⟩ (saving.map Offset.mk) abbreviation = .error (.offset m) ↔
      1440 ≤ standard.natAbs ∧ m = standard ∨
        standard.natAbs < 1440 ∧ 1440 ≤ (sumOf standard saving).natAbs ∧
          m = sumOf standard saving := by
  simp only [make, Offset.withinDay_iff, minutes_total]
  rw [if_neg (not_not_intro hstart)]
  split
  next h =>
    simp only [Except.error.injEq, ZoneError.offset.injEq]
    omega
  next h =>
    split
    next h' =>
      simp only [Except.error.injEq, ZoneError.offset.injEq]
      omega
    next h' =>
      have hnone : ¬(1440 ≤ standard.natAbs ∧ m = standard ∨ standard.natAbs < 1440 ∧
          1440 ≤ (sumOf standard saving).natAbs ∧ m = sumOf standard saving) := by omega
      refine iff_of_false (fun h => ?_) hnone
      split at h
      · cases h
      · cases h

theorem exists_make_eq_ok_iff (hstart : start = Instant.beginning ∨ start.Valid) :
    (∃ g, make start ⟨standard⟩ (saving.map Offset.mk) abbreviation = .ok g) ↔
      standard.natAbs < 1440 ∧ (sumOf standard saving).natAbs < 1440 ∧
        IsAbbreviation abbreviation := by
  constructor
  · rintro ⟨g, hg⟩
    obtain ⟨rfl, hwf⟩ := make_eq_ok_iff.mp hg
    have htotal := Offset.withinDay_iff.mp hwf.total
    rw [total, savingOrZero, minutes_total] at htotal
    exact ⟨Offset.withinDay_iff.mp hwf.standard, htotal, hwf.abbreviation⟩
  · rintro ⟨hstandard, htotal, habbreviation⟩
    rw [← minutes_total] at htotal
    exact ⟨_, make_eq_ok_iff.mpr ⟨rfl, hstart, Offset.withinDay_iff.mpr hstandard,
      Offset.withinDay_iff.mpr htotal, habbreviation⟩⟩

end Regime

/-! ## Regimes out of order -/

namespace Zone

/-- The regime at the index does not start strictly after the one in front of it. -/
def OutOfOrder (regimes : List Regime) (index : Nat) : Prop :=
  ∃ i before g, index = i + 1 ∧ regimes[i]? = some before ∧ regimes[i + 1]? = some g ∧
    ¬before.start < g.start

theorem outOfOrder_cons_iff {before g : Regime} {rest : List Regime} {index : Nat} :
    OutOfOrder (before :: g :: rest) index ↔
      index = 1 ∧ ¬before.start < g.start ∨ ∃ i, index = i + 1 ∧ OutOfOrder (g :: rest) i := by
  constructor
  · rintro ⟨i, a, b, rfl, ha, hb, hnot⟩
    cases i with
    | zero =>
        cases ha
        cases hb
        exact Or.inl ⟨rfl, hnot⟩
    | succ i => exact Or.inr ⟨i + 1, rfl, i, a, b, rfl, ha, hb, hnot⟩
  · rintro (⟨rfl, hnot⟩ | ⟨_, rfl, i, a, b, rfl, ha, hb, hnot⟩)
    · exact ⟨0, before, g, rfl, rfl, rfl, hnot⟩
    · exact ⟨i + 1, a, b, rfl, ha, hb, hnot⟩

/-- The search counts its indices on from 1 for the regime after the first. -/
theorem firstDisorder?_eq_some_iff {before : Regime} {rest : List Regime} {skipped k : Nat} :
    firstDisorder? before rest (skipped + 1) = some k ↔
      ∃ i, IsLeast {i | OutOfOrder (before :: rest) i} i ∧ k = skipped + i := by
  induction rest generalizing before skipped with
  | nil =>
      refine iff_of_false nofun ?_
      rintro ⟨_, ⟨⟨i, a, b, rfl, -, hb, -⟩, -⟩, -⟩
      cases hb
  | cons g rest ih =>
      rw [firstDisorder?]
      by_cases hlt : before.start < g.start
      · rw [if_pos hlt, ih]
        constructor
        · rintro ⟨i, ⟨hi, hleast⟩, rfl⟩
          refine ⟨i + 1, ⟨outOfOrder_cons_iff.mpr (Or.inr ⟨i, rfl, hi⟩), fun j hj => ?_⟩, by omega⟩
          rcases outOfOrder_cons_iff.mp hj with ⟨-, hnot⟩ | ⟨j, rfl, hrest⟩
          · exact absurd hlt hnot
          · exact Nat.succ_le_succ (hleast hrest)
        · rintro ⟨i, ⟨hi, hleast⟩, rfl⟩
          rcases outOfOrder_cons_iff.mp hi with ⟨-, hnot⟩ | ⟨i, rfl, hrest⟩
          · exact absurd hlt hnot
          · refine ⟨i, ⟨hrest, fun j hj => ?_⟩, by omega⟩
            exact Nat.le_of_succ_le_succ (hleast (outOfOrder_cons_iff.mpr (Or.inr ⟨j, rfl, hj⟩)))
      · have hleast : IsLeast {i | OutOfOrder (before :: g :: rest) i} 1 := by
          refine ⟨outOfOrder_cons_iff.mpr (Or.inl ⟨rfl, hlt⟩), ?_⟩
          rintro _ ⟨i, -, -, rfl, -⟩
          exact Nat.le_add_left 1 i
        rw [if_neg hlt, Option.some.injEq]
        constructor
        · rintro rfl
          exact ⟨1, hleast, rfl⟩
        · rintro ⟨i, hi, rfl⟩
          rw [hi.unique hleast]

theorem exists_make_eq_ok_iff {identifier : String} {regimes : List Regime} :
    (∃ z, make identifier regimes = .ok z) ↔
      regimes ≠ [] ∧ regimes.Pairwise fun a b => a.start < b.start := by
  constructor
  · rintro ⟨z, hz⟩
    obtain ⟨-, rfl, hsorted⟩ := make_eq_ok_iff.mp hz
    exact ⟨nofun, firstDisorder?_eq_none_iff.mp hsorted⟩
  · rintro ⟨hne, hsorted⟩
    obtain ⟨first, later, rfl⟩ := List.exists_cons_of_ne_nil hne
    exact ⟨⟨identifier, first, later⟩,
      make_eq_ok_iff.mpr ⟨rfl, rfl, firstDisorder?_eq_none_iff.mpr hsorted⟩⟩

theorem make_eq_error_iff {identifier : String} {regimes : List Regime} {e : ZoneError} :
    make identifier regimes = .error e ↔
      regimes = [] ∧ e = .malformed identifier .noRegimes ∨
        ∃ index, IsLeast {i | OutOfOrder regimes i} index ∧
          e = .malformed identifier (.notAscending index) := by
  cases regimes with
  | nil =>
      have hnone : ∀ i, ¬OutOfOrder [] i := by
        rintro _ ⟨i, a, b, -, ha, -⟩
        cases ha
      constructor
      · intro h
        cases h
        exact Or.inl ⟨rfl, rfl⟩
      · rintro (⟨-, rfl⟩ | ⟨index, hleast, -⟩)
        · rfl
        · exact absurd hleast.1 (hnone index)
  | cons first later =>
      have hsearch (k : Nat) : firstDisorder? first later 1 = some k ↔
          IsLeast {i | OutOfOrder (first :: later) i} k := by
        rw [← Nat.zero_add 1, firstDisorder?_eq_some_iff]
        simp only [Nat.zero_add, exists_eq_right']
      constructor
      · intro h
        rw [make] at h
        split at h
        next index hindex =>
          cases h
          exact Or.inr ⟨index, (hsearch index).mp hindex, rfl⟩
        next => cases h
      · rintro (⟨h, -⟩ | ⟨index, hleast, rfl⟩)
        · cases h
        · simp only [make, (hsearch index).mpr hleast]

/-! ## The invariant -/

/-- What holds of every zone. Only the first regime may start at the beginning of time, and the
distance from UTC that is kept is the greatest of those of the offsets. -/
structure Invariant (z : Zone) : Prop where
  nonempty : 1 ≤ z.regimes.length
  ascending : ∀ (i : Nat) (before g : Regime), z.regimes[i]? = some before →
    z.regimes[i + 1]? = some g → before.start < g.start
  start : ∀ (i : Nat) (g : Regime), z.regimes[i]? = some g →
    g.start.Valid ∨ i = 0 ∧ g.start = Instant.beginning
  offsets : ∀ g ∈ z.regimes, g.standard.minutes.natAbs < 1440 ∧ g.total.minutes.natAbs < 1440
  widest : IsGreatest {ms : Int | ∃ g ∈ z.regimes, ms = g.total.ms.natAbs} z.widestMs
  abbreviation : ∀ g ∈ z.regimes,
    g.abbreviation.utf8ByteSize ≤ 8 ∧ ∀ c ∈ g.abbreviation.toList, c.toNat < 128

/-- The search for the greatest distance begins with 0, which is only found if it is one. -/
theorem isGreatest_widestMs (z : Zone) :
    IsGreatest {ms : Int | ∃ g ∈ z.regimes, ms = g.total.ms.natAbs} z.widestMs := by
  obtain ⟨hmem, hle⟩ := z.widestMs_mem
  refine ⟨?_, ?_⟩
  · rcases List.mem_cons.mp hmem with hzero | hmem
    · have hfirst := total_mem_widest (z := z) List.mem_cons_self
      rw [hzero] at hfirst
      exact ⟨z.first, List.mem_cons_self, by omega⟩
    · obtain ⟨g, hg, heq⟩ := List.mem_map.mp hmem
      exact ⟨g, hg, heq.symm⟩
  · rintro _ ⟨g, hg, rfl⟩
    exact hle _ (List.mem_cons_of_mem _ (List.mem_map_of_mem hg))

theorem WellFormed.invariant {z : Zone} (hz : z.WellFormed) : z.Invariant where
  nonempty := Nat.le_add_left 1 _
  ascending := fun _ _ _ hbefore hg => hz.start_lt_start hbefore hg
  start := by
    intro i g hg
    cases i with
    | zero =>
        rcases (hz.regimes g (List.mem_of_getElem? hg)).start with h | h
        · exact Or.inr ⟨rfl, h⟩
        · exact Or.inl h
    | succ i => exact Or.inl (hz.start_valid (List.mem_of_getElem? hg))
  offsets := fun g hg =>
    ⟨Offset.withinDay_iff.mp (hz.regimes g hg).standard,
      Offset.withinDay_iff.mp (hz.regimes g hg).total⟩
  widest := z.isGreatest_widestMs
  abbreviation := fun g hg => (hz.regimes g hg).abbreviation.bytes

end Zone

/-! ## Tables -/

theorem HistoryRecord.accepted_of_toZone {e : HistoryRecord} {z : Zone} (h : e.toZone = .ok z) :
    z.Accepted := by
  obtain ⟨gs, hgs, hz⟩ := bind_eq_ok_iff.mp h
  refine ⟨_, gs, fun g hg => ?_, hz⟩
  obtain ⟨r, -, hr⟩ := exists_of_mem_mapM hgs g hg
  exact ⟨_, _, _, _, hr⟩

namespace Load

theorem wellFormed_ofSource {text : String} {l : Load} (h : ofSource text = .ok l) :
    l.table.WellFormed := by
  obtain ⟨d, -, rfl⟩ := ofSource_eq_ok_iff.mp h
  refine wellFormed_build fun p hp z hz => ?_
  obtain ⟨b, -, rfl⟩ := List.mem_map.mp hp
  exact Source.ZoneBlock.accepted_of_toZone hz

theorem wellFormed_ofJson {text : String} {l : Load} (h : ofJson text = .ok l) :
    l.table.WellFormed := by
  obtain ⟨r, -, rfl⟩ := ofJson_eq_ok_iff.mp h
  refine wellFormed_build fun p hp z hz => ?_
  obtain ⟨e, -, rfl⟩ := List.mem_map.mp hp
  exact HistoryRecord.accepted_of_toZone hz

end Load

namespace Table

/-- The table can come about: empty or loaded from a text, and then by inserting accepted zones and
entering aliases. -/
inductive Built : Table → Prop
  | empty : Built empty
  | source {text : String} {l : Load} : Load.ofSource text = .ok l → Built l.table
  | json {text : String} {l : Load} : Load.ofJson text = .ok l → Built l.table
  | insert {t t' : Table} {z : Zone} : Built t → z.Accepted → t.insert z = .ok t' → Built t'
  | link {t t' : Table} {name target : String} : Built t → t.link name target = .ok t' → Built t'

theorem Built.wellFormed {t : Table} (h : t.Built) : t.WellFormed := by
  induction h with
  | empty => exact wellFormed_empty
  | source hload => exact Load.wellFormed_ofSource hload
  | json hload => exact Load.wellFormed_ofJson hload
  | insert _ hz hok ih => exact ih.insert hz hok
  | link _ hok ih => exact ih.link hok

end Table

/-- Every zone of every table keeps the invariant, in whatever way it got there. A zone can be made
of any regimes that are there and ascend strictly, and else the error is that there are none, or the
first index at which they do not. And a regime is judged on the sum of its amounts as it is. -/
theorem zones_keep_invariant :
    (∀ t : Table, t.Built → ∀ z ∈ t.zones, z.Invariant) ∧
    (∀ identifier regimes,
      ((∃ z, Zone.make identifier regimes = .ok z) ↔
        regimes ≠ [] ∧ regimes.Pairwise fun a b => a.start < b.start) ∧
      (∀ z, Zone.make identifier regimes = .ok z →
        z.identifier = identifier ∧ z.regimes = regimes) ∧
      ∀ e, Zone.make identifier regimes = .error e ↔
        regimes = [] ∧ e = .malformed identifier .noRegimes ∨
          ∃ index, IsLeast {i | Zone.OutOfOrder regimes i} index ∧
            e = .malformed identifier (.notAscending index)) ∧
    ∀ start standard saving abbreviation, start = Instant.beginning ∨ start.Valid →
      ((∃ g, Regime.make start ⟨standard⟩ (saving.map Offset.mk) abbreviation = .ok g) ↔
        standard.natAbs < 1440 ∧ (Regime.sumOf standard saving).natAbs < 1440 ∧
          IsAbbreviation abbreviation) ∧
      ∀ m, Regime.make start ⟨standard⟩ (saving.map Offset.mk) abbreviation = .error (.offset m) ↔
        1440 ≤ standard.natAbs ∧ m = standard ∨
          standard.natAbs < 1440 ∧ 1440 ≤ (Regime.sumOf standard saving).natAbs ∧
            m = Regime.sumOf standard saving := by
  refine ⟨fun t ht z hz => ?_, fun identifier regimes =>
    ⟨Zone.exists_make_eq_ok_iff, fun z hz => ?_, fun e => Zone.make_eq_error_iff⟩,
    fun start standard saving abbreviation hstart => ?_⟩
  · exact (Zone.accepted_iff_wellFormed.mp (ht.wellFormed.accepted z hz)).invariant
  · obtain ⟨hidentifier, hregimes, -⟩ := Zone.make_eq_ok_iff.mp hz
    exact ⟨hidentifier, hregimes⟩
  · exact ⟨Regime.exists_make_eq_ok_iff hstart, fun m => Regime.make_eq_error_offset_iff hstart⟩

/-- A table in JSON whose second zone adds the largest amount of 32 bits to an offset of almost a
day, and regimes that are out of order twice. -/
theorem amounts_past_32_bits_are_refused :
    let json := "\x7b\"zones\": [[\"A\", [[null, 60, null, \"CET\"], [0, 60, 60, \"CEST\"]]], " ++
      "[\"B\", [[null, 1439, 2147483647, \"X\"]]]]\x7d"
    let standard : Regime := ⟨Instant.beginning, ⟨60⟩, none, "CET"⟩
    let summer : Regime := ⟨⟨0⟩, ⟨60⟩, some ⟨60⟩, "CEST"⟩
    let z : Zone := ⟨"A", standard, [summer]⟩
    let regimes := [standard, summer, summer, standard]
    Load.ofJson json = .ok ⟨⟨[z], []⟩, [("B", .offset 2147485086)]⟩ ∧ z.Invariant ∧
      Zone.make "C" regimes = .error (.malformed "C" (.notAscending 2)) ∧
      IsLeast {i | Zone.OutOfOrder regimes i} 2 ∧
      Regime.make Instant.beginning ⟨1439⟩ (some ⟨2147483647⟩) "X" =
        .error (.offset 2147485086) := by
  intro json standard summer z regimes
  have hload : Load.ofJson json = .ok ⟨⟨[z], []⟩, [("B", .offset 2147485086)]⟩ := by
    decide +kernel
  have hmake : Zone.make "C" regimes = .error (.malformed "C" (.notAscending 2)) := by decide
  obtain ⟨hinvariant, horder, hamounts⟩ := zones_keep_invariant
  obtain ⟨-, -, herror⟩ := horder "C" regimes
  have hleast : IsLeast {i | Zone.OutOfOrder regimes i} 2 := by
    rcases (herror _).mp hmake with ⟨hnil, -⟩ | ⟨index, hleast, heq⟩
    · exact absurd hnil (List.cons_ne_nil _ _)
    · cases heq
      exact hleast
  obtain ⟨-, hoffset⟩ := hamounts Instant.beginning 1439 (some 2147483647) "X" (Or.inl rfl)
  refine ⟨hload, hinvariant _ (Table.Built.json hload) z List.mem_cons_self, hmake, hleast, ?_⟩
  exact (hoffset 2147485086).mpr (Or.inr ⟨by decide, by decide, by decide⟩)

end ZoneHistory
