import ZoneHistory.Batch
import ZoneHistory.Proofs.Calendar.Weeks
import ZoneHistory.Proofs.Checks
import ZoneHistory.Proofs.Table.Invariant

/-!
# Which claim files make batches

What the fields of a record have to be is listed in the order in which it is checked
(`ClaimRecord.requirements`): those of the reading, then those of the UTC reading, then
the offset. A file makes a batch if all requirements of all its records hold, and the
batch then has the fields of the records as they are. If not, the problem names the first
record that is not sound and the first of its requirements that does not hold
(`ClaimFile.toBatch_takes_all_or_none`).

The offset of a record is what its hours and minutes make together, on the side of UTC on
which the hours are. Only minutes west of UTC with hours east of it are taken from these
(`OffsetRecord.worth`), and so a record may write more than a day and be sound
(`ClaimFile.takes_twenty_five_hours`).
-/

namespace ZoneHistory

open Calendar

/-! ## Readings -/

theorem Calendar.Date.checks_make (year : Int) (month day : Nat) :
    Checks [⟨-271821 ≤ year ∧ year ≤ 275760, .year⟩, ⟨1 ≤ month ∧ month ≤ 12, .month⟩,
        ⟨1 ≤ day ∧ day ≤ (0 :: monthLengths year).getD month 0, .day⟩]
      (Date.make year month day) ⟨year, month, day⟩ := by
  rw [← daysInMonth_eq_getD]
  exact .guard Iff.rfl fun _ => .guard Iff.rfl fun _ => .guard Iff.rfl fun _ => checks_return _

theorem TimeOfDay.checks_make (hour minute second millisecond : Nat) :
    Checks [⟨hour < 24 ∧ minute < 60 ∧ second < 60 ∧ millisecond < 1000, .time⟩]
      (TimeOfDay.make hour minute second millisecond) ⟨hour, minute, second, millisecond⟩ := by
  refine checks_if ?_ _ _
  simp only [Valid]
  omega

namespace FieldsRecord

def date (f : FieldsRecord) : Date :=
  ⟨f.year, f.month, f.day⟩

def time (f : FieldsRecord) : TimeOfDay :=
  ⟨f.hour, f.minute, f.second, f.millisecond⟩

/-- The fields are those of a date and of a time. -/
def fieldRequirements (f : FieldsRecord) : List (Requirement FieldError) :=
  [⟨-271821 ≤ f.year ∧ f.year ≤ 275760, .year⟩,
    ⟨1 ≤ f.month ∧ f.month ≤ 12, .month⟩,
    ⟨1 ≤ f.day ∧ f.day ≤ (0 :: monthLengths f.year).getD f.month 0, .day⟩,
    ⟨f.hour < 24 ∧ f.minute < 60 ∧ f.second < 60 ∧ f.millisecond < 1000, .time⟩]

/-- A weekday, if there is one, is that on which the date falls, counted from the Thursday of
1970-01-01. -/
def weekdayRequirements (f : FieldsRecord) : List (Requirement FieldError) :=
  match f.weekday with
  | some w => [⟨f.date.FallsOn w, .weekday f.date f.date.weekday w⟩]
  | none => []

def requirements (f : FieldsRecord) : List (Requirement FieldError) :=
  f.fieldRequirements ++ f.weekdayRequirements

theorem checks_make (f : FieldsRecord) : Checks f.fieldRequirements
    (Reading.make f.year f.month f.day f.hour f.minute f.second f.millisecond)
    ⟨f.date, f.time⟩ :=
  (Date.checks_make f.year f.month f.day).bind fun _ =>
    (TimeOfDay.checks_make f.hour f.minute f.second f.millisecond).bind fun _ => checks_return _

theorem valid_date {f : FieldsRecord} (h : ∀ r ∈ f.fieldRequirements, r.Holds) : f.date.Valid :=
  (Reading.make_eq_ok_iff.mp (f.checks_make.ok h)).2.1

theorem checks_toReading (f : FieldsRecord) :
    Checks f.requirements f.toReading ⟨f.date, f.time⟩ := by
  refine f.checks_make.bind fun hfields => ?_
  rw [weekdayRequirements]
  cases f.weekday with
  | none => exact checks_return _
  | some w => exact checks_if (valid_date hfields).fallsOn_iff _ _

/-- The weekday that an error names is the right one. -/
theorem fallsOn_of_firstUnmet {f : FieldsRecord} {d : Date} {actual claimed : Weekday}
    (h : FirstUnmet f.requirements (.weekday d actual claimed)) : d.FallsOn actual := by
  rcases firstUnmet_append_iff.mp h with h | ⟨hfields, h⟩
  · simp [fieldRequirements, firstUnmet_cons_iff, not_firstUnmet_nil] at h
  · rw [weekdayRequirements] at h
    cases hweekday : f.weekday with
    | none =>
        rw [hweekday] at h
        exact absurd h not_firstUnmet_nil
    | some w =>
        rw [hweekday] at h
        rcases firstUnmet_cons_iff.mp h with ⟨-, herror⟩ | ⟨-, h⟩
        · cases herror
          exact (valid_date hfields).fallsOn_weekday
        · exact absurd h not_firstUnmet_nil

end FieldsRecord

/-! ## Offsets -/

namespace OffsetRecord

/-- There are hours east of UTC and minutes west of it. -/
def Opposed (r : OffsetRecord) : Prop :=
  0 < r.hours ∧ r.minutes < 0

instance (r : OffsetRecord) : Decidable r.Opposed :=
  inferInstanceAs (Decidable (_ ∧ _))

/-- The minutes that the record writes, whatever their signs. -/
def size (r : OffsetRecord) : Nat :=
  r.hours.natAbs * 60 + r.minutes.natAbs

/-- The minutes from UTC. They are on the side of the hours, or on their own if there are no hours.
Opposed minutes are taken from the hours. -/
def worth (r : OffsetRecord) : Int :=
  if r.hours = 0 then r.minutes
  else if r.Opposed then 60 * r.hours + r.minutes
  else r.hours.sign * r.size

variable {r : OffsetRecord}

theorem worth_of_no_hours (h : r.hours = 0) : r.worth = r.minutes :=
  if_pos h

theorem worth_of_opposed (h : r.Opposed) : r.worth = 60 * r.hours + r.minutes := by
  rw [worth, if_neg h.1.ne', if_pos h]

theorem worth_of_not_opposed (hhours : r.hours ≠ 0) (h : ¬r.Opposed) :
    r.worth = r.hours.sign * r.size := by
  rw [worth, if_neg hhours, if_neg h]

theorem total_eq_worth (r : OffsetRecord) : r.total = r.worth := by
  rcases lt_trichotomy r.hours 0 with hwest | hnone | heast
  · have hopposed : ¬r.Opposed := fun h => hwest.not_gt h.1
    rw [worth_of_not_opposed hwest.ne hopposed, total, if_pos hwest,
      Int.sign_eq_neg_one_of_neg hwest, size]
    omega
  · rw [worth_of_no_hours hnone, total, hnone]
    simp
  · rw [total, if_neg heast.not_gt]
    by_cases hopposed : r.Opposed
    · rw [worth_of_opposed hopposed, mul_comm]
    · have hminutes : 0 ≤ r.minutes := Int.not_lt.mp fun hneg => hopposed ⟨heast, hneg⟩
      rw [worth_of_not_opposed heast.ne' hopposed, Int.sign_eq_one_of_pos heast, size]
      omega

theorem checks_toOffset (r : OffsetRecord) :
    Checks [⟨r.worth.natAbs < 1440, .offset⟩] r.toOffset ⟨r.worth⟩ := by
  rw [← total_eq_worth]
  exact checks_if Offset.withinDay_iff.symm _ _

end OffsetRecord

/-! ## Records -/

namespace ClaimRecord

def requirements (c : ClaimRecord) : List (Requirement FieldError) :=
  c.reading.requirements ++ (c.utc.requirements ++ [⟨c.standard.worth.natAbs < 1440, .offset⟩])

/-- The claim with the fields of the record, whether they are those of readings or not. -/
def claim (c : ClaimRecord) : Claim :=
  ⟨⟨c.reading.date, c.reading.time⟩, ⟨c.utc.date, c.utc.time⟩, ⟨c.standard.worth⟩, c.annotations⟩

theorem checks_toClaim (c : ClaimRecord) : Checks c.requirements c.toClaim c.claim := by
  rw [requirements, ← List.append_nil [_]]
  exact c.reading.checks_toReading.bind fun _ => c.utc.checks_toReading.bind fun _ =>
    c.standard.checks_toOffset.bind fun _ => checks_return _

/-- All that is asked of a record is so. -/
def Sound (c : ClaimRecord) : Prop :=
  ∀ r ∈ c.requirements, r.Holds

theorem fallsOn_of_firstUnmet {c : ClaimRecord} {d : Date} {actual claimed : Weekday}
    (h : FirstUnmet c.requirements (.weekday d actual claimed)) : d.FallsOn actual := by
  rcases firstUnmet_append_iff.mp h with h | ⟨-, h⟩
  · exact FieldsRecord.fallsOn_of_firstUnmet h
  · rcases firstUnmet_append_iff.mp h with h | ⟨-, h⟩
    · exact FieldsRecord.fallsOn_of_firstUnmet h
    · simp [firstUnmet_cons_iff, not_firstUnmet_nil] at h

end ClaimRecord

/-! ## Files -/

theorem claimsFrom_of_sound (zone : String) {records : List ClaimRecord}
    (h : ∀ c ∈ records, c.Sound) (index : Nat) :
    claimsFrom zone records index = .ok (records.map ClaimRecord.claim) := by
  induction records generalizing index with
  | nil => rfl
  | cons c records ih =>
      obtain ⟨hc, hrecords⟩ := List.forall_mem_cons.mp h
      rw [claimsFrom, c.checks_toClaim.ok hc]
      dsimp only
      rw [ih hrecords]
      rfl

theorem claimsFrom_of_firstUnmet (zone : String) {front : List ClaimRecord} {c : ClaimRecord}
    {e : FieldError} (h : ∀ c ∈ front, c.Sound) (hc : FirstUnmet c.requirements e)
    (back : List ClaimRecord) (index : Nat) :
    claimsFrom zone (front ++ c :: back) index = .error (.claim zone (index + front.length) e) := by
  induction front generalizing index with
  | nil =>
      rw [List.nil_append, claimsFrom, c.checks_toClaim.error hc]
      rfl
  | cons c' front ih =>
      obtain ⟨hc', hfront⟩ := List.forall_mem_cons.mp h
      rw [List.cons_append, claimsFrom, c'.checks_toClaim.ok hc']
      dsimp only
      rw [ih hfront, List.length_cons, Nat.add_assoc, Nat.add_comm 1]
      rfl

/-- Records are all sound, or there is a first one that is not. -/
theorem sound_or_firstUnmet (records : List ClaimRecord) :
    (∀ c ∈ records, c.Sound) ∨ ∃ front c back e, records = front ++ c :: back ∧
      (∀ c' ∈ front, c'.Sound) ∧ FirstUnmet c.requirements e := by
  induction records with
  | nil => exact Or.inl (List.forall_mem_nil _)
  | cons c records ih =>
      rcases met_or_firstUnmet c.requirements with hc | ⟨e, hc⟩
      · rcases ih with hrecords | ⟨front, c', back, e, rfl, hfront, hc'⟩
        · exact Or.inl (List.forall_mem_cons.mpr ⟨hc, hrecords⟩)
        · exact Or.inr ⟨c :: front, c', back, e, rfl, List.forall_mem_cons.mpr ⟨hc, hfront⟩, hc'⟩
      · exact Or.inr ⟨[], c, records, e, rfl, List.forall_mem_nil _, hc⟩

namespace ClaimFile

theorem toBatch_of_sound {f : ClaimFile} (h : ∀ c ∈ f.claims, c.Sound) :
    f.toBatch = .ok ⟨f.zone, f.claims.map ClaimRecord.claim⟩ := by
  rw [toBatch, claimsFrom_of_sound f.zone h]
  rfl

theorem toBatch_of_firstUnmet {f : ClaimFile} {front back : List ClaimRecord} {c : ClaimRecord}
    {e : FieldError} (hclaims : f.claims = front ++ c :: back) (hfront : ∀ c' ∈ front, c'.Sound)
    (hc : FirstUnmet c.requirements e) : f.toBatch = .error (.claim f.zone front.length e) := by
  rw [toBatch, hclaims, claimsFrom_of_firstUnmet f.zone hfront hc, Nat.zero_add]
  rfl

/-- A file makes a batch if and only if all its records are sound, with the fields of each record in
their place. If not, no claims come of it, and the message names the zone, the first record that is
not sound and the first thing that is wrong with it. -/
theorem toBatch_takes_all_or_none (f : ClaimFile) :
    (∀ b, f.toBatch = .ok b ↔
      (∀ c ∈ f.claims, c.Sound) ∧ b = ⟨f.zone, f.claims.map ClaimRecord.claim⟩) ∧
    ∀ p, f.toBatch = .error p ↔ ∃ front c back e,
      f.claims = front ++ c :: back ∧ (∀ c' ∈ front, c'.Sound) ∧ FirstUnmet c.requirements e ∧
      p = .claim f.zone front.length e ∧ p.kind = .parse ∧
      p.message = f.zone ++ " vector " ++ Text.natural front.length ++ ": " ++ e.message ∧
      ∀ d actual claimed, e = .weekday d actual claimed → d.FallsOn actual := by
  rcases sound_or_firstUnmet f.claims with hsound | ⟨front, c, back, e, hclaims, hfront, hc⟩
  · have hok := toBatch_of_sound hsound
    refine ⟨fun b => ?_, fun p => ⟨fun hp => ?_, ?_⟩⟩
    · rw [hok, Except.ok.injEq, and_iff_right hsound, eq_comm]
    · cases hok.symm.trans hp
    · rintro ⟨front, c, back, e, hclaims, hfront, hc, -⟩
      cases hok.symm.trans (toBatch_of_firstUnmet hclaims hfront hc)
  · have herror := toBatch_of_firstUnmet hclaims hfront hc
    refine ⟨fun b => ⟨fun hb => ?_, ?_⟩, fun p => ⟨fun hp => ?_, ?_⟩⟩
    · cases herror.symm.trans hb
    · rintro ⟨hsound, -⟩
      cases herror.symm.trans (toBatch_of_sound hsound)
    · obtain rfl := Except.error.inj (herror.symm.trans hp)
      refine ⟨front, c, back, e, hclaims, hfront, hc, rfl, rfl, rfl, ?_⟩
      rintro d actual claimed rfl
      exact ClaimRecord.fallsOn_of_firstUnmet hc
    · rintro ⟨front, c, back, e, hclaims, hfront, hc, rfl, -⟩
      exact toBatch_of_firstUnmet hclaims hfront hc

/-- A record by itself makes a batch. In the place after it, one that claims the wrong weekday in
UTC, and only then an offset that is too large, is refused for the weekday, and one that is right
about it is refused for an offset of just a day. -/
theorem wrong_weekday_of_second_record :
    let last : FieldsRecord := ⟨1949, 12, 31, some .saturday, 20, 0, 0, 0⟩
    let aden : ClaimRecord := ⟨last, { last with hour := 17 }, ⟨3, 0⟩, [("era", "LMT")]⟩
    let wrong : ClaimRecord := ⟨last, { last with weekday := some .sunday }, ⟨24, 0⟩, []⟩
    let far : ClaimRecord := ⟨last, last, ⟨-23, 60⟩, []⟩
    let e : FieldError := .weekday ⟨1949, 12, 31⟩ .saturday .sunday
    toBatch ⟨"Asia/Aden", [aden]⟩ = .ok ⟨"Asia/Aden",
      [⟨⟨⟨1949, 12, 31⟩, ⟨20, 0, 0, 0⟩⟩, ⟨⟨1949, 12, 31⟩, ⟨17, 0, 0, 0⟩⟩, ⟨180⟩,
        [("era", "LMT")]⟩]⟩ ∧ aden.Sound ∧
      toBatch ⟨"Asia/Aden", [aden, wrong]⟩ = .error (.claim "Asia/Aden" 1 e) ∧
      (Problem.claim "Asia/Aden" 1 e).message =
        "Asia/Aden vector 1: 1949-12-31 is a Sat, not a Sun." ∧
      FirstUnmet wrong.requirements e ∧ Date.FallsOn ⟨1949, 12, 31⟩ .saturday ∧
      toBatch ⟨"Asia/Aden", [aden, far]⟩ = .error (.claim "Asia/Aden" 1 .offset) ∧
      (Problem.claim "Asia/Aden" 1 .offset).message =
        "Asia/Aden vector 1: Offset must be within 24 hours of UTC." ∧
      FirstUnmet far.requirements .offset := by
  intro last aden wrong far e
  have haden : toBatch ⟨"Asia/Aden", [aden]⟩ = .ok ⟨"Asia/Aden",
      [⟨⟨⟨1949, 12, 31⟩, ⟨20, 0, 0, 0⟩⟩, ⟨⟨1949, 12, 31⟩, ⟨17, 0, 0, 0⟩⟩, ⟨180⟩,
        [("era", "LMT")]⟩]⟩ := by decide +kernel
  have hwrong : toBatch ⟨"Asia/Aden", [aden, wrong]⟩ = .error (.claim "Asia/Aden" 1 e) := by
    decide +kernel
  have hfar : toBatch ⟨"Asia/Aden", [aden, far]⟩ = .error (.claim "Asia/Aden" 1 .offset) := by
    decide +kernel
  obtain ⟨hsound, -⟩ := ((toBatch_takes_all_or_none ⟨"Asia/Aden", [aden]⟩).1 _).mp haden
  -- the record in the second place is the one that is refused
  have hsecond {c : ClaimRecord} {e : FieldError}
      (h : toBatch ⟨"Asia/Aden", [aden, c]⟩ = .error (.claim "Asia/Aden" 1 e)) :
      FirstUnmet c.requirements e ∧
        ∀ d actual claimed, e = .weekday d actual claimed → d.FallsOn actual := by
    obtain ⟨front, c', back, e', hclaims, -, hc, hp, -, -, hweekday⟩ :=
      ((toBatch_takes_all_or_none ⟨"Asia/Aden", [aden, c]⟩).2 _).mp h
    obtain ⟨-, hindex, rfl⟩ := Problem.claim.inj hp
    obtain ⟨first, rfl⟩ := List.length_eq_one_iff.mp hindex.symm
    cases hclaims
    exact ⟨hc, hweekday⟩
  exact ⟨haden, hsound _ List.mem_cons_self, hwrong, by decide +kernel, (hsecond hwrong).1,
    (hsecond hwrong).2 _ _ _ rfl, hfar, by decide +kernel, (hsecond hfar).1⟩

/-- A day to the east and an hour to the west are twenty-five hours as they are written, but no more
than twenty-three of them count. -/
theorem takes_twenty_five_hours :
    let noon : FieldsRecord := ⟨2000, 1, 1, none, 12, 0, 0, 0⟩
    let c : ClaimRecord := ⟨noon, ⟨1999, 12, 31, none, 13, 0, 0, 0⟩, ⟨24, -60⟩, []⟩
    c.standard.size = 1500 ∧ toBatch ⟨"Test/Zone", [c]⟩ = .ok ⟨"Test/Zone",
      [⟨⟨⟨2000, 1, 1⟩, ⟨12, 0, 0, 0⟩⟩, ⟨⟨1999, 12, 31⟩, ⟨13, 0, 0, 0⟩⟩, ⟨1380⟩, []⟩]⟩ := by
  decide +kernel

end ClaimFile

end ZoneHistory
