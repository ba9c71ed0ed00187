import ZoneHistory.Batch
import ZoneHistory.Proofs.Checks
import ZoneHistory.Proofs.Json.Records
import ZoneHistory.Proofs.Json.RoundTrip
import ZoneHistory.Proofs.WallTime

/-!
# Writing a batch and loading it again

Main statement: a batch that was loaded from any text is written as a text that loads as
the same batch (`Batch.ofJson_toJson_of_ofJson`).

What loading checks is just what writing needs (`Claim.Writable`): readings are valid, so
their fields fit the ranges of a reader and the weekday that is written is the one of the
date; the offset lies within a day; and the keys of the annotations ascend. The value that
is written is read back as the records it was written from
(`ClaimFile.ofValue?_toValue_ofBatch`), and these make the claims again
(`ClaimFile.toBatch_ofBatch`).
-/

namespace ZoneHistory

open Json Calendar

/-- The claim has a text that is read back: its parts pass the checks of a reader, and its
annotations have distinct keys in order. -/
structure Claim.Writable (c : Claim) : Prop where
  reading : c.reading.Valid
  utc : c.utc.Valid
  standard : c.standard.WithinDay
  annotations : c.annotations.Ascending

/-! ## Offsets in hours and minutes -/

namespace OffsetRecord

/-- Hours have the sign of the offset. If there are none, the minutes have it. -/
theorem ofOffset_cases (o : Offset) :
    (0 ≤ o.minutes ∧ ofOffset o = ⟨o.minutes / 60, o.minutes % 60⟩) ∨
    ((-60 < o.minutes ∧ o.minutes < 0) ∧ ofOffset o = ⟨0, o.minutes⟩) ∨
    (o.minutes ≤ -60 ∧ ofOffset o = ⟨-(-o.minutes / 60), -o.minutes % 60⟩) := by
  rcases Int.lt_or_le o.minutes 0 with hneg | hpos
  · -- division rounds to zero, so it is that of the opposite
    have hdiv : o.minutes.tdiv 60 = -(-o.minutes / 60) := by
      rw [← Int.tdiv_eq_ediv_of_nonneg (by omega), Int.neg_tdiv, Int.neg_neg]
    have hmod : o.minutes.tmod 60 = -(-o.minutes % 60) := by
      rw [← Int.tmod_eq_emod_of_nonneg (by omega), Int.neg_tmod, Int.neg_neg]
    rw [ofOffset, hdiv, hmod]
    rcases Int.lt_or_le (-60) o.minutes with hhour | hhour
    · refine Or.inr (Or.inl ⟨⟨hhour, hneg⟩, ?_⟩)
      rw [if_pos (by omega), OffsetRecord.mk.injEq]
      omega
    · refine Or.inr (Or.inr ⟨hhour, ?_⟩)
      rw [if_neg (by omega), OffsetRecord.mk.injEq]
      omega
  · refine Or.inl ⟨hpos, ?_⟩
    rw [ofOffset, Int.tdiv_eq_ediv_of_nonneg hpos, Int.tmod_eq_emod_of_nonneg hpos]
    rw [OffsetRecord.mk.injEq]
    split <;> omega

theorem total_ofOffset (o : Offset) : (ofOffset o).total = o.minutes := by
  rcases ofOffset_cases o with ⟨hsign, h⟩ | ⟨hsign, h⟩ | ⟨hsign, h⟩ <;>
  · rw [h, total]
    dsimp only
    split <;> omega

theorem toOffset_ofOffset {o : Offset} (h : o.WithinDay) : (ofOffset o).toOffset = .ok o := by
  rw [toOffset, total_ofOffset]
  exact if_pos h

theorem withinDay_of_toOffset {r : OffsetRecord} {o : Offset} (h : r.toOffset = .ok o) :
    o.WithinDay := by
  rw [toOffset] at h
  split at h
  next hday =>
    cases h
    exact hday
  next => cases h

theorem ofValue?_toValue_ofOffset {o : Offset} (h : o.WithinDay) :
    ofValue? (ofOffset o).toValue = some (ofOffset o) := by
  have hfields := fields?_record [("hours", .int (ofOffset o).hours),
    ("minutes", .int (ofOffset o).minutes)] (by simp)
  obtain ⟨hleast, hgreatest⟩ : -1440 < o.minutes ∧ o.minutes < 1440 := h
  have hsmall (n : Int) (hn : -1440 < n ∧ n < 1440) : (Value.int n).int? .signed32 = some n := by
    refine Value.int?_int (Text.IntegerRange.contains_iff.mpr ?_)
    simp only [Text.IntegerRange.signed32]
    omega
  have hrange : (-1440 < (ofOffset o).hours ∧ (ofOffset o).hours < 1440) ∧
      -1440 < (ofOffset o).minutes ∧ (ofOffset o).minutes < 1440 := by
    rcases ofOffset_cases o with ⟨hsign, h⟩ | ⟨hsign, h⟩ | ⟨hsign, h⟩ <;>
    · rw [h]
      dsimp only
      omega
  have hhours := hsmall _ hrange.1
  have hminutes := hsmall _ hrange.2
  simp only [List.map_cons, List.map_nil] at hfields
  rw [ofValue?, toValue, hfields]
  simp only [bind, Option.bind, pure, hhours, hminutes]

theorem exact_toValue (r : OffsetRecord) : r.toValue.Exact := by
  rw [toValue, exact_record_iff]
  simp only [List.forall_mem_cons]
  exact ⟨trivial, trivial, nofun⟩

end OffsetRecord

/-! ## Fields of readings -/

theorem Calendar.Weekday.ofName?_name (w : Weekday) : ofName? w.name = some w := by
  cases w <;> decide

namespace FieldsRecord

theorem toReading_ofReading {r : Reading} (h : r.Valid) : (ofReading r).toReading = .ok r := by
  have hmake : Reading.make r.date.year r.date.month r.date.day r.time.hour r.time.minute
      r.time.second r.time.millisecond = .ok r := Reading.make_eq_ok_iff.mpr ⟨rfl, h⟩
  have hweekday : r.withWeekday r.weekday = .ok r := if_pos rfl
  exact bind_eq_ok_iff.mpr ⟨r, hmake, hweekday⟩

theorem valid_of_toReading {f : FieldsRecord} {r : Reading} (h : f.toReading = .ok r) :
    r.Valid := by
  obtain ⟨r', hmake, h⟩ := bind_eq_ok_iff.mp h
  have hvalid := (Reading.make_eq_ok_iff.mp hmake).2
  split at h
  next w =>
    rw [Reading.withWeekday] at h
    split at h
    · cases h
      exact hvalid
    · cases h
  next =>
    cases h
    exact hvalid

theorem ofValue?_toValue_ofReading {r : Reading} (h : r.Valid) :
    ofValue? (ofReading r).toValue = some (ofReading r) := by
  have hfields := fields?_record [("year", .int r.date.year), ("month", .int r.date.month),
    ("day", .int r.date.day), ("weekday", .text r.weekday.name), ("hour", .int r.time.hour),
    ("minute", .int r.time.minute), ("second", .int r.time.second),
    ("millisecond", .int r.time.millisecond)] (by simp)
  obtain ⟨⟨hfirst, hlast, -, hmonth, -, hday⟩, hhour, hminute, hsecond, hmillisecond⟩ := h
  have hday := hday.trans (daysInMonth_le _ _)
  have hyear : (Value.int r.date.year).int? .signed32 = some r.date.year := by
    refine Value.int?_int (Text.IntegerRange.contains_iff.mpr ?_)
    simp only [firstYear, lastYear, Text.IntegerRange.signed32] at hfirst hlast ⊢
    omega
  have hsmall (n : Nat) (hn : n ≤ 255) : (Value.int n).nat? .unsigned8 = some n := by
    refine Value.nat?_int (Text.IntegerRange.contains_iff.mpr ?_)
    simp only [Text.IntegerRange.unsigned8]
    omega
  have hmilli : (Value.int r.time.millisecond).nat? .unsigned16 = some r.time.millisecond := by
    refine Value.nat?_int (Text.IntegerRange.contains_iff.mpr ?_)
    simp only [Text.IntegerRange.unsigned16]
    omega
  have hweekday : (Value.text r.weekday.name).orNull? weekdayOf? = some (some r.weekday) :=
    congrArg (Option.map some) (Weekday.ofName?_name r.weekday)
  simp only [List.map_cons, List.map_nil] at hfields
  rw [ofValue?, toValue, ofReading]
  simp only [List.cons_append, List.nil_append]
  rw [hfields]
  simp only [bind, Option.bind, pure, Option.getD_some, hyear, hsmall _ (hmonth.trans (by decide)),
    hsmall _ (hday.trans (by decide)), hweekday, hsmall _ (hhour.trans (by decide)),
    hsmall _ (hminute.trans (by decide)), hsmall _ (hsecond.trans (by decide)), hmilli]

theorem exact_toValue (f : FieldsRecord) : f.toValue.Exact := by
  rw [toValue, exact_record_iff]
  cases f.weekday with
  | none =>
      simp only [List.append_nil, List.forall_mem_append, List.forall_mem_cons]
      exact ⟨⟨trivial, trivial, trivial, nofun⟩, trivial, trivial, trivial, trivial, nofun⟩
  | some w =>
      simp only [List.forall_mem_append, List.forall_mem_cons]
      exact ⟨⟨⟨trivial, trivial, trivial, nofun⟩, trivial, nofun⟩, trivial, trivial, trivial,
        trivial, nofun⟩

end FieldsRecord

/-! ## Claims -/

namespace ClaimRecord

theorem toClaim_ofClaim {c : Claim} (h : c.Writable) : (ofClaim c).toClaim = .ok c := by
  have hreading := FieldsRecord.toReading_ofReading h.reading
  have hutc := FieldsRecord.toReading_ofReading h.utc
  have hstandard := OffsetRecord.toOffset_ofOffset h.standard
  rw [toClaim, ofClaim, hreading, hutc, hstandard]
  rfl

/-- The checks leave the annotations as they are, so these must ascend already. -/
theorem writable_of_toClaim {r : ClaimRecord} (hr : r.annotations.Ascending) {c : Claim}
    (h : r.toClaim = .ok c) : c.Writable := by
  obtain ⟨reading, hreading, h⟩ := bind_eq_ok_iff.mp h
  obtain ⟨utc, hutc, h⟩ := bind_eq_ok_iff.mp h
  obtain ⟨standard, hstandard, h⟩ := bind_eq_ok_iff.mp h
  cases h
  exact ⟨FieldsRecord.valid_of_toReading hreading, FieldsRecord.valid_of_toReading hutc,
    OffsetRecord.withinDay_of_toOffset hstandard, hr⟩

/-- An annotation is written as a text, whatever value it had when it was read. -/
theorem annotation?_text (s : String) : annotation? (.text s) = some s := rfl

theorem ofValue?_toValue_ofClaim {c : Claim} (h : c.Writable) :
    ofValue? (ofClaim c).toValue = some (ofClaim c) := by
  have hreading := FieldsRecord.ofValue?_toValue_ofReading h.reading
  have hutc := FieldsRecord.ofValue?_toValue_ofReading h.utc
  have hstandard := OffsetRecord.ofValue?_toValue_ofOffset h.standard
  have hannotations := Value.dictionary?_record annotation? Value.text annotation?_text
    h.annotations
  rw [ofValue?, toValue, ofClaim]
  dsimp only
  cases hempty : c.annotations.isEmpty with
  | true =>
      have hfields := fields?_record_append [("local", (FieldsRecord.ofReading c.reading).toValue),
        ("utc", (FieldsRecord.ofReading c.utc).toValue),
        ("offset", (OffsetRecord.ofOffset c.standard).toValue)] ["annotations"] (by simp)
      simp only [List.map_cons, List.map_nil, List.cons_append, List.nil_append] at hfields
      rw [if_pos rfl, List.append_nil, hfields, List.isEmpty_iff.mp hempty]
      simp only [bind, Option.bind, pure, hreading, hutc, hstandard]
  | false =>
      have hfields := fields?_record [("local", (FieldsRecord.ofReading c.reading).toValue),
        ("utc", (FieldsRecord.ofReading c.utc).toValue),
        ("offset", (OffsetRecord.ofOffset c.standard).toValue),
        ("annotations", .record (c.annotations.map fun a => (a.1, .text a.2)))] (by simp)
      simp only [List.map_cons, List.map_nil] at hfields
      rw [if_neg nofun, List.cons_append, List.cons_append, List.cons_append, List.nil_append,
        hfields]
      simp only [bind, Option.bind, pure, hreading, hutc, hstandard, hannotations]

theorem ascending_of_ofValue? {v : Value} {r : ClaimRecord} (h : ofValue? v = some r) :
    r.annotations.Ascending := by
  obtain ⟨fields, -, h⟩ := Option.bind_eq_some_iff.mp h
  split at h
  next reading utc standard annotations =>
    obtain ⟨_, -, h⟩ := Option.bind_eq_some_iff.mp h
    obtain ⟨_, -, h⟩ := Option.bind_eq_some_iff.mp h
    obtain ⟨_, -, h⟩ := Option.bind_eq_some_iff.mp h
    obtain ⟨_, -, h⟩ := Option.bind_eq_some_iff.mp h
    obtain ⟨_, -, h⟩ := Option.bind_eq_some_iff.mp h
    obtain ⟨_, -, h⟩ := Option.bind_eq_some_iff.mp h
    dsimp only at h
    split at h
    · cases h
      exact .nil
    · obtain ⟨annotations, hannotations, h⟩ := Option.bind_eq_some_iff.mp h
      cases h
      exact Value.ascending_of_dictionary? hannotations
  next => cases h

theorem exact_toValue (r : ClaimRecord) : r.toValue.Exact := by
  have hannotations : ∀ m ∈ (if r.annotations.isEmpty then []
      else [("annotations", Value.record (r.annotations.map fun a => (a.1, .text a.2)))]),
      m.2.Exact := by
    split
    · nofun
    · refine List.forall_mem_singleton.mpr ?_
      exact exact_record_iff.mpr (List.forall_mem_map.mpr fun _ _ => trivial)
  rw [toValue, exact_record_iff]
  simp only [List.forall_mem_append, List.forall_mem_cons]
  exact ⟨⟨r.reading.exact_toValue, r.utc.exact_toValue, r.standard.exact_toValue, nofun⟩,
    hannotations⟩

end ClaimRecord

/-- The claims of a batch are made from its records in order. -/
theorem claimsFrom_map_ofClaim (zone : String) {claims : List Claim}
    (h : ∀ c ∈ claims, c.Writable) (index : Nat) :
    claimsFrom zone (claims.map .ofClaim) index = .ok claims := by
  induction claims generalizing index with
  | nil => rfl
  | cons c claims ih =>
      obtain ⟨hc, hclaims⟩ := List.forall_mem_cons.mp h
      rw [List.map_cons, claimsFrom, ClaimRecord.toClaim_ofClaim hc]
      dsimp only
      rw [ih hclaims]
      rfl

theorem exists_of_mem_claimsFrom {zone : String} {records : List ClaimRecord} {index : Nat}
    {claims : List Claim} (h : claimsFrom zone records index = .ok claims) :
    ∀ c ∈ claims, ∃ r ∈ records, r.toClaim = .ok c := by
  induction records generalizing index claims with
  | nil =>
      cases h
      nofun
  | cons r records ih =>
      rw [claimsFrom] at h
      split at h
      · cases h
      next c hc =>
        cases hrest : claimsFrom zone records (index + 1) with
        | error e => rw [hrest] at h; cases h
        | ok rest =>
            rw [hrest] at h
            cases h
            refine List.forall_mem_cons.mpr ⟨⟨r, List.mem_cons_self, hc⟩, fun c' hc' => ?_⟩
            obtain ⟨r', hr', h⟩ := ih hrest c' hc'
            exact ⟨r', List.mem_cons_of_mem _ hr', h⟩

/-! ## Batches -/

namespace ClaimFile

theorem toBatch_ofBatch {b : Batch} (h : ∀ c ∈ b.claims, c.Writable) :
    (ofBatch b).toBatch = .ok b := by
  rw [toBatch, ofBatch, claimsFrom_map_ofClaim b.zone h]
  rfl

theorem ofValue?_toValue_ofBatch {b : Batch} (h : ∀ c ∈ b.claims, c.Writable) :
    ofValue? (ofBatch b).toValue = some (ofBatch b) := by
  have hfields := fields?_record [("zone", .text b.zone),
    ("vectors", .array ((ofBatch b).claims.map ClaimRecord.toValue))] (by simp)
  have htext : (Value.text b.zone).text? = some b.zone := rfl
  have hclaims := Value.items?_map ClaimRecord.ofValue? ClaimRecord.toValue
    (l := (ofBatch b).claims) fun r hr => by
      obtain ⟨c, hc, rfl⟩ := List.mem_map.mp hr
      exact ClaimRecord.ofValue?_toValue_ofClaim (h c hc)
  simp only [List.map_cons, List.map_nil] at hfields
  rw [ofValue?, toValue]
  show ((Value.record [("zone", .text b.zone), _]).fields? _ >>= _) = _
  rw [hfields]
  simp only [bind, Option.bind, pure, htext, hclaims]
  rfl

theorem exact_toValue (f : ClaimFile) : f.toValue.Exact := by
  rw [toValue, exact_record_iff]
  simp only [List.forall_mem_cons]
  exact ⟨trivial, exact_array_map ClaimRecord.exact_toValue _, nofun⟩

theorem ascending_of_ofValue? {v : Value} {f : ClaimFile} (h : ofValue? v = some f) :
    ∀ r ∈ f.claims, r.annotations.Ascending := by
  obtain ⟨fields, -, h⟩ := Option.bind_eq_some_iff.mp h
  split at h
  next zone claims =>
    obtain ⟨_, -, h⟩ := Option.bind_eq_some_iff.mp h
    obtain ⟨_, -, h⟩ := Option.bind_eq_some_iff.mp h
    obtain ⟨_, -, h⟩ := Option.bind_eq_some_iff.mp h
    obtain ⟨claims, hclaims, h⟩ := Option.bind_eq_some_iff.mp h
    cases h
    intro r hr
    obtain ⟨w, hw⟩ := Value.exists_of_mem_items? hclaims r hr
    exact ClaimRecord.ascending_of_ofValue? hw
  next => cases h

end ClaimFile

namespace Batch

theorem ofJson_eq_ok_iff {text : String} {b : Batch} :
    ofJson text = .ok b ↔
      ∃ file, (Value.read? text).bind ClaimFile.ofValue? = some file ∧ file.toBatch = .ok b := by
  rw [ofJson]
  cases (Value.read? text).bind ClaimFile.ofValue? with
  | none => simp
  | some file => simp

theorem writable_of_ofJson {text : String} {b : Batch} (h : ofJson text = .ok b) :
    ∀ c ∈ b.claims, c.Writable := by
  obtain ⟨file, hread, hbatch⟩ := ofJson_eq_ok_iff.mp h
  obtain ⟨v, -, hfile⟩ := Option.bind_eq_some_iff.mp hread
  rw [ClaimFile.toBatch] at hbatch
  cases hclaims : claimsFrom file.zone file.claims 0 with
  | error e => rw [hclaims] at hbatch; cases hbatch
  | ok claims =>
      rw [hclaims] at hbatch
      cases hbatch
      intro c hc
      obtain ⟨r, hr, hok⟩ := exists_of_mem_claimsFrom hclaims c hc
      exact ClaimRecord.writable_of_toClaim (ClaimFile.ascending_of_ofValue? hfile r hr) hok

theorem ofJson_toJson_of_writable {b : Batch} (h : ∀ c ∈ b.claims, c.Writable) :
    ofJson b.toJson = .ok b := by
  have hread : Value.read? b.toJson = some (ClaimFile.ofBatch b).toValue :=
    read?_pretty (ClaimFile.exact_toValue _)
  refine ofJson_eq_ok_iff.mpr ⟨ClaimFile.ofBatch b, ?_, ClaimFile.toBatch_ofBatch h⟩
  rw [hread]
  exact ClaimFile.ofValue?_toValue_ofBatch h

/-- Whatever text a batch was loaded from, the text that it is written as loads as the same
batch. -/
theorem ofJson_toJson_of_ofJson {text : String} {b : Batch} (h : ofJson text = .ok b) :
    ofJson b.toJson = .ok b :=
  ofJson_toJson_of_writable (writable_of_ofJson h)

/-- Half an hour west of UTC, where only the minutes show the sign. Of the annotations one is an
array and one has a quote in its key; the second claim has none. -/
theorem ofJson_toJson_half_an_hour_west :
    let text := "[\"Ж\",[[[1917,12,31,null,23,30,0,7],[1918,1,1,\"Tue\",0],[0,-30]," ++
      "\x7b\"note\":[7,null],\"\\u0022\":\"x\"\x7d]," ++
      "[[2000,2,29,null,12],[2000,2,29,null,13,30],[-1,30]]]]"
    let b : Batch := ⟨"Ж", [
      ⟨⟨⟨1917, 12, 31⟩, ⟨23, 30, 0, 7⟩⟩, ⟨⟨1918, 1, 1⟩, .midnight⟩, ⟨-30⟩,
        [("\"", "x"), ("note", "[7,null]")]⟩,
      ⟨⟨⟨2000, 2, 29⟩, ⟨12, 0, 0, 0⟩⟩, ⟨⟨2000, 2, 29⟩, ⟨13, 30, 0, 0⟩⟩, ⟨-90⟩, []⟩]⟩
    ofJson text = .ok b ∧ ofJson b.toJson = .ok b := by
  intro text b
  have h : ofJson text = .ok b := by decide +kernel
  exact ⟨h, ofJson_toJson_of_ofJson h⟩

end Batch

end ZoneHistory
