import ZoneHistory.Proofs.Source.Documents

/-!
# Writing documents

One way to write a document: all zones and then all links, each line without a comment,
columns with one space between any two, and every part of an amount and of an end given.
A well formed document is written in its `source` (`written_source`), so being well
formed is exactly what it takes for a document to be read from some text.
-/

namespace ZoneHistory.Source

open Calendar Text

/-! ## Characters of columns -/

/-- The character may stand in a column: it is no blank and does not begin a comment. -/
def IsColumnChar (c : Char) : Prop :=
  isBlank c = false ∧ c ≠ '#'

instance (c : Char) : Decidable (IsColumnChar c) := by
  unfold IsColumnChar; infer_instance

def IsColumn (cs : List Char) : Prop :=
  cs ≠ [] ∧ ∀ c ∈ cs, IsColumnChar c

instance (cs : List Char) : Decidable (IsColumn cs) :=
  decidable_of_iff (cs ≠ [] ∧ (cs.all fun c => decide (IsColumnChar c)) = true) (by simp [IsColumn])

theorem isColumn_iff {cs : List Char} : IsColumn cs ↔ IsWord isBlank cs ∧ '#' ∉ cs := by
  constructor
  · rintro ⟨hne, h⟩
    exact ⟨⟨hne, fun c hc => (h c hc).1⟩, fun hc => (h _ hc).2 rfl⟩
  · rintro ⟨⟨hne, h⟩, hc⟩
    exact ⟨hne, fun c hmem => ⟨h c hmem, fun heq => hc (heq ▸ hmem)⟩⟩

theorem isColumnChar_of_isDigit {c : Char} (h : c.isDigit = true) : IsColumnChar c := by
  rw [Char.isDigit_iff_toNat] at h
  have hlow : 48 ≤ c.toNat := h.1
  have hhigh : c.toNat ≤ 57 := h.2
  refine ⟨?_, ?_⟩
  · simp only [isBlank, Bool.or_eq_false_iff, Bool.and_eq_false_iff, decide_eq_false_iff_not,
      beq_eq_false_iff_ne]
    omega
  · rintro rfl
    exact absurd hlow (by decide)

theorem IsColumn.append {cs ds : List Char} (h : IsColumn cs) (h' : ∀ c ∈ ds, IsColumnChar c) :
    IsColumn (cs ++ ds) :=
  ⟨by simp [h.1], List.forall_mem_append.mpr ⟨h.2, h'⟩⟩

theorem isColumn_digits (n : Nat) : IsColumn (digits n) :=
  ⟨digits_ne_nil n, fun _ hc => isColumnChar_of_isDigit (isDigit_of_mem_digits hc)⟩

/-! ## Amounts -/

/-- An integer in decimal. -/
def integerChars (n : Int) : List Char :=
  if n < 0 then '-' :: digits n.natAbs else digits n.natAbs

theorem signed_integerChars (n : Int) : Signed n (integerChars n) := by
  rw [integerChars]
  split
  next hneg =>
    have h := Signed.minus (decimal_digits n.natAbs)
    rwa [show -(n.natAbs : Int) = n by omega] at h
  next hneg =>
    have h := Signed.unsigned (.bare (decimal_digits n.natAbs))
    rwa [show (n.natAbs : Int) = n by omega] at h

theorem isColumn_integerChars (n : Int) : IsColumn (integerChars n) := by
  rw [integerChars]
  split
  · exact ⟨List.cons_ne_nil _ _, List.forall_mem_cons.mpr ⟨by decide, (isColumn_digits _).2⟩⟩
  · exact isColumn_digits _

theorem integerChars_of_nonneg {n : Int} (h : 0 ≤ n) : integerChars n = digits n.natAbs :=
  if_neg (Int.not_lt.mpr h)

namespace Amount

def sizeChars (a : Amount) : List Char :=
  integerChars a.hour ++ ':' :: (digits a.minute ++ ':' :: digits a.second)

def chars (a : Amount) : List Char :=
  if a.negative then '-' :: a.sizeChars else a.sizeChars

theorem size_sizeChars (a : Amount) : Size a.hour a.minute a.second a.sizeChars :=
  .second (signed_integerChars a.hour) (.unsigned (.bare (decimal_digits a.minute)))
    (.unsigned (.bare (decimal_digits a.second)))

theorem isColumn_sizeChars (a : Amount) : IsColumn a.sizeChars := by
  refine (isColumn_integerChars a.hour).append ?_
  refine List.forall_mem_cons.mpr ⟨by decide, List.forall_mem_append.mpr ⟨?_, ?_⟩⟩
  · exact (isColumn_digits _).2
  · exact List.forall_mem_cons.mpr ⟨by decide, (isColumn_digits _).2⟩

theorem isColumn_chars (a : Amount) : IsColumn a.chars := by
  rw [chars]
  split
  · exact ⟨List.cons_ne_nil _ _, List.forall_mem_cons.mpr ⟨by decide, (isColumn_sizeChars a).2⟩⟩
  · exact isColumn_sizeChars a

theorem startsNumeric_append {cs : List Char} (h : StartsNumeric cs) (ds : List Char) :
    StartsNumeric (cs ++ ds) := by
  obtain ⟨signs, c, rest, rfl, hc⟩ := h
  exact ⟨signs, c, rest ++ ds, by simp, hc⟩

theorem startsNumeric_minus {cs : List Char} (h : StartsNumeric cs) :
    StartsNumeric ('-' :: cs) := by
  obtain ⟨signs, c, rest, rfl, hc⟩ := h
  exact ⟨signs + 1, c, rest, by simp [List.replicate_succ], hc⟩

theorem startsNumeric_digits (n : Nat) : StartsNumeric (digits n) := by
  obtain ⟨c, rest, h⟩ := List.exists_cons_of_ne_nil (digits_ne_nil n)
  exact ⟨0, c, rest, h, isDigit_of_mem_digits (h ▸ List.mem_cons_self)⟩

theorem startsNumeric_sizeChars (a : Amount) : StartsNumeric a.sizeChars := by
  refine startsNumeric_append ?_ _
  rw [integerChars]
  split
  · exact startsNumeric_minus (startsNumeric_digits _)
  · exact startsNumeric_digits _

theorem startsNumeric_chars (a : Amount) : StartsNumeric a.chars := by
  rw [chars]
  split
  · exact startsNumeric_minus a.startsNumeric_sizeChars
  · exact a.startsNumeric_sizeChars

theorem WellFormed.spelled {a : Amount} (h : a.WellFormed) : a.Spelled a.chars := by
  have hsize := a.size_sizeChars
  have hpositive := h.positive
  rw [chars]
  obtain ⟨negative, hour, minute, second⟩ := a
  cases negative with
  | true => exact .negative hsize
  | false =>
      refine .positive hsize ?_
      obtain ⟨c, rest, hdigits⟩ := List.exists_cons_of_ne_nil (digits_ne_nil hour.natAbs)
      have hhead := (Unsigned.bare (decimal_digits hour.natAbs)).head?_ne_minus
      rw [sizeChars, integerChars_of_nonneg (hpositive rfl)]
      rw [hdigits] at hhead ⊢
      exact hhead

end Amount

def savingChars : Option Amount → List Char
  | none => ['-']
  | some a => a.chars

theorem spelledSaving_savingChars {saving : Option Amount}
    (h : ∀ a, saving = some a → a.WellFormed) : SpelledSaving saving (savingChars saving) := by
  cases saving with
  | none => exact .none
  | some a => exact .amount (h a rfl).spelled a.startsNumeric_chars

theorem isColumn_savingChars (saving : Option Amount) : IsColumn (savingChars saving) := by
  cases saving with
  | none => decide
  | some a => exact a.isColumn_chars

/-! ## Abbreviations -/

namespace Designation

def chars : Designation → List Char
  | plain text | lettered text => text.toList
  | numeric => "%z".toList
  | pair standard daylight => standard.toList ++ '/' :: daylight.toList

theorem Spelled.chars_eq {d : Designation} {cs : List Char} (h : d.Spelled cs) :
    d = .numeric ∨ d.chars = cs := by
  cases h with
  | numeric => exact Or.inl rfl
  | pair heq => exact Or.inr heq.symm
  | lettered | plain => exact Or.inr rfl

theorem WellFormed.spelled {d : Designation} (h : d.WellFormed) :
    IsColumn d.chars ∧ d.Spelled d.chars := by
  obtain ⟨cs, hword, hcomment, hspelled⟩ := h
  rcases hspelled.chars_eq with rfl | rfl
  · refine ⟨by decide, .numeric ?_ ?_⟩
    · rw [← occurs_iff]
      decide
    · rw [← occurs_iff]
      decide
  · exact ⟨isColumn_iff.mpr ⟨hword, hcomment⟩, hspelled⟩

end Designation

/-! ## Ends -/

theorem isColumn_weekday (w : Weekday) : IsColumn w.abbreviation.toList := by
  cases w <;> decide

theorem isColumn_month (m : Month) : IsColumn m.abbreviation.toList := by
  cases m <;> decide

namespace DaySelector

def chars : DaySelector → List Char
  | last w => "last".toList ++ w.abbreviation.toList
  | onOrAfter w d => w.abbreviation.toList ++ (">=".toList ++ digits d)
  | onOrBefore w d => w.abbreviation.toList ++ ("<=".toList ++ digits d)
  | day d => digits d

theorem spelled_chars (d : DaySelector) : d.Spelled d.chars := by
  have hdigits (n : Nat) : Unsigned n (digits n) := .bare (decimal_digits n)
  cases d with
  | last w => exact .last .abbreviation
  | onOrAfter w d => exact .onOrAfter .abbreviation (hdigits d)
  | onOrBefore w d => exact .onOrBefore .abbreviation (hdigits d)
  | day d => exact .day (hdigits d)

theorem isColumn_chars (d : DaySelector) : IsColumn d.chars := by
  cases d with
  | last w => exact .append (by decide) (isColumn_weekday w).2
  | onOrAfter w d | onOrBefore w d =>
      exact (isColumn_weekday w).append
        (IsColumn.append (by decide) (isColumn_digits d).2).2
  | day d => exact isColumn_digits d

end DaySelector

namespace ClockTime

def chars (t : ClockTime) : List Char :=
  match t.clock with
  | .wall => t.amount.chars
  | .standard => t.amount.chars ++ ['s']
  | .universal => t.amount.chars ++ ['u']

theorem spelled_chars {t : ClockTime} (h : t.amount.WellFormed) : t.Spelled t.chars := by
  obtain ⟨clock, a⟩ := t
  cases clock with
  | wall => exact .wall h.spelled
  | standard => exact .named (by decide) h.spelled
  | universal => exact .named (by decide) h.spelled

theorem isColumn_chars (t : ClockTime) : IsColumn t.chars := by
  obtain ⟨clock, a⟩ := t
  cases clock with
  | wall => exact a.isColumn_chars
  | standard => exact a.isColumn_chars.append (List.forall_mem_singleton.mpr (by decide))
  | universal => exact a.isColumn_chars.append (List.forall_mem_singleton.mpr (by decide))

end ClockTime

/-- The columns after the year. -/
def Until.furtherColumns (u : Until) : List (List Char) :=
  [u.month.abbreviation.toList, u.day.chars, u.time.chars]

theorem Until.columns_chars {u : Until} (h : u.time.amount.WellFormed) :
    u.Columns (integerChars u.year) u.furtherColumns :=
  ⟨signed_integerChars u.year, rfl, u.day.spelled_chars, u.time.spelled_chars h, Nat.le_refl 3⟩

theorem Until.isColumn_columns (u : Until) :
    ∀ cs ∈ integerChars u.year :: u.furtherColumns, IsColumn cs := by
  simp only [furtherColumns, List.forall_mem_cons]
  exact ⟨isColumn_integerChars u.year, isColumn_month u.month, u.day.isColumn_chars,
    u.time.isColumn_chars, nofun⟩

/-! ## Lines -/

namespace Entry

def endColumns : Option Until → List (List Char)
  | none => []
  | some u => integerChars u.year :: u.furtherColumns

def columns (e : Entry) : List (List Char) :=
  e.standard.chars :: savingChars e.saving :: e.designation.chars :: endColumns e.ends

theorem WellFormed.columns_columns {e : Entry} (h : e.WellFormed) : e.Columns e.columns := by
  refine .mk h.standard.spelled (spelledSaving_savingChars h.saving) h.designation.spelled.2 ?_
  cases hends : e.ends with
  | none => exact .none
  | some u => exact .some (u.columns_chars (h.ends u hends).2)

theorem WellFormed.isColumn {e : Entry} (h : e.WellFormed) : ∀ cs ∈ e.columns, IsColumn cs := by
  have hends : ∀ cs ∈ endColumns e.ends, IsColumn cs := by
    cases e.ends with
    | none => nofun
    | some u => exact u.isColumn_columns
  simp only [columns, List.forall_mem_cons]
  exact ⟨e.standard.isColumn_chars, isColumn_savingChars e.saving, h.designation.spelled.1, hends⟩

end Entry

/-- Words with one space between any two. -/
def joined (ws : List (List Char)) : List Char :=
  [' '].intercalate ws

theorem not_mem_joined {c : Char} {ws : List (List Char)} (hc : c ≠ ' ') (h : ∀ w ∈ ws, c ∉ w) :
    c ∉ joined ws := by
  intro hmem
  rcases mem_intercalate hmem with heq | ⟨w, hw, hcw⟩
  · exact hc heq
  · exact h w hw hcw

theorem commented_joined {ws : List (List Char)} (h : ∀ w ∈ ws, '#' ∉ w) :
    Commented (joined ws) (joined ws) :=
  .bare (not_mem_joined (by decide) h)

theorem spaced_joined {ws : List (List Char)} (h : ∀ w ∈ ws, IsColumn w) :
    Spaced isBlank ws (joined ws) :=
  spaced_intercalate (by decide) fun w hw => (isColumn_iff.mp (h w hw)).1

theorem entryLine_joined {e : Entry} (h : e.WellFormed) : EntryLine e (joined e.columns) :=
  ⟨_, commented_joined fun w hw => (isColumn_iff.mp (h.isColumn w hw)).2, _,
    spaced_joined h.isColumn, h.columns_columns⟩

theorem headerLine_joined {identifier : String} {e : Entry}
    (hid : IsWord isAsciiBlank identifier.toList ∧ '#' ∉ identifier.toList) (he : e.WellFormed) :
    HeaderLine identifier e (joined ("Zone".toList :: identifier.toList :: e.columns)) := by
  have hcontent : joined ("Zone".toList :: identifier.toList :: e.columns) =
      [] ++ ("Zone".toList ++ ([' '] ++ (identifier.toList ++ ' ' :: joined e.columns))) := by
    rw [joined, List.intercalate_cons_cons, Entry.columns, List.intercalate_cons_cons]
    simp [joined]
  have hwords : ∀ w ∈ "Zone".toList :: identifier.toList :: e.columns, '#' ∉ w :=
    List.forall_mem_cons.mpr ⟨by simp, List.forall_mem_cons.mpr ⟨hid.2, fun w hw =>
      (isColumn_iff.mp (he.isColumn w hw)).2⟩⟩
  have hline := commented_joined hwords
  have hlead : IsGap isAsciiBlank [] := nofun
  have hgap : IsGap isAsciiBlank [' '] := List.forall_mem_singleton.mpr rfl
  have hdetached : Detached isAsciiBlank (' ' :: joined e.columns) := show isAsciiBlank ' ' from rfl
  rw [hcontent] at hline ⊢
  exact .mk hlead (by decide) hgap hid.1 hdetached ((spaced_joined he.isColumn).cons rfl)
    he.columns_columns hline

theorem linkLine_joined {name target : String} (hname : Document.IsName name)
    (htarget : Document.IsName target) :
    LinkLine name target (joined ["Link".toList, target.toList, name.toList]) := by
  have hwords : ∀ w ∈ ["Link".toList, target.toList, name.toList], IsColumn w := by
    simp only [List.forall_mem_cons]
    exact ⟨by decide, isColumn_iff.mpr htarget, isColumn_iff.mpr hname, nofun⟩
  exact ⟨_, commented_joined fun w hw => (isColumn_iff.mp (hwords w hw)).2, [],
    spaced_joined hwords⟩

/-! ## Documents -/

def ZoneBlock.lines (b : ZoneBlock) : List (List Char) :=
  match b.entries with
  | [] => []
  | e :: es => joined ("Zone".toList :: b.identifier.toList :: e.columns) ::
      es.map fun e => joined e.columns

namespace Document

def lines (d : Document) : List (List Char) :=
  d.zones.flatMap ZoneBlock.lines ++
    d.links.map fun link => joined ["Link".toList, link.2.toList, link.1.toList]

/-- The text in which all lines of a document are ended by line feeds. -/
def source (d : Document) : String :=
  String.ofList (d.lines.flatMap (· ++ ['\n']))

theorem entryLines_joined {es : List Entry} (h : ∀ e ∈ es, e.WellFormed) :
    EntryLines es (es.map fun e => joined e.columns) := by
  induction es with
  | nil => exact .nil
  | cons e es ih =>
      obtain ⟨he, hes⟩ := List.forall_mem_cons.mp h
      exact .entry (entryLine_joined he) (ih hes)

theorem lines_lines {d : Document} (h : d.WellFormed) : Lines d.zones d.links d.lines := by
  obtain ⟨zones, links⟩ := d
  have hlinks : ∀ links : List (String × String),
      (∀ link ∈ links, IsName link.1 ∧ IsName link.2) → Lines [] links
        (links.map fun link => joined ["Link".toList, link.2.toList, link.1.toList]) := by
    intro links h
    induction links with
    | nil => exact .nil
    | cons link links ih =>
        obtain ⟨hlink, hlinks⟩ := List.forall_mem_cons.mp h
        exact .link (linkLine_joined hlink.1 hlink.2) (ih hlinks)
  induction zones with
  | nil => exact hlinks links h.links
  | cons b zones ih =>
      obtain ⟨hb, hzones⟩ := List.forall_mem_cons.mp h.zones
      obtain ⟨identifier, entries⟩ := b
      cases entries with
      | nil => exact absurd rfl hb.terminated.ne_nil
      | cons e es =>
          obtain ⟨he, hes⟩ := List.forall_mem_cons.mp hb.entries
          have h := Lines.zone (headerLine_joined hb.identifier he) (entryLines_joined hes)
            (ih ⟨hzones, h.links⟩)
          simpa [lines, ZoneBlock.lines] using h

theorem lined_flatMap : ∀ {ls : List (List Char)}, (∀ l ∈ ls, '\n' ∉ l ∧ '\r' ∉ l) →
    Lined ls (ls.flatMap (· ++ ['\n']))
  | [], _ => .nil
  | l :: ls, h => by
      obtain ⟨hl, hls⟩ := List.forall_mem_cons.mp h
      rw [List.flatMap_cons, List.append_assoc]
      exact .feed hl.1 (fun hlast => hl.2 (List.mem_of_getLast? hlast)) (lined_flatMap hls)

/-- Apart from the space, no ASCII blank occurs in a line. -/
theorem not_mem_lines {d : Document} (h : d.WellFormed) {c : Char} (hc : isAsciiBlank c = true)
    (hspace : c ≠ ' ') : ∀ l ∈ d.lines, c ∉ l := by
  have hblank := isBlank_of_isAsciiBlank hc
  have hcolumn {w : List Char} (hw : IsColumn w) : c ∉ w := fun hmem => by
    rw [(hw.2 c hmem).1] at hblank
    cases hblank
  intro l hl
  rcases List.mem_append.mp hl with hl | hl
  · obtain ⟨⟨identifier, entries⟩, hb, hl⟩ := List.mem_flatMap.mp hl
    have hwf := h.zones _ hb
    cases entries with
    | nil => cases hl
    | cons e es =>
        rcases List.mem_cons.mp hl with rfl | hl
        · have he := hwf.entries e List.mem_cons_self
          have hid : c ∉ identifier.toList := fun hmem => by
            rw [hwf.identifier.1.2 c hmem] at hc
            cases hc
          refine not_mem_joined hspace (List.forall_mem_cons.mpr ⟨hcolumn (by decide), ?_⟩)
          exact List.forall_mem_cons.mpr ⟨hid, fun w hw => hcolumn (he.isColumn w hw)⟩
        · obtain ⟨f, hf, rfl⟩ := List.mem_map.mp hl
          have hf := hwf.entries f (List.mem_cons_of_mem _ hf)
          exact not_mem_joined hspace fun w hw => hcolumn (hf.isColumn w hw)
  · obtain ⟨link, hlink, rfl⟩ := List.mem_map.mp hl
    refine not_mem_joined hspace ?_
    simp only [List.forall_mem_cons]
    exact ⟨hcolumn (by decide), hcolumn (isColumn_iff.mpr (h.links link hlink).2),
      hcolumn (isColumn_iff.mpr (h.links link hlink).1), nofun⟩

theorem lined_source {d : Document} (h : d.WellFormed) : Lined d.lines d.source.toList := by
  rw [source, String.toList_ofList]
  exact lined_flatMap fun l hl =>
    ⟨not_mem_lines h rfl (by decide) l hl, not_mem_lines h rfl (by decide) l hl⟩

theorem written_source {d : Document} (h : d.WellFormed) : d.Written d.source :=
  ⟨d.lines, lined_source h, lines_lines h⟩

/-- The parser reads a document from every text in which it is written, provided that it is well
formed, and from no other text; and every well formed document is written in some text, of which
its source is one. -/
theorem parse_reads_back (d : Document) :
    (∀ text, parse text = .ok d ↔ d.WellFormed ∧ d.Written text) ∧
      (parse d.source = .ok d ↔ d.WellFormed) := by
  refine ⟨fun text => parse_eq_ok_iff, fun h => (parse_eq_ok_iff.mp h).1, fun h => ?_⟩
  exact parse_eq_ok_iff.mpr ⟨h, written_source h⟩

end Document

end ZoneHistory.Source
