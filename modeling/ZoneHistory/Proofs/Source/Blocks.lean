import ZoneHistory.Proofs.Source.Discipline
import ZoneHistory.Proofs.Source.Documents

/-!
# The lines that a zone takes

A zone takes its header and then every line up to the first entry that has no end. What
lines go on with after an entry is `Continued`: nothing if the entry has no end, and else
blank lines and one more entry, after which it is the same again. The parser of a zone
follows it line by line, with the label of the zone in the context as long as a line is
missing (`ZoneBlock.complete_of_continued`), and where the lines go on otherwise it fails
in the same way in every context (`ZoneBlock.continued_or_fails`).

In terms of lists, the lines that are not blank stand for the entries in their order, the
last line is not blank, and the last entry alone has no end (`continued_iff`,
`ZoneBlock.IsReadFrom`).

With the parsers of columns, which are `Steady`, this is what all parsers do to a context:
`reading_keeps_to_the_context`. Line numbers are words there and sums are checked, so that
there may be lines that cannot be counted. Where a zone begins in a source, reading the source is
reading the zone and then the lines that it leaves (`Document.readOn_zone`).
-/

namespace ZoneHistory.Source

open Text Parse

/-! ## Parts of a line -/

/-- What has a parser of its own and lies on one line. -/
inductive Part where
  | integer (range : IntegerRange)
  | amount
  | saving
  | designation
  | month
  | day
  | weekday
  | clockTime
  | ends
  | entry
  | header

namespace Part

def Value : Part → Type
  | integer _ => Int
  | amount => Amount
  | saving => Option Amount
  | designation => Designation
  | month => Calendar.Month
  | day => DaySelector
  | weekday => Calendar.Weekday
  | clockTime => ClockTime
  | ends => Until
  | entry => Entry
  | header => String × Entry

def parse : (part : Part) → String → Parse part.Value
  | integer range => Parse.integer range
  | amount => Amount.parse
  | saving => parseSaving
  | designation => Designation.parse
  | month => parseMonth
  | day => DaySelector.parse
  | weekday => parseWeekday
  | clockTime => ClockTime.parse
  | ends => Until.parse
  | entry => Entry.parse
  | header => ZoneBlock.parseHeader

theorem steady_parse (part : Part) (text : String) :
    Steady (fun _ => True) (part.parse text) := by
  cases part with
  | integer range => exact (steady_integer range text).weaken
  | amount => exact (Amount.steady_parse text).weaken
  | saving => exact (steady_parseSaving text).weaken
  | designation => exact (Designation.steady_parse text).weaken
  | month => exact (steady_parseMonth text).weaken
  | day => exact (DaySelector.steady_parse text).weaken
  | weekday => exact (steady_parseWeekday text).weaken
  | clockTime => exact (ClockTime.steady_parse text).weaken
  | ends => exact (Until.steady_parse text).weaken
  | entry => exact (Entry.steady_parse text).weaken
  | header => exact (ZoneBlock.steady_parseHeader text).weaken

end Part

/-! ## Lines after an entry -/

instance (line : String) : Decidable (BlankLine line.toList) :=
  decidable_of_iff _ all_isBlank_iff

/-- The lines with something else than blanks and a comment. -/
def contentLines (lines : List String) : List String :=
  lines.filter fun line => ¬BlankLine line.toList

theorem contentLines_cons_of_blank {line : String} (h : BlankLine line.toList)
    (lines : List String) : contentLines (line :: lines) = contentLines lines :=
  List.filter_cons_of_neg (by simpa using h)

theorem contentLines_cons_of_not_blank {line : String} (h : ¬BlankLine line.toList)
    (lines : List String) : contentLines (line :: lines) = line :: contentLines lines :=
  List.filter_cons_of_pos (by simpa using h)

/-- The line is read as the entry, wherever that is done. -/
def HoldsEntry (line : String) (e : Entry) : Prop :=
  ∀ c, Entry.parse (withoutComment line) c = (.ok e, c)

/-- The lines go on after an entry with further ones, up to the first of them all that has no
end. -/
inductive Continued : Entry → List Entry → List String → Prop
  | done {e : Entry} : e.ends = none → Continued e [] []
  | blank {e : Entry} {es : List Entry} {line : String} {lines : List String} :
      e.ends ≠ none → BlankLine line.toList → Continued e es lines →
      Continued e es (line :: lines)
  | entry {e e' : Entry} {es : List Entry} {line : String} {lines : List String} :
      e.ends ≠ none → ¬BlankLine line.toList → HoldsEntry line e' → Continued e' es lines →
      Continued e (e' :: es) (line :: lines)

variable {e : Entry} {es : List Entry}

theorem terminated_singleton_iff : Terminated [e] ↔ e.ends = none := by
  rw [← List.nil_append [e], terminated_concat_iff]
  exact and_iff_right (List.forall_mem_nil _)

theorem terminated_cons_iff (hne : es ≠ []) :
    Terminated (e :: es) ↔ e.ends ≠ none ∧ Terminated es := by
  rw [← List.singleton_append, terminated_append_iff hne, List.forall_mem_singleton]

/-- Lines that are not blank stand for the entries, and the last line is one of them. -/
theorem continued_iff {lines : List String} :
    Continued e es lines ↔ Terminated (e :: es) ∧
      List.Forall₂ HoldsEntry (contentLines lines) es ∧
      ∀ line, lines.getLast? = some line → ¬BlankLine line.toList := by
  constructor
  · intro h
    induction h with
    | done he => exact ⟨terminated_singleton_iff.mpr he, .nil, nofun⟩
    | @blank e es line lines he hblank _ ih =>
        obtain ⟨hterminated, hentries, hlast⟩ := ih
        have hne : lines ≠ [] := by
          rintro rfl
          cases hentries
          exact he (terminated_singleton_iff.mp hterminated)
        rw [contentLines_cons_of_blank hblank, List.getLast?_cons_of_ne_nil hne]
        exact ⟨hterminated, hentries, hlast⟩
    | @entry e e' es line lines he hcontent hline _ ih =>
        obtain ⟨hterminated, hentries, hlast⟩ := ih
        rw [contentLines_cons_of_not_blank hcontent]
        refine ⟨(terminated_cons_iff (List.cons_ne_nil _ _)).mpr ⟨he, hterminated⟩,
          .cons hline hentries, fun l hl => ?_⟩
        cases lines with
        | nil =>
            cases hl
            exact hcontent
        | cons _ _ => exact hlast l hl
  · rintro ⟨hterminated, hentries, hlast⟩
    induction lines generalizing e es with
    | nil =>
        cases hentries
        exact .done (terminated_singleton_iff.mp hterminated)
    | cons line lines ih =>
        by_cases hblank : BlankLine line.toList
        · have hne : lines ≠ [] := by
            rintro rfl
            exact hlast line rfl hblank
          rw [contentLines_cons_of_blank hblank] at hentries
          rw [List.getLast?_cons_of_ne_nil hne] at hlast
          have hcontinued := ih hterminated hentries hlast
          refine .blank ?_ hblank hcontinued
          cases hcontinued with
          | done _ => exact absurd rfl hne
          | blank he _ _ | entry he _ _ _ => exact he
        · rw [contentLines_cons_of_not_blank hblank] at hentries
          cases hentries with
          | cons hline hentries =>
              obtain ⟨he, hterminated⟩ :=
                (terminated_cons_iff (List.cons_ne_nil _ _)).mp hterminated
              refine .entry he hblank hline (ih hterminated hentries fun l hl => hlast l ?_)
              rw [List.getLast?_cons, hl]
              rfl

/-! ## Failing on a later line -/

/-- In every context, reading passes over `n` lines and then fails on the line it has come to, with
the same labels on top of those that were there. -/
def FailsAfter {α : Type} (n : Nat) (above : List String) (p : Parse α) : Prop :=
  ∀ c, ∃ err, p c = (.error err, ⟨c.count.skip n, above ++ c.spans⟩) ∧
    err.line = (c.count.skip n).word.toNat

/-- A line that is passed over first puts the failure off by one. -/
theorem FailsAfter.next {α : Type} {n : Nat} {above : List String} {p q : Parse α}
    (h : FailsAfter n above q) (hrun : ∀ c, p c = q c.nextLine) : FailsAfter (n + 1) above p := by
  intro c
  obtain ⟨err, hfail, hline⟩ := h c.nextLine
  exact ⟨err, (hrun c).trans hfail, hline⟩

namespace ZoneBlock

/-! ## Reading line by line -/

variable {b : ZoneBlock} {line : String}

theorem isComplete_iff_of_getLast? (hlast : b.entries.getLast? = some e) :
    b.isComplete = true ↔ e.ends = none := by
  rw [isComplete, hlast]
  exact Option.isNone_iff_eq_none

theorem open_of_getLast? (hlast : b.entries.getLast? = some e) (he : e.ends ≠ none) :
    b.isComplete = false :=
  Bool.eq_false_iff.mpr fun h => he ((isComplete_iff_of_getLast? hlast).mp h)

theorem complete_of_isComplete (h : b.isComplete = true) (lines : List String) :
    b.complete lines = return (b, lines) := by
  cases lines with
  | nil => rw [complete, if_pos h]
  | cons line lines => rw [complete, if_pos h]

theorem complete_nil_of_open (h : b.isComplete = false) : b.complete [] = Parse.endOfLine := by
  rw [complete, h]
  rfl

theorem complete_cons_of_open (h : b.isComplete = false) (line : String) (lines : List String) :
    b.complete (line :: lines) = (do (← b.extend line).complete lines) := by
  rw [complete, h]
  rfl

theorem labels_of_open (h : b.isComplete = false) (spans : List String) :
    b.labels spans = "zone table" :: spans := by
  rw [labels, h]
  rfl

theorem extend_blank (h : BlankLine line.toList) (b : ZoneBlock) (c : Context) :
    b.extend line c = (.ok b, c.nextLine) := by
  rw [extend, if_pos (all_isBlank_iff.mpr h)]
  rfl

theorem extend_content (h : ¬BlankLine line.toList) (b : ZoneBlock) :
    b.extend line = (do
      let e ← Entry.parse (withoutComment line)
      advance { b with entries := b.entries ++ [e] }) := by
  rw [extend, if_neg (all_isBlank_iff.not.mpr h)]

/-- An open zone takes a line that holds an entry. The context has the labels of the zone before the
line and after it. -/
theorem complete_cons_of_holdsEntry {e' : Entry} (hopen : b.isComplete = false)
    (hcontent : ¬BlankLine line.toList) (hline : HoldsEntry line e') (lines : List String)
    (n : LineCount) (spans : List String) :
    b.complete (line :: lines) ⟨n, b.labels spans⟩ =
      complete { b with entries := b.entries ++ [e'] } lines
        ⟨n.next, labels spans { b with entries := b.entries ++ [e'] }⟩ := by
  have hextend := congrFun (extend_content hcontent b) (Context.enter ⟨n, spans⟩ "zone table")
  rw [bind_of_ok (hline _), advance_enter] at hextend
  rw [complete_cons_of_open hopen, labels_of_open hopen]
  exact bind_of_ok hextend

theorem complete_cons_of_blank (hopen : b.isComplete = false) (hblank : BlankLine line.toList)
    (lines : List String) (n : LineCount) (spans : List String) :
    b.complete (line :: lines) ⟨n, b.labels spans⟩ =
      b.complete lines ⟨n.next, b.labels spans⟩ := by
  rw [complete_cons_of_open hopen]
  exact bind_of_ok (extend_blank hblank b _)

/-- The lines with which a zone goes on are read to their end and no further. -/
theorem complete_of_continued {further : List String} (h : Continued e es further) :
    ∀ {b : ZoneBlock}, b.entries.getLast? = some e → ∀ (rest : List String) (n : LineCount)
      (spans : List String), b.complete (further ++ rest) ⟨n, b.labels spans⟩ =
        (.ok ({ b with entries := b.entries ++ es }, rest), ⟨n.skip further.length, spans⟩) := by
  induction h with
  | done he =>
      intro b hlast rest n spans
      have hcomplete : b.isComplete = true := (isComplete_iff_of_getLast? hlast).mpr he
      rw [List.nil_append, complete_of_isComplete hcomplete, labels, if_pos hcomplete,
        List.append_nil]
      rfl
  | @blank e es line lines he hblank _ ih =>
      intro b hlast rest n spans
      rw [List.cons_append, complete_cons_of_blank (open_of_getLast? hlast he) hblank, ih hlast]
      rfl
  | @entry e e' es line lines he hcontent hline _ ih =>
      intro b hlast rest n spans
      have hlast' : (b.entries ++ [e']).getLast? = some e' := List.getLast?_concat
      rw [List.cons_append, complete_cons_of_holdsEntry (open_of_getLast? hlast he) hcontent hline,
        ih hlast', List.append_cons b.entries e' es]
      rfl

/-- Lines that do not go on with the zone are refused in the same way in every context. -/
theorem continued_or_fails (lines : List String) : ∀ {b : ZoneBlock} {e : Entry},
    b.entries.getLast? = some e →
      (∃ further es rest, lines = further ++ rest ∧ Continued e es further) ∨
        ∃ n above, n ≤ lines.length ∧
          FailsAfter n above fun c => b.complete lines ⟨c.count, b.labels c.spans⟩ := by
  induction lines with
  | nil =>
      intro b e hlast
      by_cases he : e.ends = none
      · exact Or.inl ⟨[], [], [], rfl, .done he⟩
      · have hopen := open_of_getLast? hlast he
        refine Or.inr ⟨0, ["zone table"], Nat.le_refl 0, fun c =>
          ⟨.endOfLine c.count.word "zone table", ?_, rfl⟩⟩
        show b.complete [] ⟨c.count, b.labels c.spans⟩ = _
        rw [complete_nil_of_open hopen, labels_of_open hopen]
        rfl
  | cons line lines ih =>
      intro b e hlast
      by_cases he : e.ends = none
      · exact Or.inl ⟨[], [], line :: lines, rfl, .done he⟩
      have hopen := open_of_getLast? hlast he
      by_cases hblank : BlankLine line.toList
      · rcases ih hlast with ⟨further, es, rest, rfl, h⟩ | ⟨n, above, hn, hfails⟩
        · exact Or.inl ⟨line :: further, es, rest, rfl, .blank he hblank h⟩
        · refine Or.inr ⟨n + 1, above, Nat.succ_le_succ hn, hfails.next fun c => ?_⟩
          exact complete_cons_of_blank hopen hblank lines c.count c.spans
      · cases Entry.steady_parse (withoutComment line) with
        | reads e' hline =>
            have hlast' : (b.entries ++ [e']).getLast? = some e' := List.getLast?_concat
            rcases ih (b := { b with entries := b.entries ++ [e'] }) hlast' with
              ⟨further, es, rest, rfl, h⟩ | ⟨n, above, hn, hfails⟩
            · exact Or.inl ⟨line :: further, e' :: es, rest, rfl, .entry he hblank hline h⟩
            · refine Or.inr ⟨n + 1, above, Nat.succ_le_succ hn, hfails.next fun c => ?_⟩
              exact complete_cons_of_holdsEntry hopen hblank hline lines c.count c.spans
        | fails above hline =>
            refine Or.inr ⟨0, above ++ ["zone table"], Nat.zero_le _, fun c => ?_⟩
            obtain ⟨err, hrun, herr, -⟩ := hline (c.enter "zone table")
            refine ⟨err, ?_, herr⟩
            show b.complete (line :: lines) ⟨c.count, b.labels c.spans⟩ = _
            rw [complete_cons_of_open hopen, labels_of_open hopen, extend_content hblank,
              ← List.append_cons]
            exact bind_of_error (bind_of_error hrun)

/-! ## Reading a zone -/

/-- The zone is the one that its header and the further lines hold. The header and each further line
that is not blank stand for its entries, in order. Only the last of these has no end, and the
lines end with it. -/
structure IsReadFrom (b : ZoneBlock) (header : String) (further : List String) : Prop where
  entries : ∃ e es, b.entries = e :: es ∧
    (∀ c, parseHeader header c = (.ok (b.identifier, e), c)) ∧
    List.Forall₂ HoldsEntry (contentLines further) es
  terminated : Terminated b.entries
  last : ∀ line, further.getLast? = some line → ¬BlankLine line.toList

theorem isReadFrom_iff {header : String} {further : List String} :
    b.IsReadFrom header further ↔ ∃ e es, b.entries = e :: es ∧
      (∀ c, parseHeader header c = (.ok (b.identifier, e), c)) ∧ Continued e es further := by
  constructor
  · rintro ⟨⟨e, es, hb, hheader, hentries⟩, hterminated, hlast⟩
    rw [hb] at hterminated
    exact ⟨e, es, hb, hheader, continued_iff.mpr ⟨hterminated, hentries, hlast⟩⟩
  · rintro ⟨e, es, hb, hheader, hcontinued⟩
    obtain ⟨hterminated, hentries, hlast⟩ := continued_iff.mp hcontinued
    rw [← hb] at hterminated
    exact ⟨⟨e, es, hb, hheader, hentries⟩, hterminated, hlast⟩

theorem begin_eq (header : String) (c : Context) :
    begin header c = (parseHeader header >>= fun r => advance ⟨r.1, [r.2]⟩)
      (c.enter "zone table") := by
  rw [begin]
  exact bind_of_ok rfl

/-- After its header, a zone is read on with the label of the zone if the header does not complete
it. -/
theorem parse_cons_of_header {header identifier : String}
    (hheader : ∀ c, parseHeader header c = (.ok (identifier, e), c)) (lines : List String)
    (c : Context) : parse (header :: lines) c =
      complete ⟨identifier, [e]⟩ lines ⟨c.count.next, labels c.spans ⟨identifier, [e]⟩⟩ := by
  have hbegin := begin_eq header c
  rw [bind_of_ok (hheader _), advance_enter] at hbegin
  exact bind_of_ok hbegin

theorem parse_of_isReadFrom {header : String} {further : List String}
    (h : b.IsReadFrom header further) (rest : List String) (c : Context) :
    parse (header :: (further ++ rest)) c =
      (.ok (b, rest), ⟨c.count.skip (further.length + 1), c.spans⟩) := by
  obtain ⟨identifier, entries⟩ := b
  obtain ⟨e, es, rfl, hheader, hcontinued⟩ := isReadFrom_iff.mp h
  rw [parse_cons_of_header hheader, complete_of_continued hcontinued rfl]
  rfl

theorem isReadFrom_or_fails (lines : List String) :
    (∃ header further rest b, lines = header :: (further ++ rest) ∧ IsReadFrom b header further) ∨
      ∃ n above, n ≤ lines.length ∧ FailsAfter n above (parse lines) := by
  cases lines with
  | nil =>
      exact Or.inr ⟨0, ["zone table"], Nat.le_refl 0, fun c =>
        ⟨.endOfLine c.count.word "zone table", rfl, rfl⟩⟩
  | cons header lines =>
      cases steady_parseHeader header with
      | reads r hheader =>
          obtain ⟨identifier, e⟩ := r
          rcases continued_or_fails lines (b := ⟨identifier, [e]⟩) (e := e) rfl with
            ⟨further, es, rest, rfl, h⟩ | ⟨n, above, hn, hfails⟩
          · exact Or.inl ⟨header, further, rest, ⟨identifier, e :: es⟩, rfl,
              isReadFrom_iff.mpr ⟨e, es, rfl, hheader, h⟩⟩
          · exact Or.inr ⟨n + 1, above, Nat.succ_le_succ hn,
              hfails.next (parse_cons_of_header hheader lines)⟩
      | fails above hheader =>
          refine Or.inr ⟨0, above ++ ["zone table"], Nat.zero_le _, fun c => ?_⟩
          obtain ⟨err, hrun, herr, -⟩ := hheader (c.enter "zone table")
          refine ⟨err, ?_, herr⟩
          have hbegin := begin_eq header c
          rw [bind_of_error hrun] at hbegin
          rw [parse, bind_of_error hbegin, ← List.append_cons]
          rfl

/-- A zone is read from its own lines and leaves those after them. -/
theorem parse_eq_ok_iff {lines rest : List String} {c d : Context} :
    parse lines c = (.ok (b, rest), d) ↔ ∃ header further, lines = header :: (further ++ rest) ∧
      b.IsReadFrom header further ∧ d = ⟨c.count.skip (further.length + 1), c.spans⟩ := by
  constructor
  · intro h
    rcases isReadFrom_or_fails lines with
      ⟨header, further, rest', b', rfl, hread⟩ | ⟨n, above, -, hfails⟩
    · rw [parse_of_isReadFrom hread] at h
      cases h
      exact ⟨header, further, rfl, hread, rfl⟩
    · obtain ⟨err, hrun, -⟩ := hfails c
      rw [hrun] at h
      cases h
  · rintro ⟨header, further, rfl, hread, rfl⟩
    exact parse_of_isReadFrom hread rest c

/-- How far a zone is read, and which labels an error leaves, does not depend on the context. -/
theorem exists_count_parse (lines : List String) :
    ∃ n above, n ≤ lines.length ∧ ∀ c result d, parse lines c = (result, d) →
      d.count = c.count.skip n ∧ ∀ err, result = .error err →
        err.line = d.line ∧ d.spans = above ++ c.spans := by
  rcases isReadFrom_or_fails lines with
    ⟨header, further, rest, b, rfl, hread⟩ | ⟨n, above, hn, hfails⟩
  · refine ⟨further.length + 1, [], by simp, fun c result d h => ?_⟩
    rw [parse_of_isReadFrom hread] at h
    cases h
    exact ⟨rfl, nofun⟩
  · refine ⟨n, above, hn, fun c result d h => ?_⟩
    obtain ⟨err', hrun, hline⟩ := hfails c
    rw [hrun] at h
    cases h
    refine ⟨rfl, ?_⟩
    rintro err ⟨⟩
    exact ⟨hline, rfl⟩

end ZoneBlock

/-! ## All parsers -/

/-- Parsers keep to the context. A part of a line leaves it as it was. Where it cannot be read, the
error is on the current line, and the same labels stand on top of the old ones whatever these are,
so none of the old ones has been taken away. The innermost label is the first.

Only a zone moves on in the lines. It is read from its header and the lines up to the first entry
without an end, precisely if there are such lines, and the line number grows by these. Where it
cannot be read, the error is on the line that has been reached, and again the same labels stand on
top. There is no outcome where the sum of the line number and the lines that it moves on by does
not fit a word. -/
theorem reading_keeps_to_the_context :
    (∀ (part : Part) (text : String),
      (∃ a, ∀ c, part.parse text c = (.ok a, c)) ∨
        ∃ above, ∀ c, ∃ err, part.parse text c = (.error err, ⟨c.count, above ++ c.spans⟩) ∧
          err.line = c.line) ∧
    ∀ lines : List String,
      (∀ line spans b rest line' spans',
        (ZoneBlock.parse lines).checked line spans = some (.ok (b, rest), line', spans') ↔
          ∃ header further, lines = header :: (further ++ rest) ∧ b.IsReadFrom header further ∧
            line'.toNat = line.toNat + (further.length + 1) ∧ spans' = spans) ∧
      ∃ n above, n ≤ lines.length ∧ ∀ line spans,
        ((ZoneBlock.parse lines).checked line spans = none ↔ 2 ^ 32 ≤ line.toNat + n) ∧
        ∀ err line' spans',
          (ZoneBlock.parse lines).checked line spans = some (.error err, line', spans') →
            err.line = line'.toNat ∧ line'.toNat = line.toNat + n ∧ spans' = above ++ spans := by
  refine ⟨fun part text => ?_, fun lines => ⟨?_, ?_⟩⟩
  · cases part.steady_parse text with
    | reads a hrun => exact Or.inl ⟨a, hrun⟩
    | fails above hrun =>
        refine Or.inr ⟨above, fun c => ?_⟩
        obtain ⟨err, herr, hline, -⟩ := hrun c
        exact ⟨err, herr, hline⟩
  · intro line spans b rest line' spans'
    rw [checked_eq_some_iff, ZoneBlock.parse_eq_ok_iff]
    simp only [Context.mk.injEq, eq_comm (a := LineCount.mk line' false), LineCount.skip_eq_iff]
  · obtain ⟨n, above, hn, hrun⟩ := ZoneBlock.exists_count_parse lines
    refine ⟨n, above, hn, fun line spans => ⟨?_, fun err line' spans' h => ?_⟩⟩
    · rcases hparse : ZoneBlock.parse lines ⟨⟨line, false⟩, spans⟩ with ⟨result, d⟩
      refine checked_eq_none_iff ?_
      rw [hparse]
      exact (hrun _ _ _ hparse).1
    · obtain ⟨hcount, hfails⟩ := hrun _ _ _ (checked_eq_some_iff.mp h)
      obtain ⟨hline, hspans⟩ := hfails err rfl
      exact ⟨hline, LineCount.skip_eq_iff.mp hcount.symm, hspans⟩

/-- A zone of three lines is read in front of a link, which may have the last number that there is,
but not a further one. With an unknown month the last line of the zone is refused, and the labels
show where. -/
theorem zone_of_three_lines :
    let header := "Zone Test/Zone 1:00 - TST 2000"
    let further := ["# a comment", "\t2:00 - X # and on"]
    let rest := ["Link Test/Zone Test/Alias"]
    let parsed := ZoneBlock.parse (header :: (further ++ rest))
    (∃ b, parsed.checked 4294967292 ["outer"] = some (.ok (b, rest), 4294967295, ["outer"]) ∧
      b.IsReadFrom header further) ∧
    parsed.checked 4294967293 ["outer"] = none ∧
    ∃ err, (ZoneBlock.parse [header, "# a comment", "\t2:00 - X 2001 Foo"]).checked 7 ["outer"] =
      some (.error err, 9, ["UntilDateTime", "ZoneEntry", "zone table", "outer"]) ∧
        err.line = 9 := by
  intro header further rest parsed
  have hread : parsed.checked 4294967292 ["outer"] = some (.ok (⟨"Test/Zone",
      [⟨⟨false, 1, 0, 0⟩, none, .plain "TST", some ⟨2000, .january, .day 1, .midnight⟩⟩,
        ⟨⟨false, 2, 0, 0⟩, none, .plain "X", none⟩]⟩, rest), 4294967295, ["outer"]) := by
    decide +kernel
  have hrefused : (ZoneBlock.parse [header, "# a comment", "\t2:00 - X 2001 Foo"]).checked 7
      ["outer"] = some (.error (.unknownValue 9 "Foo"), 9,
        ["UntilDateTime", "ZoneEntry", "zone table", "outer"]) := by
    decide +kernel
  obtain ⟨_, further', hlines, hfrom, -⟩ :=
    ((reading_keeps_to_the_context.2 _).1 _ _ _ _ _ _).mp hread
  obtain ⟨rfl, hfurther⟩ := List.cons.inj hlines
  rw [← List.append_cancel_right hfurther] at hfrom
  obtain ⟨-, n, above, -, hrun⟩ :=
    reading_keeps_to_the_context.2 [header, "# a comment", "\t2:00 - X 2001 Foo"]
  exact ⟨⟨_, hread, hfrom⟩, by decide +kernel, _, hrefused, ((hrun _ _).2 _ _ _ hrefused).1⟩

/-! ## Zones in a source -/

namespace Document

open Progress

/-- Reads the lines after those that hold `d`. -/
def readOn (d : Document) (lines : List String) : Parse Document := do
  let p ← lines.foldlM step ⟨d, none⟩
  p.finish

theorem ofLines_eq_readOn (lines : List String) : ofLines lines = readOn ⟨[], []⟩ lines :=
  rfl

/-- What is left of a zone is read, and then the lines after it. -/
theorem finish_run_take (lines : List String) : ∀ (d : Document) (b : ZoneBlock) (c : Context),
    (lines.foldlM step (take d b) >>= finish) c =
      (b.complete lines >>= fun r => readOn { d with zones := d.zones ++ [r.1] } r.2) c := by
  induction lines with
  | nil =>
      intro d b c
      cases hb : b.isComplete with
      | true =>
          rw [take, if_pos hb, ZoneBlock.complete_of_isComplete hb]
          rfl
      | false =>
          rw [take, hb, ZoneBlock.complete_nil_of_open hb]
          rfl
  | cons line lines ih =>
      intro d b c
      cases hb : b.isComplete with
      | true =>
          rw [take, if_pos hb, ZoneBlock.complete_of_isComplete hb]
          exact (bind_of_ok rfl).symm
      | false =>
          have htake : take d b = ⟨d, some b⟩ := by
            rw [take, hb]
            rfl
          rw [htake, ZoneBlock.complete_cons_of_open hb, List.foldlM_cons]
          rcases hextend : b.extend line c with ⟨err | b', c'⟩
          · rw [bind_of_error (bind_of_error hextend)]
            exact bind_of_error (bind_of_error (bind_of_error hextend))
          · rw [bind_eq_bind (bind_of_ok hextend), ← ih d b' c']
            exact bind_eq_bind (bind_of_ok (bind_of_ok hextend))

/-- Where a zone begins, the parser of zones reads it, and reading goes on with the lines that it
leaves. -/
theorem readOn_zone {line : String}
    (hzone : (columns (withoutComment line)).head? = some "Zone") (d : Document)
    (lines : List String) : d.readOn (line :: lines) =
      ZoneBlock.parse (line :: lines) >>= fun r =>
        readOn { d with zones := d.zones ++ [r.1] } r.2 := by
  funext c
  rw [readOn, List.foldlM_cons, step_of_zone hzone, ZoneBlock.parse]
  rcases hbegin : ZoneBlock.begin line c with ⟨err | b, c'⟩
  · rw [bind_of_error (bind_of_error hbegin)]
    exact bind_of_error (bind_of_error (bind_of_error hbegin))
  · have hcomplete : (ZoneBlock.begin line >>= fun b => b.complete lines) c = b.complete lines c' :=
      bind_of_ok hbegin
    rw [bind_eq_bind hcomplete, ← finish_run_take lines d b c']
    exact bind_eq_bind (bind_of_ok (bind_of_ok hbegin))

end Document

end ZoneHistory.Source
