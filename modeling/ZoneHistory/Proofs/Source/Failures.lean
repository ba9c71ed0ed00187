import ZoneHistory.Proofs.Source.Discipline
import ZoneHistory.Proofs.Source.Printing

/-!
# Where reading fails

Lines are read one after the other, so reading fails at the first line that cannot be
read after those before it, and whatever follows that line has no part in it
(`Document.exists_of_parse_error`). The context counts the lines along
(`Progress.eq_of_run_ok`), which makes the line of the error that line. Only where the
lines are over while a zone still waits for a further line does the error lie behind
them.

What the lines before the error hold is `Progress.Holds`, the counterpart of `Continues`
from the other end: closed zones and links, and perhaps the beginning of one more zone.
The main statement, `Document.parse_error_names_line`, puts the two together. It is about
sources with fewer lines than there are numbers; these are also read where sums are checked
(`Document.checked_ofLines`).
-/

namespace ZoneHistory.Source

open Text Parse

namespace Progress

/-! ## Runs in a context -/

variable {lines front : List String} {p q : Progress} {c d : Context} {e : SourceError}

theorem run_append_of_ok (h : front.foldlM step p c = (.ok q, d)) (rest : List String) :
    (front ++ rest).foldlM step p c = rest.foldlM step q d := by
  induction front generalizing p c with
  | nil =>
      cases h
      rfl
  | cons line front ih =>
      obtain ⟨p', c', hstep, hrun⟩ := bind_ok_iff.mp h
      rw [List.cons_append, List.foldlM_cons, bind_of_ok hstep]
      exact ih hrun

theorem open_initial : initial.Open :=
  nofun

theorem Step.open {p q : Progress} {line : List Char} (h : Step p line q) : q.Open := by
  intro b hb
  have htake (d : Document) (b' : ZoneBlock) (h : (take d b').unfinished = some b) :
      b.isComplete = false := Bool.eq_false_iff.mpr (not_isComplete_of_take h)
  cases h with
  | blank _ | link _ => cases hb
  | header _ _ | skip _ | entry _ _ => exact htake _ _ hb

theorem open_of_step {line : String} (h : p.step line c = (.ok q, d)) : q.Open :=
  ((reads_step p line c q).mp (by rw [h])).open

variable {n : LineCount} (spans : List String)

/-- Lines that are read move the context on by their number. -/
theorem eq_of_run_ok (hopen : p.Open) (h : lines.foldlM step p ⟨n, p.labels spans⟩ = (.ok q, d)) :
    q.Open ∧ d = ⟨n.skip lines.length, q.labels spans⟩ := by
  induction lines generalizing p n with
  | nil =>
      cases h
      exact ⟨hopen, rfl⟩
  | cons line lines ih =>
      obtain ⟨p', c', hstep, hrun⟩ := bind_ok_iff.mp h
      rw [(movesOn_step hopen line n spans).ok hstep] at hrun
      exact ih (open_of_step hstep) hrun

/-- Lines that are not read begin with lines that are, and then comes the line of the error. -/
theorem exists_of_run_error (hopen : p.Open)
    (h : lines.foldlM step p ⟨n, p.labels spans⟩ = (.error e, d)) :
    ∃ front line rest q, lines = front ++ line :: rest ∧ q.Open ∧
      front.foldlM step p ⟨n, p.labels spans⟩ = (.ok q, ⟨n.skip front.length, q.labels spans⟩) ∧
      q.step line ⟨n.skip front.length, q.labels spans⟩ = (.error e, d) := by
  induction lines generalizing p n with
  | nil => cases h
  | cons line lines ih =>
      rcases bind_error_iff.mp h with hstep | ⟨p', c', hstep, hrun⟩
      · exact ⟨[], line, lines, p, rfl, hopen, rfl, hstep⟩
      · have hmoved := (movesOn_step hopen line n spans).ok hstep
        rw [hmoved] at hrun
        obtain ⟨front, line', rest, q, rfl, hq, hfront, hline⟩ := ih (open_of_step hstep) hrun
        refine ⟨line :: front, line', rest, q, rfl, hq, ?_, hline⟩
        rw [List.foldlM_cons, bind_of_ok hstep, hmoved]
        exact hfront

/-! ## What has been read -/

/-- The lines hold what has been read: zones and links and nothing else, or after these the first
lines of a zone all of whose entries have an end. -/
inductive Holds : Progress → List (List Char) → Prop
  | closed {d : Document} {lines : List (List Char)} : d.WellFormed →
      Document.Lines d.zones d.links lines → Holds ⟨d, none⟩ lines
  | opened {d : Document} {b : ZoneBlock} {front block : List (List Char)} : d.WellFormed →
      Document.Lines d.zones d.links front → b.IsWrittenIn block →
      (∀ e ∈ b.entries, e.WellFormed ∧ e.ends ≠ none) → Holds ⟨d, some b⟩ (front ++ block)

end Progress

theorem EntryLines.append {es fs : List Entry} {lines more : List (List Char)}
    (h : EntryLines es lines) (h' : EntryLines fs more) :
    EntryLines (es ++ fs) (lines ++ more) := by
  induction h with
  | nil => exact h'
  | blank hblank _ ih => exact .blank hblank ih
  | entry hentry _ ih => exact .entry hentry ih

theorem Document.Lines.append {zones zones' : List ZoneBlock}
    {links links' : List (String × String)} {lines more : List (List Char)}
    (h : Lines zones links lines) (h' : Lines zones' links' more) :
    Lines (zones ++ zones') (links ++ links') (lines ++ more) := by
  induction h with
  | nil => exact h'
  | blank hblank _ ih => exact .blank hblank ih
  | link hlink _ ih => exact .link hlink ih
  | zone hheader hes _ ih =>
      rw [List.cons_append, List.cons_append, List.append_assoc]
      exact .zone hheader hes ih

theorem ZoneBlock.IsWrittenIn.append {b : ZoneBlock} {block more : List (List Char)}
    {es : List Entry} (h : b.IsWrittenIn block) (hes : EntryLines es more) :
    IsWrittenIn { b with entries := b.entries ++ es } (block ++ more) := by
  obtain ⟨e, front, line, further, hentries, rfl, hheader, hfurther⟩ := h
  exact ⟨e, front ++ es, line, further ++ more, by rw [hentries, List.cons_append], rfl, hheader,
    hfurther.append hes⟩

namespace Progress

variable {p q : Progress} {read lines : List (List Char)}

theorem take_of_ends {d : Document} {b : ZoneBlock} (h : ∀ e ∈ b.entries, e.ends ≠ none) :
    take d b = ⟨d, some b⟩ := by
  refine if_neg ?_
  rw [ZoneBlock.isComplete]
  split
  next e hlast => simpa using h e (List.mem_of_getLast? hlast)
  next => decide

/-- A zone whose lines have been read so far is held by them, whether it is complete or not. -/
theorem Holds.take {d : Document} {b : ZoneBlock} {front block : List (List Char)}
    (hd : d.WellFormed) (hlines : Document.Lines d.zones d.links front)
    (hblock : b.IsWrittenIn block) (hwf : ∀ e ∈ b.entries, e.WellFormed)
    (hends : ∀ e ∈ b.entries.dropLast, e.ends ≠ none) :
    Holds (Progress.take d b) (front ++ block) := by
  obtain ⟨e, es, line, further, hentries, rfl, hheader, hfurther⟩ := id hblock
  obtain ⟨init, last, hlast⟩ : ∃ init last, b.entries = init ++ [last] :=
    ⟨_, _, (List.dropLast_concat_getLast (hentries ▸ List.cons_ne_nil e es)).symm⟩
  rw [hlast, List.dropLast_concat] at hends
  obtain ⟨identifier, entries⟩ := b
  dsimp only at hentries hlast hheader hwf
  by_cases hcomplete : last.ends = none
  · have hterminated : Terminated entries := by
      rw [hlast]
      exact terminated_concat_iff.mpr ⟨hends, hcomplete⟩
    have hzone : ZoneBlock.WellFormed ⟨identifier, entries⟩ :=
      ⟨hheader.identifier, hwf, hterminated⟩
    rw [take_of_terminated hterminated]
    refine .closed ⟨?_, hd.links⟩ ?_
    · exact List.forall_mem_append.mpr ⟨hd.zones, List.forall_mem_singleton.mpr hzone⟩
    · have hlines' := hlines.append (.zone hheader hfurther .nil)
      rwa [List.append_nil, List.append_nil, ← hentries] at hlines'
  · have hends : ∀ f ∈ entries, f.ends ≠ none := by
      rw [hlast]
      exact List.forall_mem_append.mpr ⟨hends, List.forall_mem_singleton.mpr hcomplete⟩
    rw [take_of_ends hends]
    exact .opened hd hlines hblock fun f hf => ⟨hwf f hf, hends f hf⟩

theorem Holds.step {line : List Char} (h : Holds p read) (hstep : Step p line q) :
    Holds q (read ++ [line]) := by
  cases h with
  | closed hd hlines =>
      cases hstep with
      | blank hblank =>
          have hlines' := hlines.append (.blank hblank .nil)
          rw [List.append_nil, List.append_nil] at hlines'
          exact .closed hd hlines'
      | link hlink =>
          have hlines' := hlines.append (.link hlink .nil)
          rw [List.append_nil] at hlines'
          refine .closed ⟨hd.zones, ?_⟩ hlines'
          exact List.forall_mem_append.mpr ⟨hd.links, List.forall_mem_singleton.mpr hlink.isName⟩
      | @header _ identifier e _ he hheader =>
          refine Holds.take (b := ⟨identifier, [e]⟩) hd hlines ?_ ?_ (by simp)
          · exact ⟨e, [], line, [], rfl, rfl, hheader, .nil⟩
          · exact List.forall_mem_singleton.mpr he
  | @opened d b front block hd hlines hblock hentries =>
      have hwf (f : Entry) (hf : f ∈ b.entries) : f.WellFormed := (hentries f hf).1
      rw [List.append_assoc]
      cases hstep with
      | skip hblank =>
          have hblock' := hblock.append (.blank hblank .nil)
          rw [List.append_nil] at hblock'
          exact Holds.take hd hlines hblock' hwf fun f hf =>
            (hentries f (List.dropLast_subset _ hf)).2
      | @entry _ _ e _ he hentry =>
          refine Holds.take hd hlines (hblock.append (.entry hentry .nil)) ?_ ?_
          · exact List.forall_mem_append.mpr ⟨hwf, List.forall_mem_singleton.mpr he⟩
          · rw [List.dropLast_concat]
            exact fun f hf => (hentries f hf).2

theorem Holds.run (h : Holds p read) (hrun : Run p lines q) : Holds q (read ++ lines) := by
  induction hrun generalizing read with
  | nil => rwa [List.append_nil]
  | cons hstep _ ih =>
      rw [List.append_cons]
      exact ih (h.step hstep)

/-- What has been read of lines is what they hold. -/
theorem run_iff_holds : initial.Run lines p ↔ Holds p lines := by
  have hempty : Holds initial [] := .closed ⟨nofun, nofun⟩ .nil
  constructor
  · exact hempty.run
  · intro h
    cases h with
    | closed hd hlines => exact run_lines hlines hd.zones ⟨[], []⟩
    | @opened d b front block hd hlines hblock hentries =>
        obtain ⟨identifier, _⟩ := b
        obtain ⟨e, es, line, further, rfl, rfl, hheader, hfurther⟩ := hblock
        obtain ⟨he, hes⟩ := List.forall_mem_cons.mp hentries
        have hends : ∀ f ∈ e :: es, f.ends ≠ none := fun f hf => (hentries f hf).2
        have hfurther := run_entryLines d identifier hfurther (List.cons_ne_nil e [])
          (fun f hf => hends f (List.dropLast_subset _ hf)) fun f hf => (hes f hf).1
        have htake : take d ⟨identifier, [e] ++ es⟩ = ⟨d, some ⟨identifier, e :: es⟩⟩ :=
          take_of_ends hends
        rw [htake] at hfurther
        exact (run_lines hlines hd.zones ⟨[], []⟩).append (.cons (.header he.1 hheader) hfurther)

theorem holds_of_run {c : Context}
    (h : (lines.map String.ofList).foldlM step initial Context.initial = (.ok q, c)) :
    Holds q lines := by
  have hrun := (reads_run (lines.map String.ofList) initial Context.initial q).mp (by rw [h])
  rw [map_toList_ofList] at hrun
  exact run_iff_holds.mp hrun

/-- Where the reading of a source is once so many lines have been read. -/
def context (q : Progress) (n : Nat) : Context :=
  ⟨LineCount.first.skip n, q.labels ["undefined"]⟩

theorem word_context (q : Progress) (n : Nat) : (q.context n).count.word = .ofNat (n + 1) := by
  rw [← UInt32.toNat_inj, context, LineCount.toNat_skip, UInt32.toNat_ofNat', Nat.add_comm]
  rfl

/-- Lines that hold something are read, up to the line behind them. -/
theorem run_of_holds (h : Holds q lines) :
    (lines.map String.ofList).foldlM step initial Context.initial =
      (.ok q, q.context lines.length) := by
  have hok := (reads_run (lines.map String.ofList) initial Context.initial q).mpr (by
    rw [map_toList_ofList]
    exact run_iff_holds.mpr h)
  rcases hrun : (lines.map String.ofList).foldlM step initial Context.initial with ⟨_ | q', c⟩
  · rw [hrun] at hok
    cases hok
  · rw [hrun] at hok
    obtain rfl : q' = q := Except.ok.inj hok
    rw [(eq_of_run_ok ["undefined"] open_initial hrun).2, List.length_map]
    rfl

theorem Holds.unique (h : Holds p lines) (h' : Holds q lines) : p = q := by
  have hrun := run_of_holds h
  rw [run_of_holds h'] at hrun
  exact (Except.ok.inj (congrArg Prod.fst hrun)).symm

theorem Holds.open (h : Holds p lines) : p.Open :=
  (eq_of_run_ok ["undefined"] open_initial (run_of_holds h)).1

end Progress

namespace Document

open Progress

/-! ## The line of an error -/

variable {text : String} {q : Progress} {e : SourceError}

/-- The lines are over, and a zone still waits for the line that ends it. -/
def AwaitsEntry (lines : List (List Char)) : Prop :=
  ∃ d b, Holds ⟨d, some b⟩ lines

theorem awaitsEntry_iff {lines : List (List Char)} (h : Holds q lines) :
    AwaitsEntry lines ↔ q.unfinished.isSome = true := by
  rw [Option.isSome_iff_exists]
  constructor
  · rintro ⟨d, b, hholds⟩
    exact ⟨b, congrArg unfinished (h.unique hholds)⟩
  · rintro ⟨b, hb⟩
    obtain ⟨d, _⟩ := q
    cases hb
    exact ⟨d, b, h⟩

/-- A source that is read to its end is refused only in the middle of a zone. -/
theorem parse_of_holds (h : Holds q (linesOf text.toList)) :
    parse text = if q.unfinished.isSome then
      .error (.endOfLine (.ofNat ((linesOf text.toList).length + 1)) "zone table")
    else .ok q.document := by
  rw [parse, ofLines, Text.lines, bind_of_ok (run_of_holds h), ← q.word_context]
  obtain ⟨d, b | b⟩ := q
  · rfl
  · rfl

/-- Lines after the line of an error have no part in it. -/
theorem parse_eq_error {front rest : List (List Char)} {line : List Char} (h : Holds q front)
    (hline : (q.step (.ofList line) (q.context front.length)).1 = .error e)
    (htext : linesOf text.toList = front ++ line :: rest) : parse text = .error e := by
  rcases hstep : q.step (.ofList line) (q.context front.length) with ⟨r, c⟩
  obtain rfl : r = .error e := by
    rw [hstep] at hline
    exact hline
  rw [parse, ofLines, Text.lines, htext, List.map_append, List.map_cons]
  refine congrArg Prod.fst (bind_of_error (d := c) ?_)
  rw [run_append_of_ok (run_of_holds h), List.foldlM_cons, bind_of_error hstep]

/-- What comes before the line of an error has been read. Then comes a line that cannot be read, or
the end of the lines in the middle of a zone. -/
theorem exists_of_parse_error (h : parse text = .error e) :
    ∃ front rest q, linesOf text.toList = front ++ rest ∧
      e.line = (front.length + 1) % 2 ^ 32 ∧ Holds q front ∧
      ((∃ line rest', rest = line :: rest' ∧
        (q.step (.ofList line) (q.context front.length)).1 = .error e) ∨
        rest = [] ∧ q.unfinished.isSome = true ∧
          e = .endOfLine (.ofNat (front.length + 1)) "zone table") := by
  rcases hrun : (Text.lines text).foldlM step initial Context.initial with ⟨e' | q, c⟩
  · obtain ⟨front, line, rest, q, hlines, hq, hfront, hline⟩ :=
      exists_of_run_error ["undefined"] open_initial hrun
    obtain rfl : e' = e := by
      rw [parse, ofLines, bind_of_error hrun] at h
      exact Except.error.inj h
    obtain ⟨front, _, hsplit, rfl, hrest⟩ := List.map_eq_append_iff.mp hlines
    obtain ⟨line, rest, rfl, rfl, -⟩ := List.map_eq_cons_iff.mp hrest
    rw [List.length_map] at hline
    have hnumber : e'.line = (front.length + 1) % 2 ^ 32 := by
      rw [((movesOn_step hq _ _ ["undefined"]).error hline).line, ← UInt32.toNat_ofNat',
        ← q.word_context]
      rfl
    refine ⟨front, line :: rest, q, hsplit, hnumber, holds_of_run hfront,
      Or.inl ⟨line, rest, rfl, ?_⟩⟩
    exact congrArg Prod.fst hline
  · have hholds : Holds q (linesOf text.toList) := holds_of_run hrun
    rw [parse_of_holds hholds] at h
    split at h
    next hopen =>
      cases h
      exact ⟨_, [], q, (List.append_nil _).symm, UInt32.toNat_ofNat', hholds,
        Or.inr ⟨rfl, hopen, rfl⟩⟩
    next => cases h

/-! ## Lines that can be counted -/

theorem exists_count_ofLines (text : String) : ∃ n, n ≤ (linesOf text.toList).length ∧
    (ofLines (Text.lines text) Context.initial).2.count = LineCount.first.skip n := by
  have hlength : (Text.lines text).length = (linesOf text.toList).length := List.length_map _
  rw [← hlength]
  rcases hrun : (Text.lines text).foldlM step initial Context.initial with ⟨e | q, c⟩
  · obtain ⟨front, line, rest, q, hlines, hq, -, hline⟩ :=
      exists_of_run_error ["undefined"] open_initial hrun
    refine ⟨front.length, by simp [hlines], ?_⟩
    rw [ofLines, bind_of_error hrun]
    exact ((movesOn_step hq _ _ ["undefined"]).error hline).place
  · obtain ⟨-, rfl⟩ := eq_of_run_ok ["undefined"] open_initial hrun
    refine ⟨(Text.lines text).length, Nat.le_refl _, ?_⟩
    rw [ofLines, bind_of_ok hrun]
    obtain ⟨d, b | b⟩ := q
    · rfl
    · rfl

/-- A source is read alike where sums are checked, if all its lines and the end have a number. -/
theorem checked_ofLines {text : String} (h : (linesOf text.toList).length < 2 ^ 32 - 1) :
    ((ofLines (Text.lines text)).checked 1 ["undefined"]).map Prod.fst = some (parse text) := by
  obtain ⟨n, hn, hcount⟩ := exists_count_ofLines text
  refine map_fst_checked fun hnone => ?_
  have hover := (checked_eq_none_iff hcount).mp hnone
  have hone : (1 : UInt32).toNat = 1 := rfl
  omega

/-! ## Errors name their lines -/

/-- The text in which every line is ended by a line feed. -/
def ended (lines : List (List Char)) : String :=
  String.ofList (lines.flatMap (· ++ ['\n']))

theorem linesOf_ended {lines : List (List Char)} (h : ∀ l ∈ lines, '\n' ∉ l ∧ '\r' ∉ l) :
    linesOf (ended lines).toList = lines := by
  rw [ended, String.toList_ofList, linesOf_eq_iff.mpr (lined_flatMap h)]

theorem parse_ended {lines : List (List Char)} (hlines : ∀ l ∈ lines, '\n' ∉ l ∧ '\r' ∉ l)
    (h : Holds q lines) :
    (AwaitsEntry lines ∧
        parse (ended lines) = .error (.endOfLine (.ofNat (lines.length + 1)) "zone table")) ∨
      (¬AwaitsEntry lines ∧ ∃ d, parse (ended lines) = .ok d) := by
  have hlinesOf := linesOf_ended hlines
  have hparse := parse_of_holds (hlinesOf.symm ▸ h)
  rw [hlinesOf] at hparse
  rw [awaitsEntry_iff h, hparse]
  by_cases hopen : q.unfinished.isSome = true
  · exact Or.inl ⟨hopen, if_pos hopen⟩
  · exact Or.inr ⟨hopen, q.document, if_neg hopen⟩

/-- An error names its line, and depends on the lines up to it alone: it is on one of the lines or
right behind them, other lines after it make no difference, and the lines before it are read
without an error of their own, unless a zone waits for its next line there. Behind the last line
this is the only error. There may be as many lines as there are numbers for them, with one more
for the end. -/
theorem parse_error_names_line {lines : List (List Char)}
    (hlines : ∀ l ∈ lines, '\n' ∉ l ∧ '\r' ∉ l) (hcount : lines.length < 2 ^ 32 - 1)
    (h : parse (ended lines) = .error e) :
    (1 ≤ e.line ∧ e.line ≤ lines.length + 1) ∧
    (e.line ≤ lines.length → ∀ text : String,
      (linesOf text.toList).take e.line = lines.take e.line → parse text = .error e) ∧
    ((AwaitsEntry (lines.take (e.line - 1)) ∧
        parse (ended (lines.take (e.line - 1))) =
          .error (.endOfLine (.ofNat e.line) "zone table")) ∨
      (¬AwaitsEntry (lines.take (e.line - 1)) ∧
        ∃ d, parse (ended (lines.take (e.line - 1))) = .ok d)) ∧
    (e.line = lines.length + 1 →
      AwaitsEntry lines ∧ e = .endOfLine (.ofNat e.line) "zone table") := by
  obtain ⟨front, rest, q, hsplit, hline, hholds, hrest⟩ := exists_of_parse_error h
  rw [linesOf_ended hlines] at hsplit
  subst hsplit
  rw [List.length_append] at hcount ⊢
  rw [Nat.mod_eq_of_lt (by omega)] at hline
  have htake : (front ++ rest).take (e.line - 1) = front := by
    rw [hline, Nat.add_sub_cancel, List.take_left]
  have hended := parse_ended (fun l hl => hlines l (List.mem_append_left _ hl)) hholds
  rw [← hline] at hended hrest
  rw [htake]
  refine ⟨⟨by omega, by omega⟩, fun hle text htext => ?_, hended, fun hend => ?_⟩
  · rcases hrest with ⟨line, rest, rfl, hstep⟩ | ⟨rfl, -, -⟩
    · have hsame : linesOf text.toList = front ++ line :: (linesOf text.toList).drop e.line := by
        have hfront : front.length + 1 = (front ++ [line]).length := by simp
        rw [List.append_cons, hline, hfront, List.take_left] at htext
        rw [List.append_cons, ← htext, hline, hfront, List.take_append_drop]
      exact parse_eq_error hholds hstep hsame
    · rw [List.length_nil] at hle
      omega
  · obtain rfl : rest = [] := List.length_eq_zero_iff.mp (by omega)
    rcases hrest with ⟨line, rest, hcons, -⟩ | ⟨-, hopen, hend⟩
    · cases hcons
    · rw [List.append_nil, awaitsEntry_iff hholds]
      exact ⟨hopen, hend⟩

/-- A zone that goes on after a comment. -/
def unfinishedZone : List (List Char) :=
  ["Zone Test/Zone 1:00 - TST 2000".toList, "# comment".toList]

/-- Without its third line the source fails behind its end, and with one that has a column too many
it fails there, whatever comes next. -/
theorem third_line_of_zone_is_misread :
    let line := " 2:00 - X 2001 Foo".toList
    parse (ended unfinishedZone) = .error (.endOfLine 3 "zone table") ∧
      AwaitsEntry unfinishedZone ∧
      parse (ended (unfinishedZone ++ [line])) = .error (.unknownValue 3 "Foo") ∧
      ∀ rest : List (List Char), (∀ l ∈ rest, '\n' ∉ l ∧ '\r' ∉ l) →
        parse (ended (unfinishedZone ++ line :: rest)) = .error (.unknownValue 3 "Foo") := by
  intro line
  have hended : parse (ended unfinishedZone) = .error (.endOfLine 3 "zone table") := by
    decide +kernel
  have hmisread : parse (ended (unfinishedZone ++ [line])) = .error (.unknownValue 3 "Foo") := by
    decide +kernel
  have hlines : ∀ l ∈ unfinishedZone ++ [line], '\n' ∉ l ∧ '\r' ∉ l := by decide
  obtain ⟨-, -, -, hends⟩ := parse_error_names_line
    (fun l hl => hlines l (List.mem_append_left _ hl)) (by decide) hended
  obtain ⟨-, hshares, -, -⟩ := parse_error_names_line hlines (by decide) hmisread
  refine ⟨hended, (hends rfl).1, hmisread, fun rest hrest => hshares (by decide) _ ?_⟩
  rw [linesOf_ended]
  · rfl
  · rw [List.append_cons]
    exact List.forall_mem_append.mpr ⟨hlines, hrest⟩

end Document

end ZoneHistory.Source
