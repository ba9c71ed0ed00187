import ZoneHistory.Proofs.Source.Lines

/-!
# Documents and the lines they are written in

Reading lines one after the other finds a document precisely if the lines are a way to
write it. The link between the two is `Continues`, which says what the lines that are
left hold when a zone may still be open: first the further entries of that zone, up to
the one that has no end, and then zones and links.

From this follows `Document.parse_eq_ok_iff`: a text is read as a document precisely if
the document is well formed and written in the text.
-/

namespace ZoneHistory.Source

open Text Progress

/-! ## Open zones -/

theorem terminated_concat_iff {es : List Entry} {e : Entry} :
    Terminated (es ++ [e]) ↔ (∀ f ∈ es, f.ends ≠ none) ∧ e.ends = none := by
  rw [Terminated, List.dropLast_concat, List.getLast?_concat]
  simp

theorem terminated_append_iff {front es : List Entry} (hne : es ≠ []) :
    Terminated (front ++ es) ↔ (∀ e ∈ front, e.ends ≠ none) ∧ Terminated es := by
  rw [← List.dropLast_concat_getLast hne]
  rw [← List.append_assoc, terminated_concat_iff, terminated_concat_iff, List.forall_mem_append,
    and_assoc]

theorem Terminated.ne_nil {es : List Entry} (h : Terminated es) : es ≠ [] := by
  rintro rfl
  obtain ⟨-, e, he, -⟩ := h
  cases he

/-- A zone is open as long as its last entry has an end. -/
theorem isComplete_append_iff {identifier : String} {es : List Entry} {e : Entry} :
    (⟨identifier, es ++ [e]⟩ : ZoneBlock).isComplete = true ↔ e.ends = none := by
  simp [ZoneBlock.isComplete]

theorem Terminated.isComplete {b : ZoneBlock} (h : Terminated b.entries) : b.isComplete = true := by
  obtain ⟨-, e, hlast, he⟩ := h
  rw [ZoneBlock.isComplete, hlast]
  exact Option.isNone_iff_eq_none.mpr he

theorem take_of_terminated {d : Document} {b : ZoneBlock} (h : Terminated b.entries) :
    take d b = ⟨{ d with zones := d.zones ++ [b] }, none⟩ :=
  if_pos h.isComplete

theorem not_isComplete_of_take {d : Document} {b b' : ZoneBlock}
    (h : (take d b).unfinished = some b') : ¬b'.isComplete = true := by
  rw [take] at h
  split at h
  · cases h
  next hopen =>
    cases h
    exact hopen

/-- A blank line is skipped within a zone as well as between zones. -/
theorem step_blank {d : Document} {b : ZoneBlock} {line : List Char} (h : BlankLine line) :
    Step (take d b) line (take d b) := by
  have hskip := Step.skip (d := d) (b := b) h
  rw [take] at hskip ⊢
  split
  · exact .blank h
  next hopen => rwa [if_neg hopen] at hskip

/-! ## What the lines that are left hold -/

inductive Continues : Progress → List (List Char) → Document → Prop
  | closed {d : Document} {zones : List ZoneBlock} {links : List (String × String)}
      {lines : List (List Char)} : Document.Lines zones links lines → (∀ b ∈ zones, b.WellFormed) →
      Continues ⟨d, none⟩ lines ⟨d.zones ++ zones, d.links ++ links⟩
  | opened {d d' : Document} {b : ZoneBlock} {es : List Entry}
      {further lines : List (List Char)} : EntryLines es further → Terminated es →
      (∀ e ∈ es, e.WellFormed) →
      Continues ⟨{ d with zones := d.zones ++ [{ b with entries := b.entries ++ es }] }, none⟩
        lines d' →
      Continues ⟨d, some b⟩ (further ++ lines) d'

/-- After an entry, the other entries of its zone are left and then further lines. -/
theorem Continues.of_take {d d' : Document} {identifier : String} {front : List Entry} {e : Entry}
    {lines : List (List Char)} (h : Continues (take d ⟨identifier, front ++ [e]⟩) lines d') :
    ∃ es further rest, lines = further ++ rest ∧ EntryLines es further ∧ Terminated (e :: es) ∧
      (∀ f ∈ es, f.WellFormed) ∧
        Continues ⟨{ d with zones := d.zones ++ [⟨identifier, front ++ e :: es⟩] }, none⟩ rest
          d' := by
  by_cases he : e.ends = none
  · rw [take, if_pos (isComplete_append_iff.mpr he)] at h
    have hterminated : Terminated ([] ++ [e]) := terminated_concat_iff.mpr ⟨by simp, he⟩
    exact ⟨[], [], lines, rfl, .nil, hterminated, by simp, h⟩
  · rw [take, if_neg (isComplete_append_iff.not.mpr he)] at h
    cases h with
    | @opened _ _ _ es further lines hes hterminated hwf h =>
        have hcons : Terminated ([e] ++ es) :=
          (terminated_append_iff hterminated.ne_nil).mpr ⟨by simpa using he, hterminated⟩
        refine ⟨es, further, lines, rfl, hes, hcons, hwf, ?_⟩
        simpa using h

theorem HeaderLine.identifier {identifier : String} {e : Entry} {line : List Char}
    (h : HeaderLine identifier e line) :
    IsWord isAsciiBlank identifier.toList ∧ '#' ∉ identifier.toList := by
  cases h with
  | mk _ _ _ hid _ _ _ hcomment =>
      exact ⟨hid, fun hmem => hcomment.not_mem (by simp [hmem])⟩

theorem LinkLine.isName {name target : String} {line : List Char} (h : LinkLine name target line) :
    Document.IsName name ∧ Document.IsName target := by
  obtain ⟨content, hcomment, extra, hspaced⟩ := h
  have hname {s : String} (hs : s.toList ∈ "Link".toList :: target.toList :: name.toList :: extra) :
      Document.IsName s :=
    ⟨hspaced.isWord _ hs, fun h => hcomment.not_mem (hspaced.mem _ hs _ h)⟩
  exact ⟨hname (.tail _ (.tail _ (.head _))), hname (.tail _ (.head _))⟩

/-- Whatever the lines lead to is what they hold. -/
theorem Continues.of_run {p q : Progress} {lines : List (List Char)} {d' : Document}
    (h : Run p lines q) (hq : q = ⟨d', none⟩)
    (hopen : ∀ b, p.unfinished = some b → ¬b.isComplete = true) : Continues p lines d' := by
  induction h with
  | nil =>
      subst hq
      have h := Continues.closed (d := d') .nil (by simp)
      rwa [List.append_nil, List.append_nil] at h
  | cons hstep _ ih =>
      cases hstep with
      | blank hblank =>
          cases ih hq nofun with
          | closed hlines hwf => exact .closed (.blank hblank hlines) hwf
      | link hlink =>
          cases ih hq nofun with
          | closed hlines hwf =>
              rw [List.append_assoc]
              exact .closed (.link hlink hlines) hwf
      | @skip d b line hblank =>
          have hcont := ih hq fun _ => not_isComplete_of_take
          rw [take, if_neg (hopen b rfl)] at hcont
          cases hcont with
          | opened hes hterminated hwf h => exact .opened (.blank hblank hes) hterminated hwf h
      | @header d identifier e line he hheader =>
          obtain ⟨es, further, rest, rfl, hes, hterminated, hwf, h⟩ :=
            (show Continues (take d ⟨identifier, [] ++ [e]⟩) _ _ from
              ih hq fun _ => not_isComplete_of_take).of_take
          cases h with
          | closed hlines hzones =>
              have hzone : (⟨identifier, e :: es⟩ : ZoneBlock).WellFormed :=
                ⟨hheader.identifier, List.forall_mem_cons.mpr ⟨he, hwf⟩, hterminated⟩
              rw [List.append_assoc]
              exact .closed (.zone hheader hes hlines) (List.forall_mem_cons.mpr ⟨hzone, hzones⟩)
      | entry he hentry =>
          obtain ⟨es, further, rest, rfl, hes, hterminated, hwf, h⟩ :=
            (ih hq fun _ => not_isComplete_of_take).of_take
          exact .opened (.entry hentry hes) hterminated (List.forall_mem_cons.mpr ⟨he, hwf⟩) h

/-! ## Reading what is written -/

/-- The further entries of a zone are read one after the other. -/
theorem run_entryLines (d : Document) (identifier : String) {es : List Entry}
    {lines : List (List Char)} (h : EntryLines es lines) : ∀ {front : List Entry}, front ≠ [] →
      (∀ e ∈ (front ++ es).dropLast, e.ends ≠ none) → (∀ e ∈ es, e.WellFormed) →
      Run (take d ⟨identifier, front⟩) lines (take d ⟨identifier, front ++ es⟩) := by
  induction h with
  | nil =>
      intro front _ _ _
      rw [List.append_nil]
      exact .nil
  | blank hblank _ ih =>
      intro front hne hends hwf
      exact .cons (step_blank hblank) (ih hne hends hwf)
  | @entry e es line lines hentry _ ih =>
      intro front hne hends hwf
      obtain ⟨he, hwf⟩ := List.forall_mem_cons.mp hwf
      obtain ⟨init, last, rfl⟩ : ∃ init last, front = init ++ [last] :=
        ⟨_, _, (List.dropLast_concat_getLast hne).symm⟩
      have hlast : last.ends ≠ none := hends last (by simp)
      rw [List.append_cons (init ++ [last]) e es] at hends ⊢
      refine .cons ?_ (ih (by simp) hends hwf)
      rw [take, if_neg (isComplete_append_iff.not.mpr hlast)]
      exact .entry he hentry

theorem run_lines {zones : List ZoneBlock} {links : List (String × String)}
    {lines : List (List Char)} (h : Document.Lines zones links lines) :
    (∀ b ∈ zones, b.WellFormed) → ∀ d : Document,
      Run ⟨d, none⟩ lines ⟨⟨d.zones ++ zones, d.links ++ links⟩, none⟩ := by
  induction h with
  | nil =>
      intro _ d
      rw [List.append_nil, List.append_nil]
      exact .nil
  | blank hblank _ ih =>
      intro hwf d
      exact .cons (.blank hblank) (ih hwf d)
  | link hlink _ ih =>
      intro hwf d
      rw [List.append_cons]
      exact .cons (.link hlink) (ih hwf _)
  | @zone zones links identifier e es line further lines hheader hes _ ih =>
      intro hwf d
      obtain ⟨hzone, hwf⟩ := List.forall_mem_cons.mp hwf
      obtain ⟨he, hentries⟩ := List.forall_mem_cons.mp hzone.entries
      have hrun : Run (take d ⟨identifier, [e]⟩) further (take d ⟨identifier, e :: es⟩) :=
        run_entryLines d identifier hes (List.cons_ne_nil e []) hzone.terminated.1 hentries
      rw [take_of_terminated hzone.terminated] at hrun
      rw [List.append_cons]
      exact .cons (.header he hheader) (hrun.append (ih hwf _))

theorem isName_of_lines {zones : List ZoneBlock} {links : List (String × String)}
    {lines : List (List Char)} (h : Document.Lines zones links lines) :
    ∀ link ∈ links, Document.IsName link.1 ∧ Document.IsName link.2 := by
  induction h with
  | nil => nofun
  | blank _ _ ih => exact ih
  | zone _ _ _ ih => exact ih
  | link hlink _ ih => exact List.forall_mem_cons.mpr ⟨hlink.isName, ih⟩

namespace Document

/-- A text is read as a document precisely if the document is well formed and written in the
text. -/
theorem parse_eq_ok_iff {text : String} {d : Document} :
    parse text = .ok d ↔ d.WellFormed ∧ d.Written text := by
  rw [parse_eq_ok_iff_run]
  constructor
  · intro h
    have hcont : Continues ⟨⟨[], []⟩, none⟩ (linesOf text.toList) d := .of_run h rfl nofun
    have hlined : Lined (linesOf text.toList) text.toList := linesOf_eq_iff.mp rfl
    generalize linesOf text.toList = lines at hcont hlined
    cases hcont with
    | closed hlines hwf => exact ⟨⟨hwf, isName_of_lines hlines⟩, lines, hlined, hlines⟩
  · rintro ⟨hwf, lines, hlined, hlines⟩
    rw [linesOf_eq_iff.mpr hlined]
    exact run_lines hlines hwf.zones ⟨[], []⟩

end Document

/-! ## Cutting out a zone -/

/-- The lines are those of the zone: its header and its further lines. -/
def ZoneBlock.IsWrittenIn (b : ZoneBlock) (lines : List (List Char)) : Prop :=
  ∃ e es line further, b.entries = e :: es ∧ lines = line :: further ∧
    HeaderLine b.identifier e line ∧ EntryLines es further

namespace Document

/-- The lines of a zone stand together, and what is left without them holds all the others. -/
theorem Lines.cut {zones : List ZoneBlock} {links : List (String × String)}
    {lines : List (List Char)} (h : Lines zones links lines) :
    ∀ {before rest : List ZoneBlock} {b : ZoneBlock}, zones = before ++ b :: rest →
      ∃ front block back, lines = front ++ block ++ back ∧ b.IsWrittenIn block ∧
        Lines (before ++ rest) links (front ++ back) := by
  induction h with
  | nil =>
      intro before rest b hzones
      simp at hzones
  | @blank _ _ line _ hblank _ ih =>
      intro before rest b hzones
      obtain ⟨front, block, back, rfl, hblock, hlines⟩ := ih hzones
      exact ⟨line :: front, block, back, rfl, hblock, .blank hblank hlines⟩
  | @link _ _ _ _ line _ hlink _ ih =>
      intro before rest b hzones
      obtain ⟨front, block, back, rfl, hblock, hlines⟩ := ih hzones
      exact ⟨line :: front, block, back, rfl, hblock, .link hlink hlines⟩
  | @zone zones links identifier e es line further lines hheader hes hlines ih =>
      intro before rest b hzones
      cases before with
      | nil =>
          obtain ⟨rfl, rfl⟩ := List.cons.inj hzones
          exact ⟨[], line :: further, lines, rfl, ⟨e, es, line, further, rfl, rfl, hheader, hes⟩,
            hlines⟩
      | cons b' before =>
          obtain ⟨rfl, htail⟩ := List.cons.inj hzones
          obtain ⟨front, block, back, rfl, hblock, hrest⟩ := ih htail
          refine ⟨line :: (further ++ front), block, back, by simp, hblock, ?_⟩
          rw [List.cons_append, List.cons_append, List.append_assoc]
          exact .zone hheader hes hrest

/-- A source without the lines of one zone is read as the document without that zone. -/
theorem parse_cut {text : String} {d : Document} (h : parse text = .ok d)
    {before rest : List ZoneBlock} {b : ZoneBlock} (hzones : d.zones = before ++ b :: rest) :
    ∃ front block back, linesOf text.toList = front ++ block ++ back ∧ b.IsWrittenIn block ∧
      (∃ text' : String, linesOf text'.toList = front ++ back) ∧
      ∀ text' : String, linesOf text'.toList = front ++ back →
        parse text' = .ok { d with zones := before ++ rest } := by
  obtain ⟨hwf, lines, hlined, hlines⟩ := parse_eq_ok_iff.mp h
  obtain ⟨front, block, back, rfl, hblock, hrest⟩ := hlines.cut hzones
  refine ⟨front, block, back, linesOf_eq_iff.mpr hlined, hblock, ?_, fun text' htext' => ?_⟩
  · have hfeed : ∀ l ∈ front ++ back, '\n' ∉ l := fun l hl => by
      refine hlined.not_mem_feed l ?_
      rw [List.append_assoc]
      exact ((List.sublist_append_right block back).append_left front).subset hl
    obtain ⟨cs, hcs⟩ := exists_lined hfeed
    exact ⟨String.ofList cs, by rw [String.toList_ofList, linesOf_eq_iff.mpr hcs]⟩
  · refine parse_eq_ok_iff.mpr ⟨⟨fun b' hb' => hwf.zones b' ?_, hwf.links⟩, front ++ back,
      linesOf_eq_iff.mp htext', hrest⟩
    rw [hzones]
    exact ((List.sublist_cons_self b rest).append_left before).subset hb'

end Document

end ZoneHistory.Source
