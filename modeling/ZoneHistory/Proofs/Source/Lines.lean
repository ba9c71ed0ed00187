import ZoneHistory.Proofs.Source.Entries

/-!
# Parsers of lines

What one line does to the progress of reading a source, `Progress.Step`, in terms of
the grammar of lines: a blank line does nothing, a header begins a zone, an entry
continues one and a link is added to the others. `reads_step` says that this is what
`Progress.step` does, and `parse_eq_ok_iff_run` goes on to all lines of a text.

A header is cut at ASCII blanks, and what follows the identifier is put together again
and cut at all blanks. This finds the same columns as cutting the text itself
(`headerLine_iff`).
-/

namespace ZoneHistory.Source

open Text Parse

/-! ## Comments -/

theorem commented_iff {content : List Char} {line : String} :
    Commented content line.toList ↔ (withoutComment line).toList = content := by
  rw [withoutComment]
  constructor
  · generalize hline : line.toList = cs
    intro h
    cases h with
    | bare h =>
        have hsplit : splitOnce? "#" line = none :=
          (splitOnce?_char_eq_none_iff rfl).mpr (hline ▸ h)
        rw [hsplit]
        exact hline
    | @comment text h =>
        have hsplit : splitOnce? "#" line = some (.ofList content, .ofList text) := by
          rw [splitOnce?_char_eq_some_iff rfl, String.toList_ofList, String.toList_ofList]
          exact ⟨hline, h⟩
        rw [hsplit]
        exact String.toList_ofList
  · rintro rfl
    split
    next text rest h =>
      obtain ⟨hline, hmem⟩ := (splitOnce?_char_eq_some_iff rfl).mp h
      rw [hline]
      exact .comment hmem
    next h => exact .bare ((splitOnce?_char_eq_none_iff rfl).mp h)

theorem Commented.not_mem {content line : List Char} (h : Commented content line) :
    '#' ∉ content := by
  cases h with
  | bare h => exact h
  | comment h => exact h

theorem not_mem_withoutComment (line : String) : '#' ∉ (withoutComment line).toList :=
  (commented_iff.mpr rfl).not_mem

theorem exists_commented_iff {line : String} {P : List Char → Prop} :
    (∃ content, Commented content line.toList ∧ P content) ↔ P (withoutComment line).toList := by
  constructor
  · rintro ⟨content, hcontent, h⟩
    rwa [commented_iff.mp hcontent]
  · exact fun h => ⟨_, commented_iff.mpr rfl, h⟩

/-! ## Blank lines, entries and links -/

theorem spaced_nil_iff {separates : Char → Bool} {cs : List Char} :
    Spaced separates [] cs ↔ IsGap separates cs := by
  constructor
  · intro h
    cases h with
    | gap h => exact h
  · exact .gap

theorem blankLine_iff {line : String} :
    BlankLine line.toList ↔ columns (withoutComment line) = [] := by
  rw [columns_eq_iff, BlankLine, exists_commented_iff]
  exact spaced_nil_iff.symm

theorem all_isBlank_iff {line : String} :
    (withoutComment line).toList.all isBlank = true ↔ BlankLine line.toList := by
  rw [List.all_eq_true]
  exact (exists_commented_iff (P := IsGap isBlank)).symm

theorem reads_entryLine (line : String) :
    Reads (Entry.parse (withoutComment line)) fun e => e.WellFormed ∧ EntryLine e line.toList :=
  (Entry.reads_entry (not_mem_withoutComment line)).congr fun e => and_congr_right fun _ =>
    (exists_commented_iff (P := fun cs => ∃ ws, Spaced isBlank ws cs ∧ e.Columns ws)).symm

theorem linkLine_iff {name target line : String} :
    LinkLine name target line.toList ↔
      ∃ extra, columns (withoutComment line) = "Link" :: target :: name :: extra := by
  rw [LinkLine, exists_commented_iff]
  constructor
  · rintro ⟨extra, h⟩
    refine ⟨extra.map .ofList, columns_eq_iff.mpr ?_⟩
    simpa [Function.comp_def] using h
  · rintro ⟨extra, h⟩
    exact ⟨_, columns_eq_iff.mp h⟩

/-! ## Headers -/

theorem spaced_cons_iff {separates : Char → Bool} {w : List Char} {ws : List (List Char)}
    {cs : List Char} : Spaced separates (w :: ws) cs ↔
      ∃ gap rest, cs = gap ++ (w ++ rest) ∧ IsGap separates gap ∧ IsWord separates w ∧
        Detached separates rest ∧ Spaced separates ws rest := by
  constructor
  · intro h
    cases h with
    | word hgap hw hrest h => exact ⟨_, _, rfl, hgap, hw, hrest, h⟩
  · rintro ⟨gap, rest, rfl, hgap, hw, hrest, h⟩
    exact .word hgap hw hrest h

/-- In a header, the words between ASCII blanks may be taken for the text after the identifier. -/
theorem headerLine_iff {identifier line : String} {e : Entry} :
    HeaderLine identifier e line.toList ↔ ∃ ws,
      Spaced isAsciiBlank ("Zone".toList :: identifier.toList :: ws) (withoutComment line).toList ∧
        ∃ cs, Spaced isBlank cs ([' '].intercalate ws) ∧ e.Columns cs := by
  have hjoined (cs : List Char) :
      words isBlank ([' '].intercalate (words isAsciiBlank cs)) = words isBlank cs :=
    words_intercalate_words (fun _ => isBlank_of_isAsciiBlank) (by decide) cs
  constructor
  · generalize hline : line.toList = cs
    intro h
    cases h with
    | @mk lead gap rest line columns hlead hne hgap hid hrest hcolumns he hcomment =>
        refine ⟨words isAsciiBlank rest, ?_, columns, ?_, he⟩
        · rw [commented_iff.mp (hline ▸ hcomment)]
          obtain ⟨c, gap, rfl⟩ := List.exists_cons_of_ne_nil hne
          refine .word hlead (by decide) ?_ (.word hgap hid hrest (spaced_words rest))
          exact hgap c List.mem_cons_self
        · rw [← words_eq_iff, hjoined]
          exact words_eq_iff.mpr hcolumns
  · rintro ⟨ws, h, columns, hcolumns, he⟩
    obtain ⟨lead, _, hcontent, hlead, -, hdetached, h⟩ := spaced_cons_iff.mp h
    obtain ⟨gap, rest, rfl, hgap, hid, hrest, h⟩ := spaced_cons_iff.mp h
    have hne : gap ≠ [] := by
      rintro rfl
      obtain ⟨c, cs, hc⟩ := List.exists_cons_of_ne_nil hid.1
      rw [List.nil_append, hc] at hdetached
      have hword := hid.2 c (by rw [hc]; exact List.mem_cons_self)
      rw [show isAsciiBlank c = true from hdetached] at hword
      cases hword
    refine .mk hlead hne hgap hid hrest ?_ he (commented_iff.mpr hcontent)
    rw [← words_eq_iff, ← hjoined, words_eq_iff.mpr h]
    exact words_eq_iff.mpr hcolumns

theorem columns_of_headerLine {identifier line : String} {e : Entry}
    (h : HeaderLine identifier e line.toList) :
    ∃ rest, columns (withoutComment line) = "Zone" :: rest := by
  obtain ⟨ws, hws, -⟩ := headerLine_iff.mp h
  have hwords := hws.flatMap_words (fun _ => isBlank_of_isAsciiBlank)
  have hzone : words isBlank "Zone".toList = ["Zone".toList] := by decide
  rw [List.flatMap_cons, hzone] at hwords
  refine ⟨(((identifier.toList :: ws).flatMap (words isBlank)).map .ofList), ?_⟩
  rw [columns, ← hwords]
  simp

theorem asciiColumns_of_headerLine {identifier line : String} {e : Entry}
    (h : HeaderLine identifier e line.toList) :
    ∃ rest, asciiColumns (withoutComment line) = "Zone" :: identifier :: rest := by
  obtain ⟨ws, hws, -⟩ := headerLine_iff.mp h
  refine ⟨ws.map .ofList, asciiColumns_eq_iff.mpr ?_⟩
  simpa [Function.comp_def] using hws

theorem reads_header (line : String) :
    Reads (ZoneBlock.parseHeader line) fun r =>
      r.2.WellFormed ∧ HeaderLine r.1 r.2 line.toList := by
  refine Reads.within ?_ "zone header"
  split
  next rest hcolumns =>
    cases rest with
    | nil =>
        refine (reads_fail _).congr fun r => ⟨nofun, fun ⟨_, h⟩ => ?_⟩
        obtain ⟨rest, hrest⟩ := asciiColumns_of_headerLine h
        rw [hcolumns] at hrest
        cases hrest
    | cons identifier rest =>
        have hspaced := asciiColumns_eq_iff.mp hcolumns
        have htext : '#' ∉ (joinBySpace rest).toList := by
          rw [toList_joinBySpace]
          intro h
          rcases mem_intercalate h with h | ⟨w, hw, h⟩
          · exact absurd h (by decide)
          · exact not_mem_withoutComment line
              (hspaced.mem w (List.mem_cons_of_mem _ (List.mem_cons_of_mem _ hw)) _ h)
        refine (Entry.reads_entry htext).map.congr fun r => ?_
        obtain ⟨name, e⟩ := r
        constructor
        · rintro ⟨e, ⟨hwf, cs, hcs, he⟩, heq⟩
          cases heq
          refine ⟨hwf, headerLine_iff.mpr ⟨_, hspaced, cs, ?_, he⟩⟩
          rwa [← toList_joinBySpace]
        · rintro ⟨hwf, h⟩
          obtain ⟨ws, hws, cs, hcs, he⟩ := headerLine_iff.mp h
          have hwords := hspaced.unique hws
          simp only [List.map_cons, List.cons.injEq] at hwords
          obtain ⟨-, hidentifier, rfl⟩ := hwords
          obtain rfl := String.toList_inj.mp hidentifier
          refine ⟨e, ⟨hwf, cs, ?_, he⟩, rfl⟩
          rwa [toList_joinBySpace]
  next hcolumns =>
    refine (reads_fail _).congr fun r => ⟨nofun, fun ⟨_, h⟩ => ?_⟩
    obtain ⟨rest, hrest⟩ := asciiColumns_of_headerLine h
    exact hcolumns _ hrest

/-! ## Progress line by line -/

namespace Progress

/-- What a line does to the progress of reading. -/
inductive Step : Progress → List Char → Progress → Prop
  | blank {d : Document} {line : List Char} : BlankLine line → Step ⟨d, none⟩ line ⟨d, none⟩
  | header {d : Document} {identifier : String} {e : Entry} {line : List Char} : e.WellFormed →
      HeaderLine identifier e line → Step ⟨d, none⟩ line (take d ⟨identifier, [e]⟩)
  | link {d : Document} {name target : String} {line : List Char} : LinkLine name target line →
      Step ⟨d, none⟩ line ⟨{ d with links := d.links ++ [(name, target)] }, none⟩
  | skip {d : Document} {b : ZoneBlock} {line : List Char} : BlankLine line →
      Step ⟨d, some b⟩ line (take d b)
  | entry {d : Document} {b : ZoneBlock} {e : Entry} {line : List Char} : e.WellFormed →
      EntryLine e line → Step ⟨d, some b⟩ line (take d { b with entries := b.entries ++ [e] })

theorem reads_link (rest : List String) :
    Reads (parseLink rest) fun link => ∃ extra, rest = link.2 :: link.1 :: extra := by
  refine Reads.within (((reads_column rest).bind fun r _ => (reads_column r.2).bind fun r' _ =>
    reads_return (r'.1, r.1)).congr fun link => ?_) "Link"
  constructor
  · rintro ⟨⟨target, _⟩, rfl, ⟨name, extra⟩, rfl, rfl⟩
    exact ⟨extra, rfl⟩
  · rintro ⟨extra, rfl⟩
    exact ⟨(_, _), rfl, (_, _), rfl, rfl⟩

theorem reads_advance (b : ZoneBlock) : Reads b.advance (· = b) := by
  have h : Reads (if b.isComplete then (do
      update Context.leave
      return b) else return b) (· = b) := by
    split
    · exact (reads_return b).afterUpdate
    · exact reads_return b
  exact h.afterUpdate

theorem reads_begin (line : String) :
    Reads (ZoneBlock.begin line) fun b => ∃ r : String × Entry,
      (r.2.WellFormed ∧ HeaderLine r.1 r.2 line.toList) ∧ b = ⟨r.1, [r.2]⟩ :=
  ((reads_header line).bind fun r _ => reads_advance ⟨r.1, [r.2]⟩).afterUpdate

theorem not_entryLine_of_blankLine {line : String} (h : BlankLine line.toList) (e : Entry) :
    ¬EntryLine e line.toList := by
  rw [BlankLine, exists_commented_iff] at h
  rintro ⟨content, hcontent, columns, hcolumns, he⟩
  rw [commented_iff.mp hcontent] at h
  obtain rfl := hcolumns.unique (.gap h)
  cases he

theorem reads_extend (b : ZoneBlock) (line : String) :
    Reads (b.extend line) fun b' => BlankLine line.toList ∧ b' = b ∨
      ∃ e, (e.WellFormed ∧ EntryLine e line.toList) ∧
        b' = { b with entries := b.entries ++ [e] } := by
  unfold ZoneBlock.extend
  dsimp only
  split
  next h =>
    rw [all_isBlank_iff] at h
    refine (reads_return b).afterUpdate.congr fun b' => ⟨fun heq => Or.inl ⟨h, heq⟩, ?_⟩
    rintro (⟨-, heq⟩ | ⟨e, ⟨-, he⟩, -⟩)
    · exact heq
    · exact absurd he (not_entryLine_of_blankLine h e)
  next h =>
    rw [all_isBlank_iff] at h
    refine ((reads_entryLine line).bind fun e _ => reads_advance _).congr fun b' => ?_
    exact (or_iff_right fun hb => h hb.1).symm

/-- Outside of a zone, the first column tells the kind of the line. -/
theorem step_none_iff {d : Document} {line : String} {p : Progress} :
    Step ⟨d, none⟩ line.toList p ↔
      columns (withoutComment line) = [] ∧ p = ⟨d, none⟩ ∨
      (∃ rest, columns (withoutComment line) = "Zone" :: rest) ∧
        (∃ b, (∃ r : String × Entry, (r.2.WellFormed ∧ HeaderLine r.1 r.2 line.toList) ∧
          b = ⟨r.1, [r.2]⟩) ∧ p = take d b) ∨
      ∃ rest, columns (withoutComment line) = "Link" :: rest ∧
        ∃ link : String × String, (∃ extra, rest = link.2 :: link.1 :: extra) ∧
          p = ⟨{ d with links := d.links ++ [link] }, none⟩ := by
  constructor
  · intro h
    cases h with
    | blank h => exact Or.inl ⟨blankLine_iff.mp h, rfl⟩
    | header hwf h =>
        exact Or.inr (Or.inl ⟨columns_of_headerLine h, _, ⟨(_, _), ⟨hwf, h⟩, rfl⟩, rfl⟩)
    | link h =>
        obtain ⟨extra, h⟩ := linkLine_iff.mp h
        exact Or.inr (Or.inr ⟨_, h, (_, _), ⟨extra, rfl⟩, rfl⟩)
  · rintro (⟨h, rfl⟩ | ⟨-, _, ⟨r, ⟨hwf, h⟩, rfl⟩, rfl⟩ | ⟨_, h, link, ⟨extra, rfl⟩, rfl⟩)
    · exact .blank (blankLine_iff.mpr h)
    · exact .header hwf h
    · exact .link (linkLine_iff.mpr ⟨extra, h⟩)

theorem reads_step (p : Progress) (line : String) : Reads (p.step line) (p.Step line.toList) := by
  obtain ⟨d, b | b⟩ := p
  · refine Reads.congr ?_ fun p' => step_none_iff.symm
    unfold step
    dsimp only
    split
    next h =>
      rw [h]
      refine (reads_return (⟨d, none⟩ : Progress)).afterUpdate.congr fun p' => ?_
      simp
    next rest h =>
      rw [h]
      refine (reads_begin line).map.congr fun p' => ?_
      simp
    next rest h =>
      rw [h]
      refine ((reads_link rest).bind fun link _ => (reads_return _).afterUpdate).congr fun p' => ?_
      simp
    next rest h =>
      rw [h]
      refine ((reads_column rest).bind fun r _ => reads_fail _).afterUpdate.congr fun p' => ?_
      simp
    next other rest hzone hlink _ h =>
      rw [h]
      refine (reads_unknownValue _).congr fun p' => ⟨nofun, ?_⟩
      rintro (⟨h, -⟩ | ⟨⟨rest, h⟩, -⟩ | ⟨rest, h, -⟩)
      · cases h
      · exact hzone (List.cons.inj h).1
      · exact hlink (List.cons.inj h).1
  · refine (reads_extend b line).map.congr fun p' => ⟨?_, fun h => ?_⟩
    · rintro ⟨_, ⟨h, rfl⟩ | ⟨e, ⟨hwf, h⟩, rfl⟩, rfl⟩
      · exact .skip h
      · exact .entry hwf h
    · cases h with
      | skip h => exact ⟨b, Or.inl ⟨h, rfl⟩, rfl⟩
      | entry hwf h => exact ⟨_, Or.inr ⟨_, ⟨hwf, h⟩, rfl⟩, rfl⟩

/-- What the lines of a text do to the progress of reading, one after the other. -/
inductive Run : Progress → List (List Char) → Progress → Prop
  | nil {p : Progress} : Run p [] p
  | cons {p p' p'' : Progress} {line : List Char} {lines : List (List Char)} : Step p line p' →
      Run p' lines p'' → Run p (line :: lines) p''

theorem reads_run (lines : List String) (p : Progress) :
    Reads (lines.foldlM step p) (p.Run (lines.map String.toList)) := by
  induction lines generalizing p with
  | nil =>
      refine (reads_return p).congr fun p' => ⟨?_, fun h => ?_⟩
      · rintro rfl
        exact .nil
      · cases h
        rfl
  | cons line lines ih =>
      refine ((reads_step p line).bind fun p' _ => ih p').congr fun p' => ⟨?_, fun h => ?_⟩
      · rintro ⟨_, hstep, h⟩
        exact .cons hstep h
      · cases h with
        | cons hstep h => exact ⟨_, hstep, h⟩

theorem Run.append {p p' p'' : Progress} {lines rest : List (List Char)} (h : Run p lines p')
    (h' : Run p' rest p'') : Run p (lines ++ rest) p'' := by
  induction h with
  | nil => exact h'
  | cons hstep _ ih => exact .cons hstep (ih h')

end Progress

theorem map_toList_ofList (lines : List (List Char)) :
    (lines.map String.ofList).map String.toList = lines := by
  simp [Function.comp_def]

theorem Document.parse_eq_ok_iff_run {text : String} {d : Document} :
    parse text = .ok d ↔ Progress.initial.Run (linesOf text.toList) ⟨d, none⟩ := by
  have hfinish (p : Progress) : Reads p.finish fun d => p = ⟨d, none⟩ := by
    obtain ⟨d, b | b⟩ := p
    · exact (reads_return d).congr fun d' => by simp [eq_comm]
    · exact reads_endOfLine.congr fun d' => by simp
  have h := (Progress.reads_run (Text.lines text) Progress.initial).bind fun p _ => hfinish p
  refine (h Context.initial d).trans ?_
  rw [Text.lines, map_toList_ofList]
  constructor
  · rintro ⟨_, h, rfl⟩
    exact h
  · exact fun h => ⟨_, h, rfl⟩

end ZoneHistory.Source
