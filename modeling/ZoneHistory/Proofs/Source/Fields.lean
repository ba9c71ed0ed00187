import ZoneHistory.Proofs.Source.Failures

/-!
# The blanks between columns

Entries, links and the kind of a line are read from the columns between blanks of any
kind, so one blank is as good as another there (`SameColumns`). The first line of a zone
is the exception: its word and the name after it are cut out at ASCII blanks, and only
what follows them is cut at all blanks. Lines with the same columns are read alike if
they agree in these two as well (`SameHeader`, `Progress.step_congr`), and if a source is
read, then only such lines give the same document (`Progress.sameHeader_of_run`).

A line that sets off the word for a zone by another blank is taken for the beginning of
one and is then refused, as the word is not found in it (`Document.parse_eq_zoneHeader_iff`).
-/

namespace ZoneHistory.Source

open Text Parse

/-- The lines have the same columns, apart from comments. -/
def SameColumns (line line' : String) : Prop :=
  columns (withoutComment line) = columns (withoutComment line')

/-- If the lines begin a zone, ASCII blanks set off the same word and the same name. -/
def SameHeader (line line' : String) : Prop :=
  (columns (withoutComment line)).head? = some "Zone" →
    (asciiColumns (withoutComment line)).take 2 = (asciiColumns (withoutComment line')).take 2

instance (line line' : String) : Decidable (SameColumns line line') :=
  inferInstanceAs (Decidable (_ = _))

instance (line line' : String) : Decidable (SameHeader line line') :=
  inferInstanceAs (Decidable (_ → _))

/-! ## Columns of columns -/

/-- What is put together again after some columns falls into the columns that are left. -/
theorem columns_eq_of_asciiColumns {s : String} {front rest : List String}
    (h : asciiColumns s = front ++ rest) :
    columns s = front.flatMap columns ++ columns (joinBySpace rest) := by
  have hsub (c : Char) : isAsciiBlank c = true → isBlank c = true := isBlank_of_isAsciiBlank
  have hwords {ss : List String} {cs : List Char}
      (h : Spaced isAsciiBlank (ss.map String.toList) cs) :
      (words isBlank cs).map String.ofList = ss.flatMap columns := by
    rw [← h.flatMap_words hsub, List.flatMap_map, List.map_flatMap]
    rfl
  have hspaced := asciiColumns_eq_iff.mp h
  have hrest : Spaced isAsciiBlank (rest.map String.toList) (joinBySpace rest).toList := by
    rw [toList_joinBySpace]
    refine spaced_intercalate (by decide) fun w hw => hspaced.isWord w ?_
    rw [List.map_append]
    exact List.mem_append_right _ hw
  rw [columns, hwords hspaced, List.flatMap_append, columns, hwords hrest]

theorem columns_congr {s s' : String} {front rest rest' : List String}
    (hcolumns : columns s = columns s') (h : asciiColumns s = front ++ rest)
    (h' : asciiColumns s' = front ++ rest') :
    columns (joinBySpace rest) = columns (joinBySpace rest') := by
  rw [columns_eq_of_asciiColumns h, columns_eq_of_asciiColumns h'] at hcolumns
  exact List.append_cancel_left hcolumns

/-! ## Lines with the same columns -/

theorem eq_or_exists_of_take_two_eq {α : Type} {l l' : List α} (h : l.take 2 = l'.take 2) :
    l = l' ∨ ∃ a b rest rest', l = a :: b :: rest ∧ l' = a :: b :: rest' := by
  rcases l with _ | ⟨a, _ | ⟨b, rest⟩⟩ <;> rcases l' with _ | ⟨a', _ | ⟨b', rest'⟩⟩ <;> simp_all

theorem Entry.parse_congr {text text' : String} (h : Text.columns text = Text.columns text') :
    Entry.parse text = Entry.parse text' := by
  rw [Entry.parse, Entry.parse, h]

variable {line line' : String}

namespace ZoneBlock

theorem parseHeader_of_ne (h : (asciiColumns (withoutComment line)).head? ≠ some "Zone") :
    parseHeader line = within "zone header" (fail fun c => .zoneHeader c.count.word) := by
  rw [parseHeader]
  split
  next hcolumns =>
    rw [hcolumns] at h
    exact absurd rfl h
  next => rfl

theorem parseHeader_of_cons {name : String} {rest : List String}
    (h : asciiColumns (withoutComment line) = "Zone" :: name :: rest) :
    parseHeader line = within "zone header"
      (do return (name, ← Entry.parse (joinBySpace rest))) := by
  rw [parseHeader, h]
  rfl

theorem parseHeader_congr (hcolumns : SameColumns line line')
    (hheader : (asciiColumns (withoutComment line)).take 2 =
      (asciiColumns (withoutComment line')).take 2) :
    parseHeader line = parseHeader line' := by
  rcases eq_or_exists_of_take_two_eq hheader with heq | ⟨word, name, rest, rest', h, h'⟩
  · rw [parseHeader, parseHeader, heq]
  · by_cases hword : word = "Zone"
    · subst hword
      have hrest : columns (joinBySpace rest) = columns (joinBySpace rest') :=
        columns_congr hcolumns (show _ = ["Zone", name] ++ rest from h) h'
      rw [parseHeader_of_cons h, parseHeader_of_cons h', Entry.parse_congr hrest]
    · have hne : some word ≠ some "Zone" := fun heq => hword (Option.some.inj heq)
      rw [parseHeader_of_ne (by rw [h]; exact hne), parseHeader_of_ne (by rw [h']; exact hne)]

theorem extend_congr (hcolumns : SameColumns line line') (b : ZoneBlock) :
    b.extend line = b.extend line' := by
  have hblank : (withoutComment line).toList.all isBlank =
      (withoutComment line').toList.all isBlank := by
    rw [Bool.eq_iff_iff, all_isBlank_iff, all_isBlank_iff, blankLine_iff, blankLine_iff, hcolumns]
  rw [extend, extend, hblank, Entry.parse_congr hcolumns]

end ZoneBlock

namespace Progress

theorem step_congr (hcolumns : SameColumns line line') (hheader : SameHeader line line')
    (p : Progress) : p.step line = p.step line' := by
  obtain ⟨d, b | b⟩ := p
  · unfold step
    dsimp only
    rw [← hcolumns]
    split
    · rfl
    next rest hzone =>
      rw [ZoneBlock.begin, ZoneBlock.begin,
        ZoneBlock.parseHeader_congr hcolumns (hheader (by rw [hzone]; rfl))]
    · rfl
    · rfl
    · rfl
  · exact congrArg (fun p : Parse ZoneBlock => (do return take d (← p) : Parse Progress))
      (ZoneBlock.extend_congr hcolumns b)

theorem run_congr {lines lines' : List String} (hcolumns : List.Forall₂ SameColumns lines lines')
    (hheader : List.Forall₂ SameHeader lines lines') (p : Progress) :
    lines.foldlM step p = lines'.foldlM step p := by
  induction hcolumns generalizing p with
  | nil => rfl
  | cons hline _ ih =>
      cases hheader with
      | cons hname hheader =>
          rw [List.foldlM_cons, List.foldlM_cons, step_congr hline hname]
          exact congrArg _ (funext fun q => ih hheader q)

/-! ## What the names tell -/

theorem not_zone_of_entryLine {e : Entry} (h : EntryLine e line.toList) :
    (columns (withoutComment line)).head? ≠ some "Zone" := by
  rw [EntryLine, exists_commented_iff] at h
  obtain ⟨ws, hws, hcolumns⟩ := h
  cases hcolumns with
  | @mk standard saving designation ends hstandard _ _ _ =>
      rw [columns, words_eq_iff.mpr hws]
      intro hzone
      have hword : String.ofList standard = "Zone" := Option.some.inj hzone
      obtain ⟨front, c, hc, hdigit⟩ := hstandard.endsWithDigit
      have hlast : standard.getLast? = some c := by rw [hc, List.getLast?_concat]
      rw [← String.toList_ofList (l := standard), hword] at hlast
      cases hlast
      cases hdigit

/-- The names of the zones read, with that of the zone whose lines go on. -/
def names (p : Progress) : List String :=
  (p.document.zones ++ p.unfinished.toList).map ZoneBlock.identifier

theorem names_take (d : Document) (b : ZoneBlock) :
    (take d b).names = d.zones.map ZoneBlock.identifier ++ [b.identifier] := by
  rw [take]
  split
  · simp [names]
  · simp [names]

variable {p q : Progress}

/-- A line that is read as the beginning of a zone has a name after its first word. -/
theorem Step.exists_name (h : Step p line.toList q)
    (hzone : (columns (withoutComment line)).head? = some "Zone") :
    ∃ name rest, asciiColumns (withoutComment line) = "Zone" :: name :: rest ∧
      q.names = p.names ++ [name] := by
  generalize hline : line.toList = cs at h
  have hblank : ¬BlankLine cs := fun h => by
    rw [blankLine_iff.mp (hline ▸ h)] at hzone
    cases hzone
  cases h with
  | blank h => exact absurd h hblank
  | @header d identifier e _ _ hheader =>
      obtain ⟨rest, hcolumns⟩ := asciiColumns_of_headerLine (hline ▸ hheader)
      refine ⟨identifier, rest, hcolumns, ?_⟩
      rw [names_take]
      simp [names]
  | link h =>
      obtain ⟨extra, hcolumns⟩ := linkLine_iff.mp (hline ▸ h)
      rw [hcolumns] at hzone
      exact absurd hzone (by simp)
  | skip h => exact absurd h hblank
  | entry _ h => exact absurd hzone (not_zone_of_entryLine (hline ▸ h))

/-- A line takes away none of the names. -/
theorem Step.names_prefix {line : List Char} (h : Step p line q) : p.names <+: q.names := by
  cases h with
  | blank _ | link _ => exact List.prefix_refl _
  | header _ _ | skip _ | entry _ _ =>
      rw [names_take]
      simp [names]

theorem Run.names_prefix {lines : List (List Char)} (h : Run p lines q) : p.names <+: q.names := by
  induction h with
  | nil => exact List.prefix_refl _
  | cons hstep _ ih => exact hstep.names_prefix.trans ih

/-- Lines with the same columns that lead to the same progress name the same zones. Names stay where
they are in the progress, so the two that a pair of lines adds can be compared at its end. -/
theorem sameHeader_of_run {lines lines' : List String}
    (hcolumns : List.Forall₂ SameColumns lines lines') (hrun : Run p (lines.map String.toList) q)
    (hrun' : Run p (lines'.map String.toList) q) : List.Forall₂ SameHeader lines lines' := by
  induction hcolumns generalizing p with
  | nil => exact .nil
  | @cons line line' lines lines' hline _ ih =>
      cases hrun with
      | @cons _ p₁ _ _ _ hstep hrun =>
          cases hrun' with
          | @cons _ p₂ _ _ _ hstep' hrun' =>
              have hheader : SameHeader line line' := by
                intro hzone
                obtain ⟨name, rest, hasc, hnames⟩ := hstep.exists_name hzone
                obtain ⟨name', rest', hasc', hnames'⟩ := hstep'.exists_name (hline ▸ hzone)
                have heq : p.names ++ [name] = p.names ++ [name'] := by
                  rw [← hnames, ← hnames']
                  refine (List.prefix_of_prefix_length_le hrun.names_prefix hrun'.names_prefix
                    ?_).eq_of_length ?_
                  all_goals simp [hnames, hnames']
                rw [hasc, hasc', List.singleton_inj.mp (List.append_cancel_left heq)]
                rfl
              -- now the lines are read alike, and the rest begins at the same progress
              have hsame : p₁ = p₂ := by
                have hok := (reads_step p line Context.initial p₁).mpr hstep
                have hok' := (reads_step p line' Context.initial p₂).mpr hstep'
                rw [step_congr hline hheader, hok'] at hok
                exact (Except.ok.inj hok).symm
              subst hsame
              exact .cons hheader (ih hrun hrun')

end Progress

namespace Document

open Progress

theorem parse_congr {text text' : String}
    (hcolumns : List.Forall₂ SameColumns (Text.lines text) (Text.lines text'))
    (hheader : List.Forall₂ SameHeader (Text.lines text) (Text.lines text')) :
    parse text = parse text' := by
  rw [parse, parse, ofLines, ofLines, run_congr hcolumns hheader]

/-! ## The word for a zone -/

theorem step_of_hidesHeader {d : Document} {line : String} (h : HidesHeader line) (c : Context) :
    (step ⟨d, none⟩ line c).1 = .error (.zoneHeader c.count.word) := by
  obtain ⟨hzone, hascii⟩ := h
  rw [step_of_zone hzone, ZoneBlock.begin, ZoneBlock.parseHeader_of_ne hascii]
  rfl

/-- A source is refused for a line that begins no zone if and only if there is a line that hides
that it begins one, after lines that are read and end no zone in the middle. -/
theorem parse_eq_zoneHeader_iff {text : String} {n : UInt32} :
    parse text = .error (.zoneHeader n) ↔ ∃ front line rest,
      linesOf text.toList = front ++ line :: rest ∧ n = .ofNat (front.length + 1) ∧
        (∃ d, Holds ⟨d, none⟩ front) ∧ HidesHeader (.ofList line) := by
  constructor
  · intro h
    obtain ⟨front, rest, ⟨d, b⟩, hlines, hline, hholds, hrest⟩ := exists_of_parse_error h
    have hn : n = .ofNat (front.length + 1) :=
      UInt32.toNat_inj.mp (hline.trans UInt32.toNat_ofNat'.symm)
    rcases hrest with ⟨line, rest, rfl, hstep⟩ | ⟨-, -, hend⟩
    · have hfail : step ⟨d, b⟩ (.ofList line) _ = (.error (.zoneHeader n), _) := Prod.ext hstep rfl
      cases b with
      | none =>
          have hfails := (movesOn_step hholds.open (.ofList line) _ ["undefined"]).error hfail
          exact ⟨front, line, rest, hlines, hn, ⟨d, hholds⟩, hfails.kind n rfl⟩
      | some b =>
          have hextend := ZoneBlock.movesOn_extend
            (c := ⟨LineCount.first.skip front.length, ["undefined"]⟩) (hholds.open b rfl)
            (.ofList line)
          exact ((hextend.map (labels_take ["undefined"] d)).error hfail).kind.elim
    · cases hend
  · rintro ⟨front, line, rest, hlines, rfl, ⟨d, hholds⟩, hline⟩
    refine parse_eq_error hholds ?_ hlines
    rw [step_of_hidesHeader hline, word_context]

/-! ## Sources with the same columns -/

/-- Sources whose lines have the same columns are read alike if the names of their zones are set off
alike, and once one of them is read, only then. Another blank after the word for a zone makes the
line one that begins no zone, and nothing else does. -/
theorem parse_of_sameColumns {text text' : String}
    (h : List.Forall₂ SameColumns (Text.lines text) (Text.lines text')) :
    (List.Forall₂ SameHeader (Text.lines text) (Text.lines text') → parse text = parse text') ∧
    (∀ d, parse text = .ok d →
      (parse text' = .ok d ↔ List.Forall₂ SameHeader (Text.lines text) (Text.lines text'))) ∧
    ∀ n, parse text = .error (.zoneHeader n) ↔ ∃ front line rest,
      linesOf text.toList = front ++ line :: rest ∧ n = .ofNat (front.length + 1) ∧
        (∃ d, Holds ⟨d, none⟩ front) ∧ HidesHeader (.ofList line) := by
  refine ⟨parse_congr h, fun d hd => ⟨fun hd' => ?_, fun hheader => ?_⟩, fun n =>
    parse_eq_zoneHeader_iff⟩
  · have hrun := parse_eq_ok_iff_run.mp hd
    have hrun' := parse_eq_ok_iff_run.mp hd'
    rw [← map_toList_ofList (linesOf _)] at hrun hrun'
    exact sameHeader_of_run h hrun hrun'
  · rw [← parse_congr h hheader]
    exact hd

/-- After the blank that ends the name, others make no difference. -/
theorem blanks_after_name_are_alike :
    let text := "Zone Test/Zone 1:00 - TST\n"
    let text' := "\tZone\t Test/Zone \u00a01:00\u2003- TST # since ever\n"
    List.Forall₂ SameColumns (Text.lines text) (Text.lines text') ∧ parse text = parse text' := by
  intro text text'
  have hcolumns : List.Forall₂ SameColumns (Text.lines text) (Text.lines text') := by
    decide +kernel
  exact ⟨hcolumns, (parse_of_sameColumns hcolumns).1 (by decide +kernel)⟩

/-- A no-break space in front of the name makes one. -/
theorem blank_before_name_differs :
    let text := "Zone Test/Zone 1:00 - TST\n"
    let text' := "Zone\u00a0Test/Zone 1:00 - TST\n"
    List.Forall₂ SameColumns (Text.lines text) (Text.lines text') ∧
      (∃ d, parse text = .ok d) ∧ parse text' = .error (.zoneHeader 1) := by
  intro text text'
  refine ⟨by decide +kernel, ⟨⟨[⟨"Test/Zone", [⟨⟨false, 1, 0, 0⟩, none, .plain "TST", none⟩]⟩], []⟩,
    ?_⟩, ?_⟩
  · decide +kernel
  · decide +kernel

end Document

end ZoneHistory.Source
