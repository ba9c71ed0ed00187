import Mathlib.Data.List.TakeWhile
import ZoneHistory.Text.Pieces

/-!
# Words, lines and cuts

Each way of cutting a text beside the texts that it takes apart. `Spaced` says how
words may be set with gaps around them, and `words` finds exactly the words that a
text sets (`words_eq_iff`). `Lined` does the same for lines and their two ends
(`linesOf_eq_iff`). A cut at a character or at a pattern finds the first one
(`splitAt?_singleton_eq_some_iff`, `splitAt?_append`, `occurs_iff`).
-/

namespace ZoneHistory.Text

/-! ## Words -/

section Words

variable {separates : Char → Bool}

def IsGap (separates : Char → Bool) (cs : List Char) : Prop :=
  ∀ c ∈ cs, separates c = true

def IsWord (separates : Char → Bool) (cs : List Char) : Prop :=
  cs ≠ [] ∧ ∀ c ∈ cs, separates c = false

instance (separates : Char → Bool) (cs : List Char) : Decidable (IsWord separates cs) :=
  decidable_of_iff (cs ≠ [] ∧ (cs.all fun c => !separates c) = true) (by simp [IsWord])

/-- A word before the text ends with it: the text is at its end or goes on with a separator. -/
def Detached (separates : Char → Bool) : List Char → Prop
  | [] => True
  | c :: _ => separates c = true

/-- The words stand in the text in order, with gaps between them and perhaps at the two ends. -/
inductive Spaced (separates : Char → Bool) : List (List Char) → List Char → Prop
  | gap {cs : List Char} : IsGap separates cs → Spaced separates [] cs
  | word {gap w rest : List Char} {ws : List (List Char)} : IsGap separates gap →
      IsWord separates w → Detached separates rest → Spaced separates ws rest →
      Spaced separates (w :: ws) (gap ++ (w ++ rest))

theorem Spaced.isWord {ws : List (List Char)} {cs : List Char} (h : Spaced separates ws cs) :
    ∀ w ∈ ws, IsWord separates w := by
  induction h with
  | gap => nofun
  | word _ hw _ _ ih =>
      intro v hv
      rcases List.mem_cons.mp hv with rfl | hv
      · exact hw
      · exact ih v hv

theorem Spaced.mem {ws : List (List Char)} {cs : List Char} (h : Spaced separates ws cs) :
    ∀ w ∈ ws, ∀ c ∈ w, c ∈ cs := by
  induction h with
  | gap => nofun
  | word _ _ _ _ ih =>
      intro v hv c hc
      rcases List.mem_cons.mp hv with rfl | hv
      · exact List.mem_append_right _ (List.mem_append_left _ hc)
      · exact List.mem_append_right _ (List.mem_append_right _ (ih v hv c hc))

theorem words_nil : words separates [] = [] := rfl

theorem words_cons_of_separates {c : Char} (h : separates c = true) (cs : List Char) :
    words separates (c :: cs) = words separates cs := by
  simp [words, pieces, cut, h]

theorem words_append_gap : ∀ {gap : List Char}, IsGap separates gap → ∀ cs : List Char,
    words separates (gap ++ cs) = words separates cs
  | [], _, _ => rfl
  | c :: gap, h, cs => by
      rw [List.cons_append, words_cons_of_separates (h c List.mem_cons_self),
        words_append_gap (fun d hd => h d (List.mem_cons_of_mem _ hd))]

theorem words_gap {gap : List Char} (h : IsGap separates gap) : words separates gap = [] := by
  have heq := words_append_gap h []
  rwa [List.append_nil] at heq

theorem cut_append : ∀ {w : List Char}, (∀ c ∈ w, separates c = false) → ∀ rest : List Char,
    cut separates (w ++ rest) = (w ++ (cut separates rest).1, (cut separates rest).2)
  | [], _, _ => rfl
  | c :: w, h, rest => by
      have ih := cut_append (fun d hd => h d (List.mem_cons_of_mem _ hd)) rest
      rw [cut] at ih
      simp [cut, ih, h c List.mem_cons_self]

theorem cut_of_detached {rest : List Char} (h : Detached separates rest) :
    (cut separates rest).1 = [] := by
  cases rest with
  | nil => rfl
  | cons c rest =>
      have hc : separates c = true := h
      simp [cut, hc]

theorem words_append_word {w rest : List Char} (hw : IsWord separates w)
    (hrest : Detached separates rest) :
    words separates (w ++ rest) = w :: words separates rest := by
  have hne : w.isEmpty = false := by simpa using hw.1
  simp [words, pieces, cut_append hw.2, cut_of_detached hrest, hne]

theorem words_of_spaced {ws : List (List Char)} {cs : List Char} (h : Spaced separates ws cs) :
    words separates cs = ws := by
  induction h with
  | gap hgap => rw [words_gap hgap]
  | word hgap hw hrest _ ih => rw [words_append_gap hgap, words_append_word hw hrest, ih]

theorem Spaced.cons {c : Char} (hc : separates c = true) {ws : List (List Char)} {cs : List Char}
    (h : Spaced separates ws cs) : Spaced separates ws (c :: cs) := by
  have hgap {gap : List Char} (hgap : IsGap separates gap) : IsGap separates (c :: gap) := by
    intro d hd
    rcases List.mem_cons.mp hd with rfl | hd
    · exact hc
    · exact hgap d hd
  cases h with
  | gap h => exact .gap (hgap h)
  | word h hw hrest hws => exact .word (hgap h) hw hrest hws

theorem spaced_words (cs : List Char) : Spaced separates (words separates cs) cs := by
  match cs with
  | [] => exact .gap nofun
  | c :: cs =>
    by_cases hc : separates c = true
    · rw [words_cons_of_separates hc]
      exact (spaced_words cs).cons hc
    · -- the first word goes up to the first separator
      let letters (d : Char) : Bool := !separates d
      have hsplit : (c :: cs).takeWhile letters ++ (c :: cs).dropWhile letters = c :: cs :=
        List.takeWhile_append_dropWhile
      have hc' : letters c = true := by simpa [letters] using hc
      have hword : IsWord separates ((c :: cs).takeWhile letters) := by
        refine ⟨by simp [hc'], fun d hd => ?_⟩
        simpa [letters] using List.mem_takeWhile_imp hd
      have hrest : Detached separates ((c :: cs).dropWhile letters) := by
        cases h : (c :: cs).dropWhile letters with
        | nil => trivial
        | cons d rest =>
            have hne : (c :: cs).dropWhile letters ≠ [] := by rw [h]; nofun
            have hd := List.head_dropWhile_not letters hne
            simpa [h, letters, Detached] using hd
      have hshorter : ((c :: cs).dropWhile letters).length < (c :: cs).length := by
        have := List.length_dropWhile_le letters cs
        simp only [List.dropWhile_cons, hc', if_true, List.length_cons]
        omega
      rw [← hsplit, words_append_word hword hrest]
      exact .word (show IsGap separates [] from nofun) hword hrest (spaced_words _)
termination_by cs.length
decreasing_by
  · exact Nat.lt_succ_self _
  · assumption

/-- Cutting a text into words finds the words that stand in it, and no other. -/
theorem words_eq_iff {ws : List (List Char)} {cs : List Char} :
    words separates cs = ws ↔ Spaced separates ws cs := by
  constructor
  · rintro rfl
    exact spaced_words cs
  · exact words_of_spaced

theorem Spaced.unique {ws ws' : List (List Char)} {cs : List Char} (h : Spaced separates ws cs)
    (h' : Spaced separates ws' cs) : ws = ws' := by
  rw [← words_eq_iff.mpr h, words_eq_iff.mpr h']

/-- Words with one separator between any two. -/
theorem spaced_intercalate {separator : Char} (hs : separates separator = true) :
    ∀ {ws : List (List Char)}, (∀ w ∈ ws, IsWord separates w) →
      Spaced separates ws ([separator].intercalate ws)
  | [], _ => .gap nofun
  | [w], h => by
      have hgap : IsGap separates [] := nofun
      have hend : Detached separates [] := trivial
      simpa using Spaced.word hgap (h w List.mem_cons_self) hend (.gap hgap)
  | w :: v :: ws, h => by
      have hgap : IsGap separates [] := nofun
      have hrest := spaced_intercalate hs fun x hx => h x (List.mem_cons_of_mem w hx)
      simpa [List.intercalate_cons_cons] using
        Spaced.word hgap (h w List.mem_cons_self) (show Detached separates (separator :: _) from hs)
          (hrest.cons hs)

theorem mem_intercalate {separator c : Char} : ∀ {ws : List (List Char)},
    c ∈ [separator].intercalate ws → c = separator ∨ ∃ w ∈ ws, c ∈ w
  | [], h => absurd h List.not_mem_nil
  | [w], h => by
      rw [List.intercalate_singleton] at h
      exact Or.inr ⟨w, List.mem_cons_self, h⟩
  | w :: v :: ws, h => by
      rw [List.intercalate_cons_cons, List.append_assoc, List.mem_append, List.mem_append] at h
      rcases h with h | h | h
      · exact Or.inr ⟨w, List.mem_cons_self, h⟩
      · exact Or.inl (List.mem_singleton.mp h)
      · refine (mem_intercalate h).imp_right ?_
        rintro ⟨u, hu, hc⟩
        exact ⟨u, List.mem_cons_of_mem _ hu, hc⟩

/-! ### Words of words -/

theorem pieces_cons (c : Char) (cs : List Char) :
    pieces separates (c :: cs) =
      if separates c then [] :: pieces separates cs
      else (c :: (cut separates cs).1) :: (cut separates cs).2 := by
  simp only [pieces, cut, List.foldr_cons]
  split <;> rfl

theorem pieces_append_separator {separator : Char} (hs : separates separator = true)
    (rest : List Char) : ∀ cs : List Char, pieces separates (cs ++ separator :: rest) =
      pieces separates cs ++ pieces separates rest
  | [] => by simp [pieces, cut, hs]
  | c :: cs => by
      have ih := pieces_append_separator hs rest cs
      rw [List.cons_append, pieces_cons, pieces_cons]
      rw [pieces, pieces, List.cons_append, List.cons.injEq] at ih
      split
      · rw [pieces, pieces, ih.1, ih.2]
        rfl
      · rw [ih.1, ih.2]
        rfl

theorem words_append_separator {separator : Char} (hs : separates separator = true)
    (cs rest : List Char) : words separates (cs ++ separator :: rest) =
      words separates cs ++ words separates rest := by
  rw [words, pieces_append_separator hs, List.filter_append]
  rfl

variable {finer : Char → Bool}

/-- Cutting at some of the separators first and then at all of them makes no difference. -/
theorem Spaced.flatMap_words (hsub : ∀ c, separates c = true → finer c = true)
    {ws : List (List Char)} {cs : List Char} (h : Spaced separates ws cs) :
    ws.flatMap (words finer) = words finer cs := by
  induction h with
  | gap hgap =>
      rw [words_gap fun c hc => hsub c (hgap c hc)]
      rfl
  | @word gap w rest ws hgap hw hrest _ ih =>
      rw [words_append_gap fun c hc => hsub c (hgap c hc), List.flatMap_cons, ih]
      cases rest with
      | nil => rw [List.append_nil, words_nil, List.append_nil]
      | cons c rest =>
          have hc : finer c = true := hsub c hrest
          rw [words_append_separator hc, words_cons_of_separates hc]

/-- Words joined by a separator fall into the same finer words as the text they are from. -/
theorem words_intercalate_words (hsub : ∀ c, separates c = true → finer c = true)
    {separator : Char} (hs : separates separator = true) (cs : List Char) :
    words finer ([separator].intercalate (words separates cs)) = words finer cs := by
  have h : Spaced separates (words separates cs) cs := spaced_words cs
  rw [← (spaced_intercalate hs h.isWord).flatMap_words hsub, h.flatMap_words hsub]

end Words

/-! ## Lines -/

/-- The text consists of the lines in order. A line ends with a line feed, before which a carriage
return may stand, or at the end of the text. -/
inductive Lined : List (List Char) → List Char → Prop
  | nil : Lined [] []
  | last {l : List Char} : l ≠ [] → '\n' ∉ l → Lined [l] l
  | feed {l rest : List Char} {ls : List (List Char)} : '\n' ∉ l → l.getLast? ≠ some '\r' →
      Lined ls rest → Lined (l :: ls) (l ++ '\n' :: rest)
  | returnFeed {l rest : List Char} {ls : List (List Char)} : '\n' ∉ l → Lined ls rest →
      Lined (l :: ls) (l ++ '\r' :: '\n' :: rest)

theorem linesOf_append_feed {l : List Char} (h : '\n' ∉ l) (rest : List Char) :
    linesOf (l ++ '\n' :: rest) = dropReturn l :: linesOf rest := by
  have hl : ∀ c ∈ l, (c == '\n') = false := by
    intro c hc
    simpa using fun heq : c = '\n' => h (heq ▸ hc)
  have hpieces : pieces (· == '\n') (l ++ '\n' :: rest) = l :: pieces (· == '\n') rest := by
    rw [pieces, cut_append hl]
    simp [cut, pieces]
  rw [linesOf, linesOf, hpieces]
  cases hrest : pieces (· == '\n') rest with
  | nil => simp [pieces] at hrest
  | cons p ps =>
      simp only [List.dropLast_cons_cons, List.map_cons, List.getLast?_cons_cons]
      cases (p :: ps).getLast? with
      | none => rfl
      | some last => cases last <;> rfl

theorem linesOf_of_not_mem {l : List Char} (hne : l ≠ []) (h : '\n' ∉ l) : linesOf l = [l] := by
  have hl : ∀ c ∈ l, (c == '\n') = false := by
    intro c hc
    simpa using fun heq : c = '\n' => h (heq ▸ hc)
  have hpieces : pieces (· == '\n') l = [l] := by
    have := cut_append hl []
    rw [List.append_nil] at this
    rw [pieces, this]
    simp [cut]
  rw [linesOf, hpieces]
  cases l with
  | nil => exact absurd rfl hne
  | cons c l => rfl

theorem linesOf_of_lined {ls : List (List Char)} {cs : List Char} (h : Lined ls cs) :
    linesOf cs = ls := by
  induction h with
  | nil => rfl
  | last hne hl => exact linesOf_of_not_mem hne hl
  | feed hl hreturn _ ih => rw [linesOf_append_feed hl, dropReturn, if_neg hreturn, ih]
  | returnFeed hl _ ih =>
      rw [List.append_cons, linesOf_append_feed (by simpa using hl), dropReturn, ih]
      simp

theorem lined_linesOf (cs : List Char) : Lined (linesOf cs) cs := by
  by_cases hmem : '\n' ∈ cs
  · obtain ⟨l, rest, hcs, hl⟩ := List.eq_append_cons_of_mem hmem
    have hshorter : rest.length < cs.length := by
      rw [hcs, List.length_append, List.length_cons]
      omega
    have ih := lined_linesOf rest
    rw [hcs, linesOf_append_feed hl, dropReturn]
    split
    next hreturn =>
      obtain ⟨l, rfl⟩ := List.getLast?_eq_some_iff.mp hreturn
      rw [List.dropLast_concat, List.append_assoc]
      exact .returnFeed (fun h => hl (List.mem_append_left _ h)) ih
    next hreturn => exact .feed hl hreturn ih
  · by_cases hne : cs = []
    · subst hne
      exact .nil
    · rw [linesOf_of_not_mem hne hmem]
      exact .last hne hmem
termination_by cs.length
decreasing_by assumption

/-- Cutting a text into lines finds the lines of which it consists, and no other. -/
theorem linesOf_eq_iff {ls : List (List Char)} {cs : List Char} :
    linesOf cs = ls ↔ Lined ls cs := by
  constructor
  · rintro rfl
    exact lined_linesOf cs
  · exact linesOf_of_lined

theorem Lined.not_mem_feed {ls : List (List Char)} {cs : List Char} (h : Lined ls cs) :
    ∀ l ∈ ls, '\n' ∉ l := by
  induction h with
  | nil => nofun
  | last _ hl => simpa using hl
  | feed hl _ _ ih => exact List.forall_mem_cons.mpr ⟨hl, ih⟩
  | returnFeed hl _ ih => exact List.forall_mem_cons.mpr ⟨hl, ih⟩

/-- Any lines without line feeds are the lines of some text. -/
theorem exists_lined : ∀ {ls : List (List Char)}, (∀ l ∈ ls, '\n' ∉ l) → ∃ cs, Lined ls cs
  | [], _ => ⟨[], .nil⟩
  | l :: ls, h => by
      obtain ⟨hl, hls⟩ := List.forall_mem_cons.mp h
      obtain ⟨cs, hcs⟩ := exists_lined hls
      exact ⟨_, .returnFeed hl hcs⟩

/-! ## Cuts -/

theorem splitAt?_eq_none_of_not_mem {x : Char} {pattern : List Char} : ∀ {cs : List Char},
    x ∉ cs → splitAt? (x :: pattern) cs = none
  | [], _ => rfl
  | c :: cs, h => by
      obtain ⟨hne, hcs⟩ := List.ne_and_not_mem_of_not_mem_cons h
      rw [splitAt?, splitAt?_eq_none_of_not_mem hcs]
      simp [List.isPrefixOf, hne]

/-- The first occurrence of a pattern is at its first character, if that comes only there. -/
theorem splitAt?_append {x : Char} {pattern : List Char} (rest : List Char) :
    ∀ {before : List Char}, x ∉ before →
      splitAt? (x :: pattern) (before ++ (x :: pattern ++ rest)) = some (before, rest)
  | [], _ => by
      rw [List.nil_append, List.cons_append, splitAt?, if_pos]
      · simp
      · simp
  | c :: before, h => by
      obtain ⟨hne, hbefore⟩ := List.ne_and_not_mem_of_not_mem_cons h
      rw [List.cons_append, splitAt?, splitAt?_append rest hbefore]
      simp [List.isPrefixOf, hne]

theorem eq_append_of_splitAt? {pattern : List Char} : ∀ {cs before rest : List Char},
    splitAt? pattern cs = some (before, rest) → cs = before ++ (pattern ++ rest)
  | [], before, rest, h => by
      rw [splitAt?] at h
      split at h
      next hempty =>
        cases h
        simpa using hempty
      · cases h
  | c :: cs, before, rest, h => by
      rw [splitAt?] at h
      split at h
      next hprefix =>
        cases h
        obtain ⟨rest, hrest⟩ := List.isPrefixOf_iff_prefix.mp hprefix
        rw [← hrest, List.drop_left, List.nil_append]
      next =>
        obtain ⟨⟨before', rest'⟩, hcut, heq⟩ := Option.map_eq_some_iff.mp h
        cases heq
        rw [eq_append_of_splitAt? hcut, List.cons_append]

theorem not_mem_of_splitAt?_singleton {x : Char} : ∀ {cs before rest : List Char},
    splitAt? [x] cs = some (before, rest) → x ∉ before
  | [], _, _, h => by cases h
  | c :: cs, before, rest, h => by
      rw [splitAt?] at h
      split at h
      · cases h
        nofun
      next hprefix =>
        obtain ⟨⟨before', rest'⟩, hcut, heq⟩ := Option.map_eq_some_iff.mp h
        cases heq
        have hne : x ≠ c := by simpa [List.isPrefixOf] using hprefix
        simpa [hne] using not_mem_of_splitAt?_singleton hcut

/-- A cut at a character is at the first of its kind. -/
theorem splitAt?_singleton_eq_some_iff {x : Char} {cs before rest : List Char} :
    splitAt? [x] cs = some (before, rest) ↔ cs = before ++ x :: rest ∧ x ∉ before := by
  constructor
  · intro h
    exact ⟨eq_append_of_splitAt? h, not_mem_of_splitAt?_singleton h⟩
  · rintro ⟨rfl, h⟩
    exact splitAt?_append rest h

theorem splitAt?_singleton_eq_none_iff {x : Char} {cs : List Char} :
    splitAt? [x] cs = none ↔ x ∉ cs := by
  refine ⟨fun h hmem => ?_, splitAt?_eq_none_of_not_mem⟩
  obtain ⟨before, rest, rfl, hbefore⟩ := List.eq_append_cons_of_mem hmem
  rw [splitAt?_singleton_eq_some_iff.mpr ⟨rfl, hbefore⟩] at h
  cases h

theorem occurs_iff {pattern cs : List Char} : occurs pattern cs = true ↔ pattern <:+: cs := by
  constructor
  · intro h
    obtain ⟨⟨before, rest⟩, hcut⟩ := Option.isSome_iff_exists.mp h
    exact ⟨before, rest, by rw [eq_append_of_splitAt? hcut, List.append_assoc]⟩
  · induction cs with
    | nil =>
        intro h
        rw [List.infix_nil.mp h]
        rfl
    | cons c cs ih =>
        intro h
        rw [occurs, splitAt?]
        split
        · rfl
        next hprefix =>
          rw [Option.isSome_map]
          refine ih ((List.infix_cons_iff.mp h).resolve_left ?_)
          rwa [← List.isPrefixOf_iff_prefix]

/-! ## On strings -/

theorem splitOnce?_eq_some_iff {pattern s before rest : String} :
    splitOnce? pattern s = some (before, rest) ↔
      splitAt? pattern.toList s.toList = some (before.toList, rest.toList) := by
  rw [splitOnce?, Option.map_eq_some_iff]
  constructor
  · rintro ⟨⟨as, bs⟩, h, heq⟩
    cases heq
    rw [h, String.toList_ofList, String.toList_ofList]
  · intro h
    exact ⟨_, h, by rw [String.ofList_toList, String.ofList_toList]⟩

theorem splitOnce?_eq_none_iff {pattern s : String} :
    splitOnce? pattern s = none ↔ splitAt? pattern.toList s.toList = none :=
  Option.map_eq_none_iff

theorem splitOnce?_char_eq_some_iff {x : Char} {pattern s before rest : String}
    (hpattern : pattern.toList = [x]) : splitOnce? pattern s = some (before, rest) ↔
      s.toList = before.toList ++ x :: rest.toList ∧ x ∉ before.toList := by
  rw [splitOnce?_eq_some_iff, hpattern, splitAt?_singleton_eq_some_iff]

theorem splitOnce?_char_eq_none_iff {x : Char} {pattern s : String}
    (hpattern : pattern.toList = [x]) : splitOnce? pattern s = none ↔ x ∉ s.toList := by
  rw [splitOnce?_eq_none_iff, hpattern, splitAt?_singleton_eq_none_iff]

theorem after?_eq_some_iff {lead s rest : String} :
    after? lead s = some rest ↔ s.toList = lead.toList ++ rest.toList := by
  rw [after?]
  split
  next h =>
    obtain ⟨cs, hcs⟩ := List.isPrefixOf_iff_prefix.mp h
    rw [← hcs, ← String.length_toList, List.drop_left, Option.some.injEq,
      List.append_cancel_left_eq, String.ext_iff, String.toList_ofList]
  next h =>
    refine ⟨nofun, fun heq => absurd ?_ h⟩
    rw [heq]
    exact List.isPrefixOf_iff_prefix.mpr (List.prefix_append _ _)

theorem before?_eq_some_iff {final : Char} {s before : String} :
    before? final s = some before ↔ s.toList = before.toList ++ [final] := by
  rw [before?]
  split
  next h =>
    obtain ⟨cs, hcs⟩ := List.getLast?_eq_some_iff.mp h
    rw [hcs, List.dropLast_concat, Option.some.injEq, List.append_cancel_right_eq, String.ext_iff,
      String.toList_ofList]
  next h =>
    refine ⟨nofun, fun heq => absurd ?_ h⟩
    rw [heq, List.getLast?_concat]

theorem contains_iff {pattern s : String} :
    contains pattern s = true ↔ pattern.toList <:+: s.toList :=
  occurs_iff

theorem map_ofList_words_eq_iff {separates : Char → Bool} {s : String} {ss : List String} :
    (words separates s.toList).map String.ofList = ss ↔
      Spaced separates (ss.map String.toList) s.toList := by
  rw [← words_eq_iff]
  constructor
  · rintro rfl
    simp [Function.comp_def]
  · intro h
    simp [h, Function.comp_def]

theorem columns_eq_iff {s : String} {ss : List String} :
    columns s = ss ↔ Spaced isBlank (ss.map String.toList) s.toList :=
  map_ofList_words_eq_iff

theorem asciiColumns_eq_iff {s : String} {ss : List String} :
    asciiColumns s = ss ↔ Spaced isAsciiBlank (ss.map String.toList) s.toList :=
  map_ofList_words_eq_iff

theorem toList_joinBySpace (ss : List String) :
    (joinBySpace ss).toList = [' '].intercalate (ss.map String.toList) :=
  String.toList_intercalate

end ZoneHistory.Text
