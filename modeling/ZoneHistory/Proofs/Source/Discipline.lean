import Mathlib.Algebra.Group.Nat.Defs
import Mathlib.Logic.Function.Iterate
import ZoneHistory.Proofs.Source.Reads
import ZoneHistory.Source.Document

/-!
# What a parser does to the context

A parser of columns stays in its line and does the same wherever it is used: in every
context it returns one value and leaves the context as it was, or it fails on the current
line, with the labels of what was being read on top of those that were there (`Steady`).
A parser of a line goes on to the next line, and an open zone keeps its label there
(`MovesOn`).

As for the values that a parser reads, there is one lemma for each way in which parsers
are built, and one for each parser after that. The errors are kept apart by a predicate:
only the first line of a zone can fail for the way in which it begins one
(`SourceError.InColumn`).
-/

namespace ZoneHistory.Source

/-! ## Counting lines -/

namespace LineCount

/-- The count so many lines further on. -/
def skip (n : LineCount) (k : Nat) : LineCount :=
  next^[k] n

theorem skip_succ (n : LineCount) (k : Nat) : n.skip (k + 1) = (n.skip k).next :=
  Function.iterate_succ_apply' next k n

theorem toNat_skip (n : LineCount) (k : Nat) :
    (n.skip k).word.toNat = (n.word.toNat + k) % 2 ^ 32 := by
  induction k with
  | zero => exact (Nat.mod_eq_of_lt n.word.toNat_lt).symm
  | succ k ih =>
      rw [skip_succ, next, UInt32.toNat_add, ih, Nat.mod_add_mod]
      rfl

/-- Counting runs past the last number exactly if the sum does not fit the word. -/
theorem overflowed_skip_iff (n : LineCount) (k : Nat) : (n.skip k).overflowed = true ↔
    n.overflowed = true ∨ 2 ^ 32 ≤ n.word.toNat + k := by
  induction k with
  | zero =>
      have hword := n.word.toNat_lt
      exact (or_iff_left (by omega)).symm
  | succ k ih =>
      have hnext : (n.skip k).word + 1 = 0 ↔ (n.word.toNat + k + 1) % 2 ^ 32 = 0 := by
        rw [← UInt32.toNat_inj, UInt32.toNat_add, toNat_skip, Nat.mod_add_mod]
        rfl
      rw [skip_succ, next, Bool.or_eq_true, ih, beq_iff_eq, hnext, or_assoc]
      refine or_congr_right ?_
      omega

/-- As long as the sum fits the word, counting is adding. -/
theorem skip_eq_iff {line line' : UInt32} {k : Nat} :
    skip ⟨line, false⟩ k = ⟨line', false⟩ ↔ line'.toNat = line.toNat + k := by
  have hword := toNat_skip ⟨line, false⟩ k
  have hover := overflowed_skip_iff ⟨line, false⟩ k
  rw [or_iff_right Bool.false_ne_true] at hover
  dsimp only at hword hover
  constructor
  · intro h
    rw [h] at hword hover
    have hfits : ¬2 ^ 32 ≤ line.toNat + k := fun hle => Bool.false_ne_true (hover.mpr hle)
    rw [hword, Nat.mod_eq_of_lt (Nat.not_le.mp hfits)]
  · intro h
    have hfits : line.toNat + k < 2 ^ 32 := h ▸ line'.toNat_lt
    have hsame : (skip ⟨line, false⟩ k).word = line' := by
      rw [← UInt32.toNat_inj, hword, h, Nat.mod_eq_of_lt hfits]
    have hnot : (skip ⟨line, false⟩ k).overflowed = false :=
      Bool.eq_false_iff.mpr fun hle => absurd (hover.mp hle) (Nat.not_le.mpr hfits)
    exact congrArg₂ LineCount.mk hsame hnot

end LineCount

/-- The error is about a column of a line, or about a column or line that is missing. -/
def SourceError.InColumn : SourceError → Prop
  | .zoneHeader _ | .missingIdentifier _ => False
  | .endOfLine _ _ | .unknownValue _ _ | .integer _ _ _ | .namedRule _ _ => True

namespace Parse

/-! ## Sums that are checked -/

section Checked

variable {α : Type} {p : Parse α} {line line' : UInt32} {spans spans' : List String}

theorem checked_eq_some_iff {result : Except SourceError α} :
    p.checked line spans = some (result, line', spans') ↔
      p ⟨⟨line, false⟩, spans⟩ = (result, ⟨⟨line', false⟩, spans'⟩) := by
  rcases hrun : p ⟨⟨line, false⟩, spans⟩ with ⟨result', ⟨⟨line'', overflowed⟩, spans''⟩⟩
  rw [checked, hrun]
  cases overflowed with
  | false => simp
  | true => simp

theorem checked_eq_none_iff {k : Nat}
    (hcount : (p ⟨⟨line, false⟩, spans⟩).2.count = LineCount.skip ⟨line, false⟩ k) :
    p.checked line spans = none ↔ 2 ^ 32 ≤ line.toNat + k := by
  have hover := LineCount.overflowed_skip_iff ⟨line, false⟩ k
  rw [or_iff_right Bool.false_ne_true, ← hcount] at hover
  rw [checked, ← hover]
  exact ite_eq_left_iff.trans (by simp)

/-- Where there is an outcome, it is that of reading without checks. -/
theorem map_fst_checked (h : p.checked line spans ≠ none) :
    (p.checked line spans).map Prod.fst = some (p ⟨⟨line, false⟩, spans⟩).1 := by
  obtain ⟨⟨result, line', spans'⟩, hsome⟩ := Option.ne_none_iff_exists'.mp h
  rw [hsome, checked_eq_some_iff.mp hsome]
  rfl

end Checked

variable {α β : Type} {E : SourceError → Prop} {c d : Context} {e : SourceError}

/-! ## Failing -/

/-- Reading from `c` has failed in `d`, with an error of the kind `E` on the line of both. -/
structure FailsAt (E : SourceError → Prop) (c d : Context) (e : SourceError) : Prop where
  kind : E e
  line : e.line = c.line
  place : d.count = c.count
  spans : c.spans <:+ d.spans

theorem FailsAt.of_enter {label : String} (h : FailsAt E (c.enter label) d e) : FailsAt E c d e :=
  ⟨h.kind, h.line, h.place, (List.suffix_cons label c.spans).trans h.spans⟩

theorem FailsAt.mono {E' : SourceError → Prop} (h : FailsAt E c d e) (hE : ∀ e, E e → E' e) :
    FailsAt E' c d e :=
  ⟨hE _ h.kind, h.line, h.place, h.spans⟩

/-! ## Staying in a line -/

/-- Reading does the same in every context. It returns one value and leaves the context as it is,
or it fails on the current line and leaves the same labels on top of those that were there. None
of these can have been taken away in between, as it would have to be put back without being
known. -/
inductive Steady (E : SourceError → Prop) (p : Parse α) : Prop
  | reads (a : α) (run : ∀ c, p c = (.ok a, c))
  | fails (above : List String)
      (run : ∀ c, ∃ e, p c = (.error e, ⟨c.count, above ++ c.spans⟩) ∧ e.line = c.line ∧ E e)

theorem steady_return (a : α) : Steady E (return a : Parse α) :=
  .reads a fun _ => rfl

theorem steady_fail {f : Context → SourceError} (hkind : ∀ c, E (f c))
    (hline : ∀ c, (f c).line = c.line) : Steady E (fail f : Parse α) :=
  .fails [] fun c => ⟨f c, rfl, hline c, hkind c⟩

theorem Steady.bind {p : Parse α} {f : α → Parse β} (hp : Steady E p)
    (hf : ∀ a, Steady E (f a)) : Steady E (p >>= f) := by
  cases hp with
  | reads a hp =>
      have hrun (c : Context) : (p >>= f) c = f a c := bind_of_ok (hp c)
      cases hf a with
      | reads b hf => exact .reads b fun c => (hrun c).trans (hf c)
      | fails above hf =>
          refine .fails above fun c => ?_
          rw [hrun]
          exact hf c
  | fails above hp =>
      refine .fails above fun c => ?_
      obtain ⟨e, hrun, he⟩ := hp c
      exact ⟨e, bind_of_error hrun, he⟩

theorem Steady.map {p : Parse α} {f : α → β} (hp : Steady E p) : Steady E (f <$> p) :=
  hp.bind fun a => steady_return (f a)

theorem Steady.mono {E' : SourceError → Prop} {p : Parse α} (hp : Steady E p)
    (hE : ∀ e, E e → E' e) : Steady E' p := by
  cases hp with
  | reads a hp => exact .reads a hp
  | fails above hp =>
      refine .fails above fun c => ?_
      obtain ⟨e, hrun, hline, hkind⟩ := hp c
      exact ⟨e, hrun, hline, hE e hkind⟩

theorem Steady.weaken {p : Parse α} (hp : Steady E p) : Steady (fun _ => True) p :=
  hp.mono fun _ _ => trivial

theorem Steady.within {p : Parse α} (hp : Steady E p) (label : String) :
    Steady E (Parse.within label p) := by
  cases hp with
  | reads a hp => exact .reads a fun c => within_eq_ok.mpr ⟨c.enter label, hp _, rfl⟩
  | fails above hp =>
      refine .fails (above ++ [label]) fun c => ?_
      obtain ⟨e, hrun, he⟩ := hp (c.enter label)
      rw [← List.append_cons]
      exact ⟨e, within_eq_error.mpr hrun, he⟩

/-- Whatever stands above a label, taking away the innermost label leaves all those below it. -/
theorem Steady.labelled {p : Parse α} (hp : Steady E p) (label : String) :
    Steady E (Parse.labelled label p) := by
  cases hp with
  | reads a hp =>
      refine .reads a fun c => ?_
      rw [Parse.labelled, hp]
      rfl
  | fails above hp =>
      refine .fails (above ++ [label]).tail fun c => ?_
      obtain ⟨e, hrun, he⟩ := hp (c.enter label)
      refine ⟨e, ?_, he⟩
      rw [Parse.labelled, hrun, ← List.tail_append_of_ne_nil (List.append_ne_nil_of_right_ne_nil _
        (List.cons_ne_nil _ _)), ← List.append_cons]
      rfl

theorem steady_endOfLine : Steady SourceError.InColumn (endOfLine : Parse α) :=
  steady_fail (fun _ => trivial) fun _ => rfl

theorem steady_unknownValue (s : String) :
    Steady SourceError.InColumn (unknownValue s : Parse α) :=
  steady_fail (fun _ => trivial) fun _ => rfl

theorem steady_namedRule (s : String) :
    Steady SourceError.InColumn (fail fun c => .namedRule c.count.word s : Parse α) :=
  steady_fail (fun _ => trivial) fun _ => rfl

theorem steady_column (ss : List String) : Steady SourceError.InColumn (column ss) := by
  cases ss with
  | nil => exact steady_endOfLine
  | cons s rest => exact steady_return (s, rest)

theorem steady_integer (range : Text.IntegerRange) (s : String) :
    Steady SourceError.InColumn (integer range s) := by
  rw [integer]
  split
  · exact steady_return _
  · exact steady_fail (fun _ => trivial) fun _ => rfl

/-- A check after reading leaves the context as it is. -/
theorem steady_if (a : α) (condition : Prop) [Decidable condition] (s : String) :
    Steady SourceError.InColumn (if condition then return a else unknownValue s) := by
  split
  · exact steady_return a
  · exact steady_unknownValue s

/-- After success the context is as before, and an error is one on the current line. -/
structure KeepsPlace (E : SourceError → Prop) (p : Parse α) : Prop where
  ok : ∀ {c d : Context} {a : α}, p c = (.ok a, d) → d = c
  error : ∀ {c d : Context} {e : SourceError}, p c = (.error e, d) → FailsAt E c d e

theorem Steady.keepsPlace {p : Parse α} (hp : Steady E p) : KeepsPlace E p := by
  cases hp with
  | reads a hp =>
      constructor
      · intro c d b h
        rw [hp] at h
        cases h
        rfl
      · intro c d e h
        rw [hp] at h
        cases h
  | fails above hp =>
      constructor
      · intro c d b h
        obtain ⟨e, hrun, -⟩ := hp c
        rw [hrun] at h
        cases h
      · intro c d e' h
        obtain ⟨e, hrun, hline, hkind⟩ := hp c
        rw [hrun] at h
        cases h
        exact ⟨hkind, hline, rfl, List.suffix_append above c.spans⟩

/-! ## Going on to the next line -/

/-- Read from `c`, success is on the next line with the labels that belong to the value, and
failure is on the line of `c`. -/
structure MovesOn (E : SourceError → Prop) (c : Context) (labels : α → List String)
    (p : Parse α) : Prop where
  ok : ∀ {d : Context} {a : α}, p c = (.ok a, d) → d = ⟨c.count.next, labels a⟩
  error : ∀ {d : Context} {e : SourceError}, p c = (.error e, d) → FailsAt E c d e

theorem KeepsPlace.bindMovesOn {p : Parse α} {f : α → Parse β} {labels : β → List String}
    (hp : KeepsPlace E p) (hf : ∀ a, MovesOn E c labels (f a)) : MovesOn E c labels (p >>= f) := by
  constructor
  · intro d b h
    obtain ⟨a, c', ha, hb⟩ := bind_ok_iff.mp h
    rw [hp.ok ha] at hb
    exact (hf a).ok hb
  · intro d e h
    rcases bind_error_iff.mp h with h | ⟨a, c', ha, he⟩
    · exact hp.error h
    · rw [hp.ok ha] at he
      exact (hf a).error he

theorem MovesOn.map {p : Parse α} {f : α → β} {labels : α → List String}
    {labels' : β → List String} (hp : MovesOn E c labels p) (h : ∀ a, labels' (f a) = labels a) :
    MovesOn E c labels' (f <$> p) := by
  constructor
  · intro d b hb
    obtain ⟨a, ha, rfl⟩ := map_ok_iff.mp hb
    rw [h, hp.ok ha]
  · intro d e he
    exact hp.error (map_error_iff.mp he)

theorem MovesOn.mono {E' : SourceError → Prop} {p : Parse α} {labels : α → List String}
    (hp : MovesOn E c labels p) (hE : ∀ e, E e → E' e) : MovesOn E' c labels p :=
  ⟨hp.ok, fun h => (hp.error h).mono hE⟩

theorem MovesOn.afterEnter {p : Parse α} {label : String} {labels : α → List String}
    (hp : MovesOn E (c.enter label) labels p) :
    MovesOn E c labels (do update (·.enter label); p) :=
  ⟨fun h => hp.ok h, fun h => (hp.error h).of_enter⟩

theorem movesOn_fail {f : Context → SourceError} (hkind : ∀ c, E (f c))
    (hline : ∀ c, (f c).line = c.line) {labels : α → List String} :
    MovesOn E c labels (fail f) :=
  ⟨nofun, fun h => (steady_fail hkind hline).keepsPlace.error h⟩

theorem movesOn_nextLine (a : α) {labels : α → List String} (h : labels a = c.spans) :
    MovesOn E c labels (do nextLine; return a) := by
  refine ⟨fun hrun => ?_, fun hrun => ?_⟩
  · cases hrun
    rw [h]
    rfl
  · cases hrun

end Parse

open Parse

/-! ## Columns -/

theorem Amount.steady_part (s : Option String) :
    Steady SourceError.InColumn (Amount.part s) := by
  cases s with
  | none => exact steady_return 0
  | some s => exact steady_integer .signed8 s

theorem Amount.steady_parse (s : String) :
    Steady SourceError.InColumn (Amount.parse s) := by
  refine Steady.within ?_ "Time"
  refine (steady_integer .signed8 _).bind fun hour => ?_
  exact (steady_part _).bind fun minute => (steady_part _).bind fun second =>
    steady_if _ _ _

theorem steady_parseSaving (s : String) :
    Steady SourceError.InColumn (parseSaving s) := by
  refine Steady.within ?_ "Rules"
  split
  · exact steady_return none
  · split
    · exact (Amount.steady_parse s).map
    · exact steady_namedRule s

theorem Designation.steady_parse (s : String) :
    Steady SourceError.InColumn (Designation.parse s) :=
  (steady_return (ofText s)).within "Abbr. Format"

theorem steady_parseWeekday (s : String) :
    Steady SourceError.InColumn (parseWeekday s) := by
  rw [parseWeekday]
  split
  · exact steady_return _
  · exact steady_unknownValue s

theorem steady_parseMonth (s : String) : Steady SourceError.InColumn (parseMonth s) := by
  refine Steady.labelled ?_ "Month"
  split
  · exact steady_return _
  · exact steady_unknownValue s

theorem steady_parseComparison (weekdayText dayText : String) :
    Steady SourceError.InColumn (parseComparison weekdayText dayText) :=
  (steady_parseWeekday weekdayText).bind fun _ =>
    (steady_integer .unsigned8 dayText).bind fun _ => steady_return _

theorem DaySelector.steady_parse (s : String) :
    Steady SourceError.InColumn (DaySelector.parse s) := by
  refine Steady.labelled ?_ "DayOfMonth"
  split
  · exact (steady_parseWeekday _).bind fun _ => steady_return _
  · split
    · exact (steady_parseComparison _ _).bind fun _ => steady_return _
    · split
      · exact (steady_parseComparison _ _).bind fun _ => steady_return _
      · exact (steady_integer .unsigned8 s).bind fun _ => steady_return _

theorem ClockTime.steady_parse (s : String) :
    Steady SourceError.InColumn (ClockTime.parse s) :=
  (Amount.steady_parse _).bind fun _ => steady_return _

/-! ## Ends and entries -/

theorem Until.steady_optional {α : Type} {E : SourceError → Prop} {read : String → Parse α}
    (h : ∀ s, Steady E (read s)) (default : α) (s : Option String) :
    Steady E (optional read default s) := by
  cases s with
  | none => exact steady_return default
  | some s => exact h s

theorem Until.steady_parse (text : String) :
    Steady SourceError.InColumn (Until.parse text) := by
  refine Steady.within ?_ "UntilDateTime"
  refine (steady_column _).bind fun r => (steady_integer .signed32 r.1).bind fun year => ?_
  refine (steady_optional steady_parseMonth _ _).bind fun month => ?_
  refine (steady_optional DaySelector.steady_parse _ _).bind fun day => ?_
  refine (steady_optional ClockTime.steady_parse _ _).bind fun time => ?_
  split
  · exact steady_unknownValue _
  · exact steady_if _ _ text

theorem Entry.steady_parse (text : String) :
    Steady SourceError.InColumn (Entry.parse text) := by
  refine Steady.within ?_ "ZoneEntry"
  refine (steady_column _).bind fun r => (Amount.steady_parse r.1).bind fun standard => ?_
  refine (steady_column r.2).bind fun r' => (steady_parseSaving r'.1).bind fun saving => ?_
  refine (steady_column r'.2).bind fun r'' => ?_
  refine (Designation.steady_parse r''.1).bind fun designation => ?_
  split
  · exact (steady_return none).bind fun _ => steady_return _
  · exact (Until.steady_parse _).map.bind fun _ => steady_return _

/-! ## Lines of a zone -/

/-- Blanks of any kind find the word for a zone in front of the line, but ASCII blanks do not. -/
def HidesHeader (line : String) : Prop :=
  (Text.columns (withoutComment line)).head? = some "Zone" ∧
    (Text.asciiColumns (withoutComment line)).head? ≠ some "Zone"

/-- If the error is that the line begins no zone, the line hides that it begins one. -/
def SourceError.PossibleOn (line : String) (e : SourceError) : Prop :=
  ∀ n, e = .zoneHeader n → HidesHeader line

theorem SourceError.InColumn.possibleOn {e : SourceError} (h : e.InColumn) (line : String) :
    e.PossibleOn line := by
  rintro n rfl
  exact h.elim

namespace ZoneBlock

/-- A line that is taken for the beginning of a zone, and is none, hides that it begins one. -/
theorem steady_parseHeader (line : String) :
    Steady (fun e => (Text.columns (withoutComment line)).head? = some "Zone" → e.PossibleOn line)
      (parseHeader line) := by
  refine Steady.within ?_ "zone header"
  split
  next rest hcolumns =>
    cases rest with
    | nil => exact steady_fail (fun c _ => nofun) fun _ => rfl
    | cons identifier rest =>
        exact (Entry.steady_parse _).map.mono fun e he _ => he.possibleOn line
  next hcolumns =>
    refine steady_fail (fun c hzone n _ => ⟨hzone, fun hhead => ?_⟩) fun _ => rfl
    obtain ⟨rest, hrest⟩ := List.head?_eq_some_iff.mp hhead
    exact hcolumns rest hrest

/-- The labels after a line of the zone: its own as well, as long as it is open. -/
def labels (spans : List String) (b : ZoneBlock) : List String :=
  if b.isComplete then spans else "zone table" :: spans

variable {E : SourceError → Prop} {c : Context}

/-- A zone takes its label away with its last line. -/
theorem advance_enter (b : ZoneBlock) (c : Context) :
    b.advance (c.enter "zone table") = (.ok b, ⟨c.count.next, b.labels c.spans⟩) := by
  show (if b.isComplete then (do
    update Context.leave
    return b) else return b : Parse ZoneBlock) _ = _
  rw [labels]
  split
  · rfl
  · rfl

theorem movesOn_advance (b : ZoneBlock) :
    MovesOn E (c.enter "zone table") (labels c.spans) b.advance := by
  refine ⟨fun h => ?_, fun h => ?_⟩
  · rw [advance_enter] at h
    cases h
    rfl
  · rw [advance_enter] at h
    cases h

theorem movesOn_begin {line : String}
    (hzone : (Text.columns (withoutComment line)).head? = some "Zone") :
    MovesOn (SourceError.PossibleOn line) c (labels c.spans) (begin line) :=
  (((steady_parseHeader line).mono fun _ he => he hzone).keepsPlace.bindMovesOn
    fun _ => movesOn_advance _).afterEnter

theorem movesOn_extend {b : ZoneBlock} (hopen : b.isComplete = false) (line : String) :
    MovesOn SourceError.InColumn (c.enter "zone table") (labels c.spans) (b.extend line) := by
  unfold extend
  dsimp only
  split
  · refine movesOn_nextLine b ?_
    rw [labels, hopen]
    rfl
  · exact (Entry.steady_parse _).keepsPlace.bindMovesOn fun e => movesOn_advance _

end ZoneBlock

/-! ## Lines of a source -/

namespace Progress

/-- The zone whose lines go on has a last entry with an end. -/
def Open (p : Progress) : Prop :=
  ∀ b, p.unfinished = some b → b.isComplete = false

def labels (spans : List String) (p : Progress) : List String :=
  match p.unfinished with
  | some _ => "zone table" :: spans
  | none => spans

theorem labels_take (spans : List String) (d : Document) (b : ZoneBlock) :
    (take d b).labels spans = b.labels spans := by
  rw [take, ZoneBlock.labels]
  split
  · rfl
  · rfl

/-- Outside of a zone, a line with the word for one begins a zone. -/
theorem step_of_zone {line : String}
    (hzone : (Text.columns (withoutComment line)).head? = some "Zone") (d : Document) :
    step ⟨d, none⟩ line = (do return take d (← ZoneBlock.begin line)) := by
  obtain ⟨rest, hcolumns⟩ := List.head?_eq_some_iff.mp hzone
  unfold step
  dsimp only
  rw [hcolumns]
  rfl

theorem steady_parseLink (rest : List String) :
    Steady SourceError.InColumn (parseLink rest) :=
  ((steady_column rest).bind fun r => (steady_column r.2).bind fun r' =>
    steady_return (r'.1, r.1)).within "Link"

/-- Read with the labels of what has been read before it, a line leaves those of what has been read
with it. -/
theorem movesOn_step {p : Progress} (hopen : p.Open) (line : String) (n : LineCount)
    (spans : List String) :
    MovesOn (SourceError.PossibleOn line) ⟨n, p.labels spans⟩ (labels spans) (p.step line) := by
  obtain ⟨document, b | b⟩ := p
  · unfold step
    dsimp only
    split
    · exact movesOn_nextLine _ rfl
    next rest hcolumns =>
      refine (ZoneBlock.movesOn_begin ?_).map (labels_take spans document)
      rw [hcolumns]
      rfl
    next rest hcolumns =>
      refine ((steady_parseLink rest).mono fun e he =>
        he.possibleOn line).keepsPlace.bindMovesOn ?_
      exact fun link => movesOn_nextLine _ rfl
    next rest hcolumns =>
      refine MovesOn.mono ?_ fun e he => SourceError.InColumn.possibleOn he line
      exact ((steady_column rest).keepsPlace.bindMovesOn fun _ =>
        movesOn_fail (fun _ => trivial) fun _ => rfl).afterEnter
    · refine MovesOn.mono ?_ fun e he => SourceError.InColumn.possibleOn he line
      exact movesOn_fail (fun _ => trivial) fun _ => rfl
  · have hextend := ZoneBlock.movesOn_extend (c := ⟨n, spans⟩) (hopen b rfl) line
    exact (hextend.mono fun e he => he.possibleOn line).map (labels_take spans document)

end Progress

end ZoneHistory.Source
