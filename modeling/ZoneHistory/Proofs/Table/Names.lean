import Mathlib.Data.List.Induction
import ZoneHistory.Proofs.Checks
import ZoneHistory.Proofs.Table.History

/-!
# Whom a name belongs to

A name belongs to the first operation that gives it, be it to a zone or to an alias.
`naming?` finds that operation among those carried out, with no regard to the table,
and `Table.Remembers` says that a table answers by it: the zone or the target under a
name is the one of the first operation that gave the name.

One operation keeps this up, whether it succeeds (`Remembers.enter`) or fails
(`Remembers.refuse`), so every history does (`remembers_after`). What follows is all
there is to know about names: which operations succeed (`exists_enter_eq_ok_iff`,
`Remembers.contains_iff`), where a name leads (`Remembers.resolve_eq_some_iff`) and that
it keeps leading there (`resolve_after_append`).
-/

namespace ZoneHistory

namespace Table

/-! ## The names that operations give -/

namespace Operation

/-- The name that the operation gives: the identifier of its zone, or the alias. -/
def name : Operation → String
  | insert z => z.identifier
  | link name _ => name

def target? : Operation → Option String
  | insert _ => none
  | link _ target => some target

end Operation

/-- The first operation that gives a name. -/
def naming? (ops : List Operation) (name : String) : Option Operation :=
  ops.find? (·.name = name)

/-- The operations that give a name which no operation before them gives. -/
def firsts (ops : List Operation) : List Operation :=
  ops.eraseDupsBy fun a b => a.name == b.name

theorem naming?_eq_none_iff {ops : List Operation} {name : String} :
    naming? ops name = none ↔ ∀ op ∈ ops, op.name ≠ name := by
  simp [naming?]

theorem name_of_naming? {ops : List Operation} {name : String} {op : Operation}
    (h : naming? ops name = some op) : op.name = name := by
  have := List.find?_some h
  simpa using this

theorem naming?_append (ops more : List Operation) (name : String) :
    naming? (ops ++ more) name = (naming? ops name).or (naming? more name) :=
  List.find?_append

theorem naming?_append_of_eq_some {ops : List Operation} {name : String} {op : Operation}
    (h : naming? ops name = some op) (more : List Operation) :
    naming? (ops ++ more) name = some op := by
  rw [naming?_append, h, Option.some_or]

theorem naming?_singleton (op : Operation) (name : String) :
    naming? [op] name = if op.name = name then some op else none := by
  by_cases h : op.name = name <;> simp [naming?, h]

/-! ## One operation -/

/-- An operation succeeds exactly if nothing has its name. -/
theorem exists_enter_eq_ok_iff {t : Table} {op : Operation} :
    (∃ t', t.enter op = .ok t') ↔ t.contains op.name = false := by
  cases op with
  | insert z => simp [enter, Operation.name, insert_eq_ok_iff]
  | link name target => simp [enter, Operation.name, link_eq_ok_iff]

theorem contains_of_enter_eq_ok {t t' : Table} {op : Operation} (h : t.enter op = .ok t') :
    t.contains op.name = false :=
  exists_enter_eq_ok_iff.mp ⟨t', h⟩

theorem enter_of_contains {t : Table} {op : Operation} (h : t.contains op.name = true) :
    t.enter op = .error (.malformed op.name .duplicateName) := by
  cases op with
  | insert z => exact if_pos h
  | link name target => exact if_pos h

theorem after_concat_of_ok {t t' : Table} {ops : List Operation} {op : Operation}
    (h : (t.after ops).enter op = .ok t') : t.after (ops ++ [op]) = t' := by
  rw [after_append, after, h]
  rfl

/-- An operation that fails leaves the table as it is. -/
theorem after_concat_of_error {t : Table} {ops : List Operation} {op : Operation} {e : ZoneError}
    (h : (t.after ops).enter op = .error e) : t.after (ops ++ [op]) = t.after ops := by
  rw [after_append, after, h]
  rfl

theorem find?_enter {t t' : Table} {op : Operation} (h : t.enter op = .ok t') (name : String) :
    t'.find? name = (t.find? name).or (if op.name = name then op.zone? else none) := by
  cases op with
  | insert z =>
      obtain ⟨-, rfl⟩ := insert_eq_ok_iff.mp h
      by_cases hname : z.identifier = name <;>
        simp [find?, Operation.name, Operation.zone?, hname]
  | link other target =>
      obtain ⟨-, rfl⟩ := link_eq_ok_iff.mp h
      simp [find?, Operation.zone?]

theorem get?_enter {t t' : Table} {op : Operation} (h : t.enter op = .ok t') (name : String) :
    t'.links.get? name =
      (t.links.get? name).or (if op.name = name then op.target? else none) := by
  cases op with
  | insert z =>
      obtain ⟨-, rfl⟩ := insert_eq_ok_iff.mp h
      simp [Operation.target?]
  | link other target =>
      obtain ⟨hfree, rfl⟩ := link_eq_ok_iff.mp h
      by_cases hname : other = name
      · obtain ⟨-, hnone⟩ := contains_eq_false_iff.mp hfree
        subst hname
        simp [Dictionary.get?_insert_self, hnone, Operation.name, Operation.target?]
      · simp [Dictionary.get?_insert_of_ne (Ne.symm hname), Operation.name, hname]

/-! ## What a table remembers -/

/-- What the table holds under a name comes from the first operation that gave the name, and its
zones have names of their own. -/
structure Remembers (t : Table) (ops : List Operation) : Prop where
  find? : ∀ name, t.find? name = (naming? ops name).bind Operation.zone?
  get? : ∀ name, t.links.get? name = (naming? ops name).bind Operation.target?
  distinct : t.zones.Pairwise fun a b => a.identifier ≠ b.identifier

theorem remembers_empty : Remembers empty [] :=
  ⟨fun _ => rfl, fun _ => rfl, List.Pairwise.nil⟩

section

variable {t t' : Table} {ops : List Operation} {op : Operation}

theorem Remembers.contains_eq (h : t.Remembers ops) (name : String) :
    t.contains name = (naming? ops name).isSome := by
  rw [contains, Dictionary.hasKey_eq_isSome_get?, h.find?, h.get?]
  cases naming? ops name with
  | none => rfl
  | some op => cases op <;> rfl

/-- The names in use are those that some operation gave, also one that failed. -/
theorem Remembers.contains_iff (h : t.Remembers ops) {name : String} :
    t.contains name = true ↔ ∃ op ∈ ops, op.name = name := by
  rw [h.contains_eq, naming?, List.find?_isSome]
  simp

theorem Remembers.contains_eq_false_iff (h : t.Remembers ops) {name : String} :
    t.contains name = false ↔ ∀ op ∈ ops, op.name ≠ name := by
  rw [h.contains_eq, Option.isSome_eq_false_iff, Option.isNone_iff_eq_none, naming?_eq_none_iff]

theorem Remembers.enter (h : t.Remembers ops) (hok : t.enter op = .ok t') :
    t'.Remembers (ops ++ [op]) := by
  have hfree := contains_of_enter_eq_ok hok
  have hnone : naming? ops op.name = none :=
    naming?_eq_none_iff.mpr (h.contains_eq_false_iff.mp hfree)
  refine ⟨fun name => ?_, fun name => ?_, ?_⟩
  · rw [find?_enter hok, h.find?, naming?_append, naming?_singleton]
    by_cases hname : op.name = name
    · subst hname
      simp [hnone]
    · simp [hname]
  · rw [get?_enter hok, h.get?, naming?_append, naming?_singleton]
    by_cases hname : op.name = name
    · subst hname
      simp [hnone]
    · simp [hname]
  · rw [zones_enter hok]
    refine List.pairwise_append.mpr ⟨h.distinct, ?_, ?_⟩
    · cases op with
      | insert z => exact List.pairwise_singleton _ z
      | link name target => exact List.Pairwise.nil
    · intro y hy z hz
      have hother := (Table.contains_eq_false_iff.mp hfree).1 y hy
      cases op with
      | insert z' =>
          obtain rfl : z = z' := by simpa [zonesOf, Operation.zone?] using hz
          exact hother
      | link name target => simp [zonesOf, Operation.zone?] at hz

/-- A name that is given once more still belongs to the operation that gave it first. -/
theorem Remembers.refuse (h : t.Remembers ops) (hdup : t.contains op.name = true) :
    t.Remembers (ops ++ [op]) := by
  have hsame (name : String) : naming? (ops ++ [op]) name = naming? ops name := by
    rw [naming?_append, naming?_singleton]
    by_cases hname : op.name = name
    · subst hname
      rw [h.contains_eq] at hdup
      obtain ⟨first, hfirst⟩ := Option.isSome_iff_exists.mp hdup
      simp [hfirst]
    · simp [hname]
  exact ⟨fun name => by rw [hsame, h.find?], fun name => by rw [hsame, h.get?], h.distinct⟩

/-- Whatever its history, a table answers by the first operation that gave a name. -/
theorem remembers_after (ops : List Operation) : (empty.after ops).Remembers ops := by
  induction ops using List.reverseRecOn with
  | nil => exact remembers_empty
  | append_singleton ops op ih =>
      cases hop : (empty.after ops).enter op with
      | ok t' =>
          rw [after_concat_of_ok hop]
          exact ih.enter hop
      | error e =>
          rw [after_concat_of_error hop]
          refine ih.refuse ?_
          rw [← Bool.not_eq_false, ← exists_enter_eq_ok_iff, hop]
          simp

/-! ## Where a name leads -/

theorem Remembers.find?_eq_some_iff (h : t.Remembers ops) {name : String} {z : Zone} :
    t.find? name = some z ↔ naming? ops name = some (.insert z) := by
  rw [h.find?]
  cases naming? ops name with
  | none => simp
  | some op => cases op <;> simp [Operation.zone?]

theorem Remembers.get?_eq_some_iff (h : t.Remembers ops) {name target : String} :
    t.links.get? name = some target ↔ naming? ops name = some (.link name target) := by
  rw [h.get?]
  cases hop : naming? ops name with
  | none => simp
  | some op =>
      have hname := name_of_naming? hop
      cases op with
      | insert z => simp [Operation.target?]
      | link other target' =>
          obtain rfl : other = name := hname
          simp [Operation.target?]

/-- A name is not both that of a zone and an alias. -/
theorem Remembers.find?_or_get?_eq_none (h : t.Remembers ops) (name : String) :
    t.find? name = none ∨ t.links.get? name = none := by
  rw [h.find?, h.get?]
  cases naming? ops name with
  | none => exact Or.inl rfl
  | some op =>
      cases op with
      | insert z => exact Or.inr rfl
      | link other target => exact Or.inl rfl

theorem Remembers.resolve_of_insert (h : t.Remembers ops) {name : String} {z : Zone}
    (hname : naming? ops name = some (.insert z)) : t.resolve name = some name := by
  rw [resolve, h.find?_eq_some_iff.mpr hname]
  exact congrArg some (name_of_naming? hname)

theorem Remembers.resolve_of_link (h : t.Remembers ops) {name target : String}
    (hname : naming? ops name = some (.link name target)) :
    t.resolve name = (t.find? target).map (·.identifier) := by
  have hnone : t.find? name = none := by rw [h.find?, hname]; rfl
  rw [resolve, hnone, h.get?_eq_some_iff.mpr hname]
  show ((t.find? target).bind fun z => some z.identifier) = _
  cases t.find? target <;> rfl

/-- A name leads to itself if it was first given to a zone, and to its target if it was first given
to an alias and the target to a zone. -/
theorem Remembers.resolve_eq_some_iff (h : t.Remembers ops) {name identifier : String} :
    t.resolve name = some identifier ↔
      (∃ z, naming? ops name = some (.insert z)) ∧ identifier = name ∨
        naming? ops name = some (.link name identifier) ∧
          ∃ z, naming? ops identifier = some (.insert z) := by
  cases hop : naming? ops name with
  | none =>
      have hfind : t.find? name = none := by rw [h.find?, hop]; rfl
      have hget : t.links.get? name = none := by rw [h.get?, hop]; rfl
      simp [resolve, hfind, hget]
  | some op =>
      have hname := name_of_naming? hop
      cases op with
      | insert z =>
          rw [h.resolve_of_insert hop]
          simp [eq_comm]
      | link other target =>
          obtain rfl : other = name := hname
          rw [h.resolve_of_link hop, Option.map_eq_some_iff]
          constructor
          · rintro ⟨z, hz, rfl⟩
            have htarget := h.find?_eq_some_iff.mp hz
            obtain rfl : z.identifier = target := name_of_naming? htarget
            exact Or.inr ⟨rfl, z, htarget⟩
          · rintro (⟨⟨z, hz⟩, -⟩ | ⟨hlink, z, hz⟩)
            · cases hz
            · cases hlink
              exact ⟨z, h.find?_eq_some_iff.mpr hz, name_of_naming? hz⟩

/-- The zone that a name stands for is the one that the name resolves to. -/
theorem Remembers.zone_eq_ok_iff (h : t.Remembers ops) {name : String} {z : Zone} :
    t.zone name = .ok z ↔
      t.resolve name = some z.identifier ∧ naming? ops z.identifier = some (.insert z) := by
  rw [zone]
  cases hresolve : t.resolve name with
  | none => simp
  | some identifier =>
      rw [Option.bind_some]
      constructor
      · intro hz
        cases hfind : t.find? identifier with
        | none => rw [hfind] at hz; cases hz
        | some y =>
            rw [hfind] at hz
            cases hz
            have hfirst := h.find?_eq_some_iff.mp hfind
            obtain rfl : z.identifier = identifier := name_of_naming? hfirst
            exact ⟨rfl, hfirst⟩
      · rintro ⟨hidentifier, hfirst⟩
        cases hidentifier
        rw [h.find?_eq_some_iff.mpr hfirst]

theorem Remembers.exists_zone_eq_ok_iff (h : t.Remembers ops) {name : String} :
    (∃ z, t.zone name = .ok z) ↔ ∃ identifier, t.resolve name = some identifier := by
  constructor
  · rintro ⟨z, hz⟩
    exact ⟨_, (h.zone_eq_ok_iff.mp hz).1⟩
  · rintro ⟨identifier, hresolve⟩
    obtain ⟨z, hz⟩ : ∃ z, naming? ops identifier = some (.insert z) := by
      rcases h.resolve_eq_some_iff.mp hresolve with ⟨hz, rfl⟩ | ⟨-, hz⟩
      · exact hz
      · exact hz
    obtain rfl : z.identifier = identifier := name_of_naming? hz
    exact ⟨z, h.zone_eq_ok_iff.mpr ⟨hresolve, hz⟩⟩

end

/-- What a name leads to stays so, whatever is carried out later. -/
theorem resolve_after_append {ops : List Operation} {name identifier : String}
    (h : (empty.after ops).resolve name = some identifier) (more : List Operation) :
    (empty.after (ops ++ more)).resolve name = some identifier := by
  rw [(remembers_after _).resolve_eq_some_iff] at h ⊢
  rcases h with ⟨⟨z, hz⟩, rfl⟩ | ⟨hlink, z, hz⟩
  · exact Or.inl ⟨⟨z, naming?_append_of_eq_some hz more⟩, rfl⟩
  · exact Or.inr ⟨naming?_append_of_eq_some hlink more, z, naming?_append_of_eq_some hz more⟩

theorem zone_after_append {ops : List Operation} {name : String} {z : Zone}
    (h : (empty.after ops).zone name = .ok z) (more : List Operation) :
    (empty.after (ops ++ more)).zone name = .ok z := by
  obtain ⟨hresolve, hfirst⟩ := (remembers_after ops).zone_eq_ok_iff.mp h
  exact (remembers_after _).zone_eq_ok_iff.mpr
    ⟨resolve_after_append hresolve more, naming?_append_of_eq_some hfirst more⟩

/-! ## Which operations succeed -/

theorem contains_enter {t t' : Table} {op : Operation} (h : t.enter op = .ok t') (name : String) :
    t'.contains name = (t.contains name || decide (op.name = name)) := by
  rw [contains, contains, Dictionary.hasKey_eq_isSome_get?, Dictionary.hasKey_eq_isSome_get?,
    find?_enter h, get?_enter h]
  by_cases hname : op.name = name
  · cases op <;> simp [hname, Operation.zone?, Operation.target?]
  · simp [hname]

/-- The operations that succeed are the first ones to give names that are free. -/
theorem entered_eq : ∀ (t : Table) (ops : List Operation),
    t.entered ops = firsts (ops.filter fun op => !t.contains op.name)
  | _, [] => rfl
  | t, op :: rest => by
      rw [entered, List.filter_cons]
      cases hop : t.enter op with
      | error e =>
          have hdup : t.contains op.name = true := by
            rw [← Bool.not_eq_false, ← exists_enter_eq_ok_iff, hop]
            simp
          simp only [hdup, Bool.not_true, Bool.false_eq_true, if_false]
          exact entered_eq t rest
      | ok t' =>
          have hfree := contains_of_enter_eq_ok hop
          simp only [hfree, Bool.not_false, if_true]
          rw [entered_eq t' rest, firsts, firsts, List.eraseDupsBy_cons, List.filter_filter]
          refine congrArg (fun l => op :: List.eraseDupsBy _ l) (List.filter_congr fun o _ => ?_)
          rw [contains_enter hop, Bool.not_or, Bool.and_comm]
          by_cases hname : op.name = o.name
          · simp [hname]
          · simp [hname, Ne.symm hname]

theorem entered_empty (ops : List Operation) : empty.entered ops = firsts ops := by
  have hfree : (ops.filter fun op => !empty.contains op.name) = ops :=
    List.filter_eq_self.mpr fun _ _ => rfl
  rw [entered_eq, hfree]

/-! ## Tables of zones alone -/

theorem ofZones_concat (zones : List Zone) (z : Zone) :
    ofZones (zones ++ [z]) = ofZones zones >>= fun t => t.insert z := by
  rw [ofZones, List.foldlM_append]
  simp only [List.foldlM_cons, List.foldlM_nil, bind_pure]
  rfl

/-- Zones make a table exactly if their identifiers are distinct, and it then holds them all. -/
theorem ofZones_eq_ok_iff {zones : List Zone} {t : Table} :
    ofZones zones = .ok t ↔
      (zones.Pairwise fun a b => a.identifier ≠ b.identifier) ∧ t = ⟨zones, []⟩ := by
  induction zones using List.reverseRecOn generalizing t with
  | nil =>
      constructor
      · rintro ⟨⟩
        exact ⟨List.Pairwise.nil, rfl⟩
      · rintro ⟨-, rfl⟩
        rfl
  | append_singleton zones z ih =>
      rw [ofZones_concat, bind_eq_ok_iff]
      constructor
      · rintro ⟨t', ht', hinsert⟩
        obtain ⟨hdistinct, rfl⟩ := ih.mp ht'
        obtain ⟨hfree, rfl⟩ := insert_eq_ok_iff.mp hinsert
        refine ⟨List.pairwise_append.mpr ⟨hdistinct, List.pairwise_singleton _ _, ?_⟩, rfl⟩
        intro y hy x hx
        rw [List.mem_singleton.mp hx]
        exact (contains_eq_false_iff.mp hfree).1 y hy
      · rintro ⟨hdistinct, rfl⟩
        obtain ⟨hzones, -, hz⟩ := List.pairwise_append.mp hdistinct
        refine ⟨⟨zones, []⟩, ih.mpr ⟨hzones, rfl⟩, insert_eq_ok_iff.mpr ⟨?_, rfl⟩⟩
        exact contains_eq_false_iff.mpr ⟨fun y hy => hz y hy z List.mem_cons_self, rfl⟩

/-- No table is made if an identifier occurs twice. The first zone whose identifier has occurred is
the error. -/
theorem ofZones_eq_error_iff {zones : List Zone} {e : ZoneError} :
    ofZones zones = .error e ↔ ∃ before z rest, zones = before ++ z :: rest ∧
      (before.Pairwise fun a b => a.identifier ≠ b.identifier) ∧
      (∃ y ∈ before, y.identifier = z.identifier) ∧
      e = .malformed z.identifier .duplicateName := by
  constructor
  · intro h
    induction zones using List.reverseRecOn with
    | nil => cases h
    | append_singleton zones z ih =>
        rw [ofZones_concat, bind_eq_error_iff] at h
        rcases h with h | ⟨t, ht, h⟩
        · obtain ⟨before, y, rest, rfl, hrest⟩ := ih h
          exact ⟨before, y, rest ++ [z], by simp, hrest⟩
        · obtain ⟨hdistinct, rfl⟩ := ofZones_eq_ok_iff.mp ht
          refine ⟨zones, z, [], rfl, hdistinct, ?_, ?_⟩
          · by_contra hnone
            have hfree : (⟨zones, []⟩ : Table).contains z.identifier = false :=
              contains_eq_false_iff.mpr ⟨fun y hy heq => hnone ⟨y, hy, heq⟩, rfl⟩
            rw [insert_eq_ok_iff.mpr ⟨hfree, rfl⟩] at h
            cases h
          · rw [insert] at h
            split at h
            · exact (Except.error.inj h).symm
            · cases h
  · rintro ⟨before, z, rest, rfl, hdistinct, ⟨y, hy, heq⟩, rfl⟩
    have hdup : (⟨before, []⟩ : Table).contains z.identifier = true := by
      rw [← Bool.not_eq_false, contains_eq_false_iff]
      exact fun h => h.1 y hy heq
    have hbefore : before.foldlM insert empty = .ok ⟨before, []⟩ :=
      ofZones_eq_ok_iff.mpr ⟨hdistinct, rfl⟩
    rw [ofZones, List.foldlM_append, hbefore]
    refine bind_eq_error_iff.mpr (Or.inr ⟨_, rfl, ?_⟩)
    rw [List.foldlM_cons]
    exact bind_eq_error_iff.mpr (Or.inl (if_pos hdup))

/-! ## The law of names -/

/-- A table after any operations, told by the first operation that gives each name. An operation
whose name was given before is refused and changes nothing; the zones are those entered first under
their names, in order; a name leads to the zone first entered under it, or under the target first
entered for it, and leads there forever. Zones alone make a table if no two share a name. -/
theorem name_belongs_to_first_operation (ops : List Operation) :
    (∀ op : Operation,
      ((∃ t, (empty.after ops).enter op = .ok t) ↔ ∀ o ∈ ops, o.name ≠ op.name) ∧
      ∀ e, (empty.after ops).enter op = .error e →
        e = .malformed op.name .duplicateName ∧ e.kind = .malformedTable ∧
          empty.after (ops ++ [op]) = empty.after ops) ∧
    (empty.after ops).zones = zonesOf (empty.entered ops) ∧ empty.entered ops = firsts ops ∧
    ((empty.after ops).zones.Pairwise fun a b => a.identifier ≠ b.identifier) ∧
    (∀ z ∈ (empty.after ops).zones, (empty.after ops).find? z.identifier = some z) ∧
    (∀ name, ((empty.after ops).find? name = none ∨ (empty.after ops).links.get? name = none) ∧
      (∀ target, (empty.after ops).links.get? name = some target ↔
        naming? ops name = some (.link name target)) ∧
      ((empty.after ops).contains name = true ↔ ∃ op ∈ ops, op.name = name)) ∧
    (∀ name identifier, (empty.after ops).resolve name = some identifier ↔
      (∃ z, naming? ops name = some (.insert z)) ∧ identifier = name ∨
        naming? ops name = some (.link name identifier) ∧
          ∃ z, naming? ops identifier = some (.insert z)) ∧
    (∀ name, ((∃ z, (empty.after ops).zone name = .ok z) ↔
        ∃ identifier, (empty.after ops).resolve name = some identifier) ∧
      ∀ z, (empty.after ops).zone name = .ok z →
        (empty.after ops).resolve name = some z.identifier) ∧
    (∀ more name, (∀ identifier, (empty.after ops).resolve name = some identifier →
        (empty.after (ops ++ more)).resolve name = some identifier) ∧
      ∀ z, (empty.after ops).zone name = .ok z → (empty.after (ops ++ more)).zone name = .ok z) ∧
    ∀ zones, (∀ t, ofZones zones = .ok t ↔
        (zones.Pairwise fun a b => a.identifier ≠ b.identifier) ∧ t = ⟨zones, []⟩) ∧
      ∀ e, ofZones zones = .error e ↔ ∃ before z rest, zones = before ++ z :: rest ∧
        (before.Pairwise fun a b => a.identifier ≠ b.identifier) ∧
        (∃ y ∈ before, y.identifier = z.identifier) ∧
        e = .malformed z.identifier .duplicateName := by
  have h := remembers_after ops
  refine ⟨fun op => ⟨?_, fun e he => ?_⟩, zones_after empty ops, entered_empty ops, h.distinct,
    fun z hz => find?_identifier h.distinct hz,
    fun name => ⟨h.find?_or_get?_eq_none name, fun _ => h.get?_eq_some_iff, h.contains_iff⟩,
    fun name identifier => h.resolve_eq_some_iff,
    fun name => ⟨h.exists_zone_eq_ok_iff, fun z hz => (h.zone_eq_ok_iff.mp hz).1⟩,
    fun more name => ⟨fun _ hid => resolve_after_append hid more,
      fun _ hz => zone_after_append hz more⟩,
    fun zones => ⟨fun _ => ofZones_eq_ok_iff, fun _ => ofZones_eq_error_iff⟩⟩
  · rw [exists_enter_eq_ok_iff, h.contains_eq_false_iff]
  · have hdup : (empty.after ops).contains op.name = true := by
      rw [← Bool.not_eq_false, ← exists_enter_eq_ok_iff, he]
      simp
    have hmalformed := (enter_of_contains hdup).symm.trans he
    cases hmalformed
    exact ⟨rfl, rfl, after_concat_of_error he⟩

/-- An alias may come before its zone and then leads there for good. The name of the zone cannot
become an alias, nor the alias a zone, and an alias of the alias leads nowhere. -/
theorem alias_before_its_zone :
    let z := Zone.ofChanges ⟨60⟩ [(⟨0⟩, ⟨120⟩)]
    let ops : List Operation := [.link "Old" "Changes", .insert z, .link "Older" "Old"]
    (∀ e, (empty.after ops).enter (.link "Changes" "Old") = .error e →
        e = .malformed "Changes" .duplicateName) ∧
      ¬(∃ t, (empty.after ops).enter (.insert { z with identifier := "Old" }) = .ok t) ∧
      (empty.after ops).resolve "Older" = none ∧
      ∀ more, (empty.after (ops ++ more)).resolve "Old" = some "Changes" ∧
        (empty.after (ops ++ more)).zone "Changes" = .ok z := by
  intro z ops
  obtain ⟨hop, -, -, -, -, -, hresolve, -, hmore, -⟩ := name_belongs_to_first_operation ops
  have hold : (empty.after ops).resolve "Old" = some "Changes" :=
    (hresolve "Old" "Changes").mpr (Or.inr ⟨rfl, z, rfl⟩)
  refine ⟨fun e he => ((hop _).2 e he).1, ?_, by decide +kernel, fun more => ⟨?_, ?_⟩⟩
  · rw [(hop _).1]
    exact fun h => h (.link "Old" "Changes") List.mem_cons_self rfl
  · exact (hmore more "Old").1 _ hold
  · exact (hmore more "Changes").2 z (by decide +kernel)
end Table

end ZoneHistory
