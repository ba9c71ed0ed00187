import ZoneHistory.Proofs.Source.Ends
import ZoneHistory.Proofs.Table.Names
import ZoneHistory.Proofs.Table.RoundTrip

/-!
# What loading accepts and what it refuses

Loading meets candidates in order, each with a name and with what was made of it, if
that was possible. `outcomes` says what becomes of each of them in view of those before
it: a candidate that could not be made keeps its error, and one whose name an earlier
candidate has that could be made is a duplicate. All others are accepted. A candidate
that could not be made plays no part in the outcome of any other.

Entering one candidate adds its outcome to the table or to the rejections
(`adds_record`), and so does entering them one after the other (`adds_enterAll`). A load is
therefore divided by the outcomes, first those of the records and then those of the
links (`divides_build`). This holds for source text and for JSON alike, and a record
that cannot be a zone may as well be cut out of the source
(`loading_divides_the_source`).
-/

namespace ZoneHistory

namespace Load

open Table

/-! ## Candidates and their outcomes -/

section

variable {α : Type}

/-- The names of the candidates that could be made. -/
def made (cs : List (String × Except ZoneError α)) : List String :=
  (cs.filter (·.2.isOk)).map (·.1)

/-- What becomes of a candidate if some names are in use. -/
def outcome (used : List String) (c : String × Except ZoneError α) : Except ZoneError α :=
  match c.2 with
  | .error e => .error e
  | .ok a => if c.1 ∈ used then .error (.malformed c.1 .duplicateName) else .ok a

/-- What becomes of the candidates in order. The names in use are those given and those of the
candidates before that could be made. -/
def outcomes (used : List String) (cs : List (String × Except ZoneError α)) :
    List (String × Except ZoneError α) :=
  cs.mapIdx fun i c => (c.1, outcome (used ++ made (cs.take i)) c)

def accepted (cs : List (String × Except ZoneError α)) : List α :=
  cs.filterMap (·.2.toOption)

def refused (cs : List (String × Except ZoneError α)) : List (String × ZoneError) :=
  cs.filterMap fun c =>
    match c.2 with
    | .error e => some (c.1, e)
    | .ok _ => none

theorem accepted_append (cs ds : List (String × Except ZoneError α)) :
    accepted (cs ++ ds) = accepted cs ++ accepted ds :=
  List.filterMap_append

theorem refused_append (cs ds : List (String × Except ZoneError α)) :
    refused (cs ++ ds) = refused cs ++ refused ds :=
  List.filterMap_append

theorem made_error (name : String) (e : ZoneError) :
    made [(name, (.error e : Except ZoneError α))] = [] := rfl

theorem made_ok (name : String) (a : α) : made [(name, .ok a)] = [name] := rfl

theorem mem_made {name : String} {cs : List (String × Except ZoneError α)} :
    name ∈ made cs ↔ ∃ a, (name, .ok a) ∈ cs := by
  simp only [made, List.mem_map, List.mem_filter]
  constructor
  · rintro ⟨⟨name, x⟩, ⟨hmem, hok⟩, rfl⟩
    cases x with
    | error e => cases hok
    | ok a => exact ⟨a, hmem⟩
  · rintro ⟨a, hmem⟩
    exact ⟨(name, .ok a), ⟨hmem, rfl⟩, rfl⟩

theorem outcome_of_mem {used : List String} {name : String} (h : name ∈ used) (a : α) :
    outcome used (name, .ok a) = .error (.malformed name .duplicateName) :=
  if_pos h

theorem outcome_of_not_mem {used : List String} {name : String} (h : name ∉ used) (a : α) :
    outcome used (name, .ok a) = .ok a :=
  if_neg h

/-- What is accepted could be made, and what could not be made is refused for that reason. -/
theorem outcome_eq_ok_iff {used : List String} {c : String × Except ZoneError α} {a : α} :
    outcome used c = .ok a ↔ c.2 = .ok a ∧ c.1 ∉ used := by
  obtain ⟨name, x⟩ := c
  cases x with
  | error e => simp [outcome]
  | ok b =>
      by_cases h : name ∈ used
      · simp [outcome_of_mem h, h]
      · simp [outcome_of_not_mem h, h]

theorem made_append (cs ds : List (String × Except ZoneError α)) :
    made (cs ++ ds) = made cs ++ made ds := by
  rw [made, List.filter_append, List.map_append]
  rfl

theorem made_cons (c : String × Except ZoneError α) (cs : List (String × Except ZoneError α)) :
    made (c :: cs) = made [c] ++ made cs :=
  made_append [c] cs

theorem outcomes_cons (used : List String) (c : String × Except ZoneError α)
    (cs : List (String × Except ZoneError α)) :
    outcomes used (c :: cs) = (c.1, outcome used c) :: outcomes (used ++ made [c]) cs := by
  rw [outcomes, List.mapIdx_cons]
  refine congrArg₂ List.cons ?_ ?_
  · simp [made]
  · refine congrArg (fun f => List.mapIdx f cs) (funext fun i => funext fun d => ?_)
    rw [List.take_succ_cons, made_cons, List.append_assoc]

theorem outcomes_append (used : List String) (cs ds : List (String × Except ZoneError α)) :
    outcomes used (cs ++ ds) = outcomes used cs ++ outcomes (used ++ made cs) ds := by
  induction cs generalizing used with
  | nil => simp [outcomes, made]
  | cons c cs ih =>
      rw [List.cons_append, outcomes_cons, outcomes_cons, ih, made_cons c cs, List.cons_append,
        List.append_assoc]

/-- A candidate that could not be made is refused, and the others fare as without it. -/
theorem refused_outcomes_error (used : List String)
    (before rest : List (String × Except ZoneError α)) (name : String) (e : ZoneError) :
    refused (outcomes used (before ++ (name, .error e) :: rest)) =
      refused (outcomes used before) ++
        (name, e) :: refused (outcomes (used ++ made before) rest) := by
  rw [outcomes_append, refused_append, outcomes_cons, made_error, List.append_nil]
  rfl

/-- A candidate is accepted exactly if it could be made, its name is not in use and no candidate of
that name could be made before it. -/
theorem mem_accepted_outcomes_iff {used : List String} {cs : List (String × Except ZoneError α)}
    {a : α} : a ∈ accepted (outcomes used cs) ↔
      ∃ before name rest, cs = before ++ (name, .ok a) :: rest ∧ name ∉ used ∧
        ∀ b, (name, .ok b) ∉ before := by
  induction cs generalizing used with
  | nil => simp [outcomes, accepted]
  | cons c cs ih =>
      have hhead : a ∈ accepted [(c.1, outcome used c)] ↔ c.2 = .ok a ∧ c.1 ∉ used := by
        rw [← outcome_eq_ok_iff]
        cases outcome used c <;> simp [accepted, Except.toOption, eq_comm]
      have hsplit : accepted (outcomes used (c :: cs)) =
          accepted [(c.1, outcome used c)] ++ accepted (outcomes (used ++ made [c]) cs) := by
        rw [outcomes_cons]
        exact accepted_append [(c.1, outcome used c)] _
      rw [hsplit, List.mem_append, hhead, ih]
      constructor
      · rintro (⟨hok, hfree⟩ | ⟨before, name, rest, rfl, hfree, hbefore⟩)
        · exact ⟨[], c.1, cs, by rw [← hok]; rfl, hfree, fun _ => List.not_mem_nil⟩
        · rw [List.mem_append, not_or, mem_made] at hfree
          refine ⟨c :: before, name, rest, rfl, hfree.1, fun b hb => ?_⟩
          rcases List.mem_cons.mp hb with rfl | hb
          · exact hfree.2 ⟨b, List.mem_singleton.mpr rfl⟩
          · exact hbefore b hb
      · rintro ⟨before, name, rest, hcs, hfree, hbefore⟩
        cases before with
        | nil =>
            obtain ⟨rfl, rfl⟩ := List.cons.inj hcs
            exact Or.inl ⟨rfl, hfree⟩
        | cons d before =>
            obtain ⟨rfl, rfl⟩ := List.cons.inj hcs
            refine Or.inr ⟨before, name, rest, rfl, ?_, fun b hb => ?_⟩
            · rw [List.mem_append, not_or, mem_made]
              refine ⟨hfree, ?_⟩
              rintro ⟨b, hb⟩
              exact hbefore b (List.mem_singleton.mp hb ▸ List.mem_cons_self)
            · exact hbefore b (List.mem_cons_of_mem _ hb)

theorem map_fst_outcomes (used : List String) (cs : List (String × Except ZoneError α)) :
    (outcomes used cs).map Prod.fst = cs.map Prod.fst := by
  induction cs generalizing used with
  | nil => rfl
  | cons c cs ih => rw [outcomes_cons, List.map_cons, List.map_cons, ih]

/-- Each candidate is either accepted or refused, and only once. -/
theorem perm_names {key : α → String} {cs : List (String × Except ZoneError α)}
    (h : ∀ c ∈ cs, ∀ a, c.2 = .ok a → key a = c.1) :
    ((accepted cs).map key ++ (refused cs).map Prod.fst).Perm (cs.map Prod.fst) := by
  induction cs with
  | nil => exact .refl _
  | cons c cs ih =>
      obtain ⟨hc, hcs⟩ := List.forall_mem_cons.mp h
      obtain ⟨name, x⟩ := c
      cases x with
      | error e => exact List.perm_middle.trans ((ih hcs).cons name)
      | ok a =>
          have hkey : key a = name := hc a rfl
          show (key a :: ((accepted cs).map key ++ (refused cs).map Prod.fst)).Perm
            (name :: cs.map Prod.fst)
          rw [hkey]
          exact (ih hcs).cons name

theorem key_of_mem_outcomes {key : α → String} {cs : List (String × Except ZoneError α)}
    (h : ∀ c ∈ cs, ∀ a, c.2 = .ok a → key a = c.1) (used : List String) :
    ∀ c ∈ outcomes used cs, ∀ a, c.2 = .ok a → key a = c.1 := by
  rintro c hc a ha
  rw [outcomes, List.mem_mapIdx] at hc
  obtain ⟨i, hi, rfl⟩ := hc
  exact h _ (List.getElem_mem hi) a (outcome_eq_ok_iff.mp ha).1

/-! ## Entering candidates -/

variable {op : α → Operation} {l l' l'' : Load}

/-- The second load is the first one with the outcomes added: what they accept to the table, and
what they refuse to the rejections. -/
structure Adds (op : α → Operation) (outs : List (String × Except ZoneError α)) (l l' : Load) :
    Prop where
  zones : l'.table.zones = l.table.zones ++ zonesOf ((accepted outs).map op)
  links : l'.table.links.Perm (l.table.links ++ linksOf ((accepted outs).map op))
  ascending : l.table.links.Ascending → l'.table.links.Ascending
  rejected : l'.rejected = l.rejected ++ refused outs

/-- The names in use are those of the zones and the aliases. -/
def Uses (l : Load) (used : List String) : Prop :=
  ∀ name, l.table.contains name = true ↔ name ∈ used

/-- Enters candidates in order. -/
def enterAll (op : α → Operation) (cs : List (String × Except ZoneError α)) (l : Load) : Load :=
  cs.foldl (fun l c => l.record c.1 (c.2 >>= fun a => l.table.enter (op a))) l

theorem Adds.nil : Adds op [] l l :=
  ⟨(List.append_nil _).symm, by rw [accepted]; simp [linksOf], id, (List.append_nil _).symm⟩

theorem Adds.append {outs outs' : List (String × Except ZoneError α)} (h : Adds op outs l l')
    (h' : Adds op outs' l' l'') : Adds op (outs ++ outs') l l'' := by
  refine ⟨?_, ?_, h'.ascending ∘ h.ascending, ?_⟩
  · rw [h'.zones, h.zones, accepted_append, List.map_append, zonesOf, zonesOf, zonesOf,
      List.filterMap_append, List.append_assoc]
  · rw [accepted_append, List.map_append, linksOf, List.filterMap_append, ← List.append_assoc]
    exact h'.links.trans (h.links.append_right _)
  · rw [h'.rejected, h.rejected, refused_append, List.append_assoc]

theorem perm_links_enter {t t' : Table} {o : Operation} (h : t.enter o = .ok t') :
    t'.links.Perm (t.links ++ linksOf [o]) := by
  cases o with
  | insert z =>
      obtain ⟨-, rfl⟩ := insert_eq_ok_iff.mp h
      exact .of_eq (List.append_nil _).symm
  | link name target =>
      obtain ⟨hfree, rfl⟩ := link_eq_ok_iff.mp h
      exact (Dictionary.perm_insert (contains_eq_false_iff.mp hfree).2).trans
        (List.perm_append_singleton _ _).symm

theorem ascending_links_enter {t t' : Table} {o : Operation} (h : t.enter o = .ok t')
    (hlinks : t.links.Ascending) : t'.links.Ascending := by
  cases o with
  | insert z =>
      obtain ⟨-, rfl⟩ := insert_eq_ok_iff.mp h
      exact hlinks
  | link name target =>
      obtain ⟨-, rfl⟩ := link_eq_ok_iff.mp h
      exact hlinks.insert name target

theorem Adds.refused (name : String) (e : ZoneError) :
    Adds op [(name, .error e)] l (l.record name (.error e)) :=
  ⟨(List.append_nil _).symm, .of_eq (List.append_nil _).symm, id, rfl⟩

theorem Adds.accepted {a : α} {t : Table} (h : l.table.enter (op a) = .ok t) (name : String) :
    Adds op [(name, .ok a)] l (l.record name (.ok t)) :=
  ⟨zones_enter h, perm_links_enter h, ascending_links_enter h, (List.append_nil _).symm⟩

/-- Entering one candidate adds its outcome and uses its name, if it could be made. -/
theorem adds_record {used : List String} {c : String × Except ZoneError α} (hused : l.Uses used)
    (hname : ∀ a, c.2 = .ok a → (op a).name = c.1) :
    Adds op [(c.1, outcome used c)] l (l.record c.1 (c.2 >>= fun a => l.table.enter (op a))) ∧
      (l.record c.1 (c.2 >>= fun a => l.table.enter (op a))).Uses (used ++ made [c]) := by
  obtain ⟨name, x⟩ := c
  cases x with
  | error e =>
      rw [made_error, List.append_nil]
      exact ⟨.refused name e, hused⟩
  | ok a =>
      have hop : (op a).name = name := hname a rfl
      rw [made_ok]
      show Adds op _ l (l.record name (l.table.enter (op a))) ∧
        (l.record name (l.table.enter (op a))).Uses _
      by_cases hmem : name ∈ used
      · have hdup : l.table.contains (op a).name = true := (hused _).mpr (hop ▸ hmem)
        rw [enter_of_contains hdup, hop, outcome_of_mem hmem]
        refine ⟨.refused name _, fun other => ?_⟩
        rw [List.mem_append, List.mem_singleton]
        refine (hused other).trans ⟨Or.inl, ?_⟩
        rintro (h | rfl)
        · exact h
        · exact hmem
      · have hfree : l.table.contains (op a).name = false := by
          rw [hop, ← Bool.not_eq_true, hused]
          exact hmem
        obtain ⟨t, ht⟩ := exists_enter_eq_ok_iff.mpr hfree
        rw [ht, outcome_of_not_mem hmem]
        refine ⟨.accepted ht name, fun other => ?_⟩
        show t.contains other = true ↔ _
        rw [contains_enter ht, hop, Bool.or_eq_true, hused, decide_eq_true_eq, List.mem_append,
          List.mem_singleton, eq_comm]

/-- Entering candidates in order adds the outcomes of all of them. -/
theorem adds_enterAll {used : List String} {cs : List (String × Except ZoneError α)}
    (hused : l.Uses used) (hname : ∀ c ∈ cs, ∀ a, c.2 = .ok a → (op a).name = c.1) :
    Adds op (outcomes used cs) l (enterAll op cs l) := by
  induction cs generalizing l used with
  | nil => exact .nil
  | cons c cs ih =>
      obtain ⟨hc, hcs⟩ := List.forall_mem_cons.mp hname
      obtain ⟨hfirst, hused⟩ := adds_record hused hc
      rw [outcomes_cons]
      exact hfirst.append (ih hused hcs)

end

/-! ## Records and links -/

/-- Links as candidates: each of them can be made. -/
def offered (links : List (String × String)) : List (String × Except ZoneError (String × String)) :=
  links.map fun p => (p.1, .ok p)

theorem build_eq_enterAll (records : List (String × Except ZoneError Zone))
    (links : List (String × String)) :
    build records links =
      enterAll (fun p => .link p.1 p.2) (offered links) (enterAll .insert records empty) := by
  rw [enterAll, offered, List.foldl_map]
  rfl

theorem map_fst_offered (links : List (String × String)) :
    (offered links).map Prod.fst = links.map Prod.fst := by
  rw [offered, List.map_map]
  rfl

theorem perm_append_append (as bs cs ds : List String) :
    (as ++ bs ++ (cs ++ ds)).Perm (as ++ cs ++ (bs ++ ds)) := by
  rw [List.append_assoc, List.append_assoc]
  exact .append_left as (List.perm_append_comm_assoc bs cs ds)

theorem zonesOf_map_insert (zones : List Zone) : zonesOf (zones.map .insert) = zones := by
  simp [zonesOf, List.filterMap_map, Function.comp_def, Operation.zone?]

theorem linksOf_map_insert (zones : List Zone) : linksOf (zones.map .insert) = [] := by
  simp [linksOf, List.filterMap_map, Function.comp_def, Operation.link?]

theorem zonesOf_map_link (links : List (String × String)) :
    zonesOf (links.map fun p => .link p.1 p.2) = [] := by
  simp [zonesOf, List.filterMap_map, Function.comp_def, Operation.zone?]

theorem linksOf_map_link (links : List (String × String)) :
    linksOf (links.map fun p => .link p.1 p.2) = links := by
  simp [linksOf, List.filterMap_map, Function.comp_def, Operation.link?]

/-- The load divides the records and the links. Of the records that could be made, the first of each
name is in the table; of the links, the first of each name that no such zone has. All others are
rejected in order, first the records, each with its error. -/
structure Divides (records : List (String × Except ZoneError Zone)) (links : List (String × String))
    (l : Load) : Prop where
  zones : l.table.zones = accepted (outcomes [] records)
  aliases : l.table.links.Perm
    (accepted (outcomes (l.table.zones.map (·.identifier)) (offered links)))
  rejected : l.rejected = refused (outcomes [] records) ++
    refused (outcomes (l.table.zones.map (·.identifier)) (offered links))
  mem_zones : ∀ z, z ∈ l.table.zones ↔
    ∃ before name rest, records = before ++ (name, .ok z) :: rest ∧ ∀ y, (name, .ok y) ∉ before
  get?_alias : ∀ name target, l.table.links.get? name = some target ↔
    (∀ z ∈ l.table.zones, z.identifier ≠ name) ∧
      links.find? (·.1 = name) = some (name, target)
  names : (l.table.zones.map (·.identifier) ++ l.table.links.map Prod.fst ++
    l.rejected.map Prod.fst).Perm (records.map Prod.fst ++ links.map Prod.fst)
  count : l.table.zones.length + l.table.links.length + l.rejected.length =
    records.length + links.length

/-- A link is accepted exactly if its name is not in use and it is the first of its name. -/
theorem mem_accepted_offered_iff {used : List String} {links : List (String × String)}
    {name target : String} : (name, target) ∈ accepted (outcomes used (offered links)) ↔
      name ∉ used ∧ links.find? (·.1 = name) = some (name, target) := by
  rw [mem_accepted_outcomes_iff, List.find?_eq_some_iff_append]
  constructor
  · rintro ⟨before, other, rest, hlinks, hfree, hbefore⟩
    obtain ⟨front, back, rfl, rfl, hback⟩ := List.map_eq_append_iff.mp hlinks
    obtain ⟨p, back, rfl, hp, rfl⟩ := List.map_eq_cons_iff.mp hback
    obtain ⟨rfl, hpair⟩ := Prod.mk.inj hp
    obtain rfl : p = (name, target) := Except.ok.inj hpair
    refine ⟨hfree, decide_eq_true rfl, front, back, rfl, fun q hq => ?_⟩
    have hne : q.1 ≠ name := fun heq =>
      hbefore q (List.mem_map.mpr ⟨q, hq, by rw [heq]⟩)
    simpa using hne
  · rintro ⟨hfree, -, front, back, rfl, hfront⟩
    refine ⟨offered front, name, offered back, by simp [offered], hfree, fun b hb => ?_⟩
    obtain ⟨q, hq, heq⟩ := List.mem_map.mp hb
    have hne := hfront q hq
    rw [(Prod.mk.inj heq).1] at hne
    simp at hne

theorem enterAll_insert_empty {records : List (String × Except ZoneError Zone)}
    (h : ∀ p ∈ records, ∀ z, p.2 = .ok z → z.identifier = p.1) :
    enterAll .insert records empty =
      ⟨⟨accepted (outcomes [] records), []⟩, refused (outcomes [] records)⟩ := by
  have hnothing : empty.Uses [] := fun name => by
    simp [empty, Table.empty, contains, Table.find?, Dictionary.hasKey]
  have hadds : Adds .insert (outcomes [] records) empty (enterAll .insert records empty) :=
    adds_enterAll hnothing h
  obtain ⟨hzones, hlinks, -, hrejected⟩ := hadds
  rw [zonesOf_map_insert] at hzones
  rw [linksOf_map_insert] at hlinks
  generalize enterAll .insert records empty = l at hzones hlinks hrejected
  obtain ⟨⟨zones, links⟩, rejected⟩ := l
  obtain rfl : zones = accepted (outcomes [] records) := hzones
  obtain rfl : links = [] := hlinks.eq_nil
  obtain rfl : rejected = refused (outcomes [] records) := hrejected
  rfl

theorem uses_identifiers (zones : List Zone) (rejected : List (String × ZoneError)) :
    Uses ⟨⟨zones, []⟩, rejected⟩ (zones.map (·.identifier)) := fun name => by
  rw [contains, Table.find?, show Dictionary.hasKey name [] = false from rfl, Bool.or_false,
    List.find?_isSome]
  simp

theorem name_of_mem_offered (links : List (String × String)) :
    ∀ c ∈ offered links, ∀ p : String × String, c.2 = .ok p → p.1 = c.1 := by
  rintro c hc p hp
  obtain ⟨q, -, rfl⟩ := List.mem_map.mp hc
  cases hp
  rfl

theorem divides_build {records : List (String × Except ZoneError Zone)}
    (hrecords : ∀ p ∈ records, ∀ z, p.2 = .ok z → z.identifier = p.1)
    (links : List (String × String)) : Divides records links (build records links) := by
  have hadds : Adds (fun p : String × String => .link p.1 p.2)
      (outcomes ((accepted (outcomes [] records)).map (·.identifier)) (offered links))
      ⟨⟨accepted (outcomes [] records), []⟩, refused (outcomes [] records)⟩
      (build records links) := by
    rw [build_eq_enterAll, enterAll_insert_empty hrecords]
    exact adds_enterAll (uses_identifiers _ _) (name_of_mem_offered links)
  obtain ⟨hzones, hperm, hkeeps, hrejected⟩ := hadds
  rw [zonesOf_map_link, List.append_nil] at hzones
  dsimp only at hzones hperm hrejected
  rw [linksOf_map_link, List.nil_append, ← hzones] at hperm
  have hascending := hkeeps .nil
  have hnames : ((build records links).table.zones.map (·.identifier) ++
      (build records links).table.links.map Prod.fst ++
        (build records links).rejected.map Prod.fst).Perm
      (records.map Prod.fst ++ links.map Prod.fst) := by
    have hfirst := perm_names (key_of_mem_outcomes hrecords [])
    have hsecond := perm_names (key_of_mem_outcomes (name_of_mem_offered links)
      ((build records links).table.zones.map (·.identifier)))
    rw [map_fst_outcomes, ← hzones] at hfirst
    rw [map_fst_outcomes, map_fst_offered] at hsecond
    rw [hrejected, ← hzones, List.map_append]
    refine .trans (.append_right _ (.append_left _ (hperm.map _))) ?_
    exact (perm_append_append _ _ _ _).trans (hfirst.append hsecond)
  refine ⟨hzones, hperm, ?_, fun z => ?_, fun name target => ?_, hnames, ?_⟩
  · rw [hrejected, hzones]
  · rw [hzones, mem_accepted_outcomes_iff]
    simp
  · rw [hascending.get?_eq_some_iff, hperm.mem_iff, mem_accepted_offered_iff]
    simp
  · have hlength := hnames.length_eq
    simpa [Nat.add_assoc] using hlength

/-! ## Records that cannot be zones -/

/-- The second load is the first one without one of its rejections. -/
structure Forgets (p : String × ZoneError) (l l' : Load) : Prop where
  table : l'.table = l.table
  rejected : ∃ front back, l.rejected = front ++ p :: back ∧ l'.rejected = front ++ back

/-- A record that cannot be a zone leaves its rejection and nothing else. -/
theorem forgets_build {before rest : List (String × Except ZoneError Zone)}
    {links : List (String × String)} {name : String} {e : ZoneError}
    (h : ∀ p ∈ before ++ (name, .error e) :: rest, ∀ z, p.2 = .ok z → z.identifier = p.1) :
    Forgets (name, e) (build (before ++ (name, .error e) :: rest) links)
      (build (before ++ rest) links) := by
  have h' : ∀ p ∈ before ++ rest, ∀ z, p.2 = .ok z → z.identifier = p.1 := fun p hp =>
    h p (((List.sublist_cons_self _ rest).append_left before).subset hp)
  have htable : (build (before ++ rest) links).table =
      (build (before ++ (name, .error e) :: rest) links).table := by
    rw [table_build, table_build, operations, operations, List.filterMap_append,
      List.filterMap_append, List.filterMap_cons_none rfl]
  have hrejected := (divides_build h links).rejected
  have hrejected' := (divides_build h' links).rejected
  rw [htable] at hrejected'
  rw [refused_outcomes_error, List.append_assoc, List.cons_append] at hrejected
  rw [outcomes_append, refused_append, List.append_assoc] at hrejected'
  exact ⟨htable, _, _, hrejected, hrejected'⟩

end Load

theorem HistoryRecord.identifier_of_toZone {e : HistoryRecord} {z : Zone} (h : e.toZone = .ok z) :
    z.identifier = e.identifier := by
  obtain ⟨_, -, hmake⟩ := bind_eq_ok_iff.mp h
  exact (Zone.make_eq_ok_iff.mp hmake).1

theorem Source.ZoneBlock.identifier_of_toZone {b : ZoneBlock} {z : Zone} (h : b.toZone = .ok z) :
    z.identifier = b.identifier := by
  obtain ⟨_, -, hmake⟩ := toZone_eq_ok_iff.mp h
  exact (Zone.make_eq_ok_iff.mp hmake).1

namespace Load

open Source

/-- A record with what was made of it is a candidate that has the name of its zone. -/
theorem identifier_of_mem_map {α : Type} {name : α → String} {zone : α → Except ZoneError Zone}
    (h : ∀ a z, zone a = .ok z → z.identifier = name a) (as : List α) :
    ∀ p ∈ as.map fun a => (name a, zone a), ∀ z, p.2 = .ok z → z.identifier = p.1 := by
  intro p hp z hz
  obtain ⟨a, -, rfl⟩ := List.mem_map.mp hp
  exact h a z hz

theorem forgets_build_map {α : Type} {name : α → String} {zone : α → Except ZoneError Zone}
    (h : ∀ a z, zone a = .ok z → z.identifier = name a) {before rest : List α} {a : α}
    {e : ZoneError} (ha : zone a = .error e) (links : List (String × String)) :
    Forgets (name a, e) (build ((before ++ a :: rest).map fun a => (name a, zone a)) links)
      (build ((before ++ rest).map fun a => (name a, zone a)) links) := by
  have hnames := identifier_of_mem_map h (before ++ a :: rest)
  rw [List.map_append, List.map_cons, ha] at hnames ⊢
  rw [List.map_append]
  exact forgets_build hnames

theorem ofJson_eq_ok_iff {text : String} {l : Load} :
    ofJson text = .ok l ↔ ∃ r, TableRecords.read? text = some r ∧ r.load = l := by
  rw [ofJson]
  cases TableRecords.read? text with
  | none => simp
  | some r => simp

/-- Every load divides the records and links of its source, whether that is source text or JSON, and
to load the source without a record that cannot be a zone gives the same table. -/
theorem loading_divides_the_source :
    (∀ text d, Document.parse text = .ok d → ∃ l, ofSource text = .ok l ∧
      Divides (d.zones.map fun b => (b.identifier, b.toZone)) d.links l ∧
      ∀ before b rest e, d.zones = before ++ b :: rest → b.toZone = .error e →
        ∃ front block back, Text.linesOf text.toList = front ++ block ++ back ∧
          b.IsWrittenIn block ∧
          (∃ text' : String, Text.linesOf text'.toList = front ++ back) ∧
          ∀ text' : String, Text.linesOf text'.toList = front ++ back →
            ∃ l', ofSource text' = .ok l' ∧ Forgets (b.identifier, e) l l') ∧
    (∀ text r, TableRecords.read? text = some r → r.links.Ascending ∧
      ∃ l, ofJson text = .ok l ∧
        Divides (r.zones.map fun h => (h.identifier, h.toZone)) r.links l ∧
        ∀ before h rest e, r.zones = before ++ h :: rest → h.toZone = .error e →
          (∃ text', TableRecords.read? text' = some { r with zones := before ++ rest }) ∧
          ∀ text', TableRecords.read? text' = some { r with zones := before ++ rest } →
            ∃ l', ofJson text' = .ok l' ∧ Forgets (h.identifier, e) l l') := by
  have hblocks : ∀ (b : ZoneBlock) z, b.toZone = .ok z → z.identifier = b.identifier :=
    fun _ _ => ZoneBlock.identifier_of_toZone
  have hhistories : ∀ (h : HistoryRecord) z, h.toZone = .ok z → z.identifier = h.identifier :=
    fun _ _ => HistoryRecord.identifier_of_toZone
  refine ⟨fun text d hd => ?_, fun text r hr => ?_⟩
  · refine ⟨ofDocument d, ofSource_eq_ok_iff.mpr ⟨d, hd, rfl⟩,
      divides_build (identifier_of_mem_map hblocks d.zones) d.links,
      fun before b rest e hzones he => ?_⟩
    obtain ⟨front, block, back, hlines, hblock, hexists, hcut⟩ := Document.parse_cut hd hzones
    refine ⟨front, block, back, hlines, hblock, hexists, fun text' htext' => ?_⟩
    refine ⟨_, ofSource_eq_ok_iff.mpr ⟨_, hcut text' htext', rfl⟩, ?_⟩
    rw [ofDocument, hzones]
    exact forgets_build_map hblocks he d.links
  · have hwritable := TableRecords.writable_of_read? hr
    refine ⟨hwritable.ascending, r.load, ofJson_eq_ok_iff.mpr ⟨r, hr, rfl⟩,
      divides_build (identifier_of_mem_map hhistories r.zones) r.links,
      fun before h rest e hzones he => ?_⟩
    refine ⟨⟨_, TableRecords.read?_toValue_pretty ⟨fun h' hh' => ?_, hwritable.ascending⟩⟩,
      fun text' htext' => ⟨_, ofJson_eq_ok_iff.mpr ⟨_, htext', rfl⟩, ?_⟩⟩
    · refine hwritable.inRange h' (hzones ▸ ?_)
      exact ((List.sublist_cons_self h rest).append_left before).subset hh'
    · rw [TableRecords.load, hzones]
      exact forgets_build_map hhistories he r.links

/-- The first record named `A` has an offset of 30 hours in the source and no regimes in the JSON
text. The next one is the zone, a further one comes too late, and so does the alias. Without the
first record there is one rejection less. -/
theorem refused_record_is_forgotten :
    let source := "Zone A 30:00 - X\nLink A B\nZone A 1:00 - CET\nLink B A\nZone A 2:00 - EET\n"
    let json := "\x7b\"links\": \x7b\"B\": \"A\", \"A\": \"B\"\x7d, " ++
      "\"zones\": [[\"A\", []], [\"A\", [[null, 60, null, \"CET\"]]]]\x7d"
    let table : Table := ⟨[⟨"A", ⟨Instant.beginning, ⟨60⟩, none, "CET"⟩, []⟩], [("B", "A")]⟩
    let twice := ("A", ZoneError.malformed "A" .duplicateName)
    (ofSource source = .ok ⟨table, [("A", .offset 1800), twice, twice]⟩ ∧
      ∃ text l, ofSource text = .ok l ∧
        Forgets ("A", .offset 1800) ⟨table, [("A", .offset 1800), twice, twice]⟩ l) ∧
    ofJson json = .ok ⟨table, [("A", .malformed "A" .noRegimes), twice]⟩ ∧
      ∃ text l, ofJson text = .ok l ∧
        Forgets ("A", .malformed "A" .noRegimes)
          ⟨table, [("A", .malformed "A" .noRegimes), twice]⟩ l := by
  intro source json table twice
  have hsource : ofSource source = .ok ⟨table, [("A", .offset 1800), twice, twice]⟩ := by
    decide +kernel
  have hjson : ofJson json = .ok ⟨table, [("A", .malformed "A" .noRegimes), twice]⟩ := by
    decide +kernel
  obtain ⟨d, hd, hload⟩ := ofSource_eq_ok_iff.mp hsource
  obtain ⟨r, hr, hload'⟩ := ofJson_eq_ok_iff.mp hjson
  have hfirst : (Document.parse source).map (fun d => d.zones.head?.map fun b =>
      (b.identifier, b.toZone)) = .ok (some ("A", .error (.offset 1800))) := by decide +kernel
  have hfirst' : (TableRecords.read? json).map (fun r => r.zones.head?.map fun h =>
      (h.identifier, h.toZone)) = some (some ("A", .error (.malformed "A" .noRegimes))) := by
    decide +kernel
  rw [hd] at hfirst
  rw [hr] at hfirst'
  obtain ⟨b, hb, hpair⟩ := Option.map_eq_some_iff.mp (Except.ok.inj hfirst)
  obtain ⟨h, hh, hpair'⟩ := Option.map_eq_some_iff.mp (Option.some.inj hfirst')
  obtain ⟨hname, he⟩ := Prod.mk.inj hpair
  obtain ⟨hname', he'⟩ := Prod.mk.inj hpair'
  obtain ⟨rest, hzones⟩ := List.head?_eq_some_iff.mp hb
  obtain ⟨rest', hzones'⟩ := List.head?_eq_some_iff.mp hh
  refine ⟨⟨hsource, ?_⟩, hjson, ?_⟩
  · obtain ⟨l, hl, -, hcut⟩ := loading_divides_the_source.1 source d hd
    obtain ⟨_, _, _, -, -, ⟨text, htext⟩, hcut⟩ := hcut [] b rest _ hzones he
    obtain ⟨l', hl', hforgets⟩ := hcut text htext
    rw [hsource] at hl
    cases hl
    exact ⟨text, l', hl', hname ▸ hforgets⟩
  · obtain ⟨-, l, hl, -, hcut⟩ := loading_divides_the_source.2 json r hr
    obtain ⟨⟨text, htext⟩, hcut⟩ := hcut [] h rest' _ hzones' he'
    obtain ⟨l', hl', hforgets⟩ := hcut text htext
    rw [hjson] at hl
    cases hl
    exact ⟨text, l', hl', hname' ▸ hforgets⟩

end Load

end ZoneHistory
