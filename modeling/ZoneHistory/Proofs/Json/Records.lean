import ZoneHistory.Json.Record
import ZoneHistory.Proofs.Dictionary

/-!
# Reading the fields of a record back

A record whose fields have distinct names gives each of them back, in any order of
the names that it was written in (`fields?_record`). The readers of single values
invert the writers of integers, texts, lists and dictionaries. The other way round, what
a reader gives is in its range, comes from an item, or ascends.
-/

namespace ZoneHistory.Json

/-! ## Lists of readings -/

theorem mapM_eq_some_map {α β : Type} {f : α → Option β} {g : α → β} :
    ∀ {l : List α}, (∀ a ∈ l, f a = some (g a)) → l.mapM f = some (l.map g)
  | [], _ => rfl
  | a :: l, h => by
      rw [List.mapM_cons, h a List.mem_cons_self,
        mapM_eq_some_map fun b hb => h b (List.mem_cons_of_mem _ hb)]
      rfl

theorem exists_of_mem_mapM {α β : Type} {f : α → Option β} : ∀ {l : List α} {bs : List β},
    l.mapM f = some bs → ∀ b ∈ bs, ∃ a ∈ l, f a = some b
  | [], _, h => by
      cases h
      nofun
  | a :: l, _, h => by
      rw [List.mapM_cons] at h
      obtain ⟨b, hb, h⟩ := Option.bind_eq_some_iff.mp h
      obtain ⟨bs, hbs, h⟩ := Option.bind_eq_some_iff.mp h
      cases h
      refine List.forall_mem_cons.mpr ⟨⟨a, List.mem_cons_self, hb⟩, fun b' hb' => ?_⟩
      obtain ⟨a', ha', h⟩ := exists_of_mem_mapM hbs b' hb'
      exact ⟨a', List.mem_cons_of_mem _ ha', h⟩

/-! ## Fields -/

theorem namedMembers?_record (members : List (String × Value)) :
    namedMembers? (members.map fun m => (some m.1, m.2)) = some members := by
  rw [namedMembers?, List.mapM_map]
  have h := mapM_eq_some_map (f := fun m : String × Value =>
    ((some m.1 : Content), m.2).1.map fun key => (key, m.2)) (g := id) (l := members) fun _ _ => rfl
  rw [List.map_id] at h
  exact h

theorem uniqueMember?_eq {members : List (String × Value)} (h : (members.map Prod.fst).Nodup)
    {m : String × Value} (hm : m ∈ members) : uniqueMember? members m.1 = some (some m.2) := by
  have hone : members.filter (·.1 = m.1) = [m] := by
    induction members with
    | nil => cases hm
    | cons p rest ih =>
        obtain ⟨hp, hrest⟩ := List.nodup_cons.mp h
        rcases List.mem_cons.mp hm with rfl | hm
        · rw [List.filter_cons_of_pos (by simp), List.filter_eq_nil_iff.mpr]
          intro q hq heq
          exact hp (of_decide_eq_true heq ▸ List.mem_map_of_mem hq)
        · have hne : p.1 ≠ m.1 := fun heq => hp (heq ▸ List.mem_map_of_mem hm)
          rw [List.filter_cons_of_neg (by simpa using hne), ih hrest hm]
  rw [uniqueMember?, hone]

theorem uniqueMember?_eq_none {members : List (String × Value)} {name : String}
    (h : name ∉ members.map Prod.fst) : uniqueMember? members name = some none := by
  have hnone : members.filter (·.1 = name) = [] := by
    refine List.filter_eq_nil_iff.mpr fun m hm heq => ?_
    exact h (of_decide_eq_true heq ▸ List.mem_map_of_mem hm)
  rw [uniqueMember?, hnone]

/-- The record has its fields, and of the names that follow it has none. -/
theorem fields?_record_append (members : List (String × Value)) (missing : List String)
    (h : (members.map Prod.fst ++ missing).Nodup) :
    (Value.record members).fields? (members.map Prod.fst ++ missing) =
      some ((members.map fun m => some m.2) ++ missing.map fun _ => none) := by
  obtain ⟨hnodup, -, hdisjoint⟩ := List.nodup_append.mp h
  have hthere := mapM_eq_some_map (f := fun m : String × Value => uniqueMember? members m.1)
    (g := fun m => some m.2) fun m hm => uniqueMember?_eq hnodup hm
  have hmissing := mapM_eq_some_map (f := uniqueMember? members) (g := fun _ => none)
    (l := missing) fun name hname =>
      uniqueMember?_eq_none fun hmem => hdisjoint name hmem name hname rfl
  rw [Value.record, Value.fields?, namedMembers?_record]
  show (members.map Prod.fst ++ missing).mapM (uniqueMember? members) = _
  rw [List.mapM_append, List.mapM_map, Function.comp_def, hthere, hmissing]
  rfl

theorem fields?_record (members : List (String × Value)) (h : (members.map Prod.fst).Nodup) :
    (Value.record members).fields? (members.map Prod.fst) =
      some (members.map fun m => some m.2) := by
  have happend := fields?_record_append members [] (by rwa [List.append_nil])
  rwa [List.append_nil, List.map_nil, List.append_nil] at happend

/-! ## Single values -/

namespace Value

theorem int?_int {range : Text.IntegerRange} {n : Int} (h : range.contains n = true) :
    (int n).int? range = some n := by
  have hinteger : (Numeral.whole (decide (n < 0)) n.natAbs).integer? = some n := by
    by_cases hn : n < 0
    · have hne : n.natAbs ≠ 0 := by omega
      have habs : -((n.natAbs : Nat) : Int) = n := by omega
      rw [decide_eq_true hn, Numeral.integer?, if_neg hne, habs]
    · have habs : ((n.natAbs : Nat) : Int) = n := by omega
      rw [decide_eq_false hn, Numeral.integer?, habs]
  rw [int, int?, hinteger]
  exact if_pos h

theorem nat?_int {range : Text.IntegerRange} {n : Nat} (h : range.contains n = true) :
    (int n).nat? range = some n :=
  congrArg (Option.map Int.toNat) (int?_int h)

theorem orNull?_intOrNull {range : Text.IntegerRange} {n : Option Int}
    (h : ∀ i, n = some i → range.contains i = true) :
    (intOrNull n).orNull? (·.int? range) = some n := by
  cases n with
  | none => rfl
  | some i => exact congrArg (Option.map some) (int?_int (h i rfl))

theorem items?_map {α : Type} (read : Value → Option α) (write : α → Value) {l : List α}
    (h : ∀ a ∈ l, read (write a) = some a) : (array (l.map write)).items? read = some l := by
  have hread := mapM_eq_some_map (f := read ∘ write) (g := id) h
  rwa [List.map_id, ← List.mapM_map] at hread

theorem dictionary?_record {α : Type} (read : Value → Option α) (write : α → Value)
    (h : ∀ a, read (write a) = some a) {d : Dictionary α} (hd : d.Ascending) :
    (record (d.map fun p => (p.1, write p.2))).dictionary? read = some d := by
  have hpairs : ((d.map fun p => (p.1, write p.2)).map fun m => ((some m.1 : Content), m.2)).mapM
      (fun m => do
        let key ← m.1
        let value ← read m.2
        return (key, value)) = some d := by
    rw [List.map_map, List.mapM_map]
    have hread := mapM_eq_some_map (f := fun p : String × α => (read (write p.2)).bind fun value =>
      some (p.1, value)) (g := id) (l := d) fun p _ => by rw [h]; rfl
    rw [List.map_id] at hread
    exact hread
  rw [record, dictionary?, hpairs]
  exact congrArg some (Dictionary.ofList_of_ascending hd)

theorem contains_of_int? {range : Text.IntegerRange} {v : Value} {n : Int}
    (h : v.int? range = some n) : range.contains n = true := by
  cases v with
  | number m =>
      rw [int?] at h
      cases hm : m.integer? with
      | none => rw [hm] at h; cases h
      | some i =>
          rw [hm] at h
          by_cases hi : range.contains i = true
          · rw [← Option.some.inj ((if_pos hi).symm.trans h)]
            exact hi
          · cases (if_neg hi).symm.trans h
  | null | bool _ | string _ | array _ | object _ => cases h

theorem orNull?_eq_some_some {α : Type} {read : Value → Option α} {v : Value} {a : α}
    (h : v.orNull? read = some (some a)) : read v = some a := by
  unfold orNull? at h
  split at h
  · cases h
  · obtain ⟨b, hb, heq⟩ := Option.map_eq_some_iff.mp h
    cases heq
    exact hb

theorem contains_of_orNull? {range : Text.IntegerRange} {v : Value} {o : Option Int}
    (h : v.orNull? (·.int? range) = some o) {n : Int} (hn : o = some n) :
    range.contains n = true := by
  rw [hn] at h
  exact contains_of_int? (orNull?_eq_some_some h)

theorem exists_of_mem_items? {α : Type} {read : Value → Option α} {v : Value} {l : List α}
    (h : v.items? read = some l) : ∀ a ∈ l, ∃ w, read w = some a := by
  cases v with
  | array items =>
      intro a ha
      obtain ⟨w, -, hw⟩ := exists_of_mem_mapM h a ha
      exact ⟨w, hw⟩
  | null | bool _ | number _ | string _ | object _ => cases h

/-- The keys of what was read ascend, whatever their order in the text. -/
theorem ascending_of_dictionary? {α : Type} {read : Value → Option α} {v : Value}
    {d : Dictionary α} (h : v.dictionary? read = some d) : d.Ascending := by
  cases v with
  | object members =>
      obtain ⟨pairs, -, hd⟩ := Option.bind_eq_some_iff.mp h
      exact Option.some.inj hd ▸ Dictionary.ascending_ofList pairs
  | null | bool _ | number _ | string _ | array _ => cases h

end Value

end ZoneHistory.Json
