import ZoneHistory.Run

/-!
# The jobs of a run

`jobsOf` lists every claim of every batch once, by batch and then by place in the
batch (`mem_jobsOf_iff`, `pairwise_before_jobsOf`). A job fails for a `Reason` that
`Job.Fails` states through the table alone, and `Job.failure?` finds it
(`failure?_eq_some_iff`).

A run that does one job after the other checks, reports and records each job once
and in that order, so its failures and reports are read off the jobs
(`failures_serially`, `reportsOf_serialEvents`). Neither depends on the numbers of
the batches, which is why runs compose (`failures_append`, `reports_append`).
-/

namespace ZoneHistory

/-! ## Which jobs there are -/

namespace Job

/-- The first job stands in an earlier batch, or earlier in the same batch. -/
def Before (a b : Job) : Prop :=
  a.batch < b.batch ∨ a.batch = b.batch ∧ a.index < b.index

end Job

theorem mem_jobs_iff {b : Batch} {number : Nat} {j : Job} :
    j ∈ b.jobs number ↔
      j.batch = number ∧ j.zone = b.zone ∧ b.claims[j.index]? = some j.claim := by
  rw [Batch.jobs, List.mem_map]
  constructor
  · rintro ⟨⟨c, i⟩, h, rfl⟩
    exact ⟨rfl, rfl, List.mem_zipIdx_iff_getElem?.mp h⟩
  · obtain ⟨batch, zone, index, claim⟩ := j
    rintro ⟨rfl, rfl, h⟩
    exact ⟨(claim, index), List.mem_zipIdx_iff_getElem?.mpr h, rfl⟩

theorem mem_jobsOf_iff {batches : List Batch} {j : Job} :
    j ∈ jobsOf batches ↔ ∃ b, batches[j.batch]? = some b ∧ j.zone = b.zone ∧
      b.claims[j.index]? = some j.claim := by
  rw [jobsOf, List.mem_flatMap]
  constructor
  · rintro ⟨⟨b, number⟩, hb, hj⟩
    obtain ⟨rfl, hzone, hclaim⟩ := mem_jobs_iff.mp hj
    exact ⟨b, List.mem_zipIdx_iff_getElem?.mp hb, hzone, hclaim⟩
  · rintro ⟨b, hb, hzone, hclaim⟩
    exact ⟨(b, j.batch), List.mem_zipIdx_iff_getElem?.mpr hb, mem_jobs_iff.mpr ⟨rfl, hzone, hclaim⟩⟩

theorem pairwise_zipIdx {α : Type} (l : List α) (start : Nat) :
    (l.zipIdx start).Pairwise fun a b => a.2 < b.2 := by
  rw [← List.pairwise_map (f := Prod.snd) (R := (· < ·)), List.zipIdx_map_snd]
  exact List.pairwise_lt_range'

/-- The jobs come in the order of their batches and, within a batch, of their places. -/
theorem pairwise_before_jobsOf (batches : List Batch) : (jobsOf batches).Pairwise Job.Before := by
  refine List.pairwise_flatMap.mpr ⟨?_, ?_⟩
  · rintro ⟨b, number⟩ -
    exact List.pairwise_map.mpr ((pairwise_zipIdx b.claims 0).imp fun h => Or.inr ⟨rfl, h⟩)
  · refine (pairwise_zipIdx batches 0).imp ?_
    rintro ⟨b, m⟩ ⟨b', n⟩ hlt j hj j' hj'
    obtain ⟨rfl, -⟩ := mem_jobs_iff.mp hj
    obtain ⟨rfl, -⟩ := mem_jobs_iff.mp hj'
    exact Or.inl hlt

theorem length_jobsOf (batches : List Batch) :
    (jobsOf batches).length = (batches.flatMap (·.claims)).length := by
  have hnumbered : ∀ start, ((batches.zipIdx start).flatMap fun b => b.1.jobs b.2).length =
      (batches.flatMap (·.claims)).length := by
    induction batches with
    | nil => intro start; rfl
    | cons b rest ih =>
        intro start
        rw [List.zipIdx_cons, List.flatMap_cons, List.flatMap_cons, List.length_append,
          List.length_append, ih, Batch.jobs, List.length_map, List.length_zipIdx]
  exact hnumbered 0

/-! ## When a job fails -/

namespace Job

variable {t : Table} {checkStandard : Bool}

/-- Why a job fails: its zone is unknown, or its claim does not hold, or the check of its claim
has a problem. -/
inductive Fails (t : Table) (checkStandard : Bool) (j : Job) : Reason → Prop
  | unknownZone : t.zone j.zone = .error (.unknown j.zone) →
      Fails t checkStandard j (.problem (.zone (.unknown j.zone)))
  | mismatch {z : Zone} {m : Mismatch} : t.zone j.zone = .ok z →
      z.verifyClaim checkStandard j.claim = .ok (.mismatch m) →
      Fails t checkStandard j (.mismatch m)
  | problem {z : Zone} {p : Problem} : t.zone j.zone = .ok z →
      z.verifyClaim checkStandard j.claim = .error p → Fails t checkStandard j (.problem p)

/-- A zone that a table does not have is unknown by the name that was asked for. -/
theorem zone_eq_error {name : String} {e : ZoneError} (h : t.zone name = .error e) :
    e = .unknown name := by
  rw [Table.zone] at h
  split at h
  · cases h
  · exact (Except.error.inj h).symm

theorem verdict_of_unknown {j : Job} (h : t.zone j.zone = .error (.unknown j.zone)) :
    j.verdict t checkStandard = .error (.zone (.unknown j.zone)) := by
  rw [verdict, Table.zoneNamed, h]
  rfl

theorem verdict_of_zone {j : Job} {z : Zone} (h : t.zone j.zone = .ok z) :
    j.verdict t checkStandard = z.verifyClaim checkStandard j.claim := by
  rw [verdict, Table.zoneNamed, h]
  rfl

theorem failure?_eq_some_iff {j : Job} {f : Failure} :
    j.failure? t checkStandard = some f ↔
      f.zone = j.zone ∧ f.index = j.index ∧ j.Fails t checkStandard f.reason := by
  obtain ⟨zone, index, reason⟩ := f
  rw [failure?]
  cases hzone : t.zone j.zone with
  | error e =>
      obtain rfl := zone_eq_error hzone
      rw [verdict_of_unknown hzone]
      simp only [Option.some.injEq, Failure.mk.injEq]
      constructor
      · rintro ⟨rfl, rfl, rfl⟩
        exact ⟨rfl, rfl, .unknownZone hzone⟩
      · rintro ⟨rfl, rfl, hfails⟩
        cases hfails with
        | unknownZone => exact ⟨rfl, rfl, rfl⟩
        | mismatch hok | problem hok => rw [hzone] at hok; cases hok
  | ok z =>
      rw [verdict_of_zone hzone]
      constructor
      · intro h
        split at h
        · cases h
        next m hm => cases h; exact ⟨rfl, rfl, .mismatch hzone hm⟩
        next p hp => cases h; exact ⟨rfl, rfl, .problem hzone hp⟩
      · rintro ⟨rfl, rfl, hfails⟩
        cases hfails with
        | unknownZone herror => rw [hzone] at herror; cases herror
        | mismatch hok hm =>
            cases hzone.symm.trans hok
            rw [hm]
        | problem hok hp =>
            cases hzone.symm.trans hok
            rw [hp]

theorem report_passed_iff {j : Job} :
    (j.report t checkStandard).passed = true ↔ j.failure? t checkStandard = none := by
  rw [report]
  cases j.failure? t checkStandard <;> simp

end Job

/-! ## One job after the other -/

/-- The jobs that are checked, in the order of the events. -/
def checkedJobs (events : List Event) : List Job :=
  events.filterMap fun e => if e.stage = .check then some e.job else none

section Serial

variable (t : Table) (checkStandard : Bool) (batches : List Batch)

/-- What is taken from events that come job by job, each job at one of its stages. -/
theorem filterMap_serialEvents {α : Type} (ofEvent : Event → Option α) (ofJob : Job → Option α)
    (h : ∀ j : Job, j.events.filterMap ofEvent = (ofJob j).toList) :
    (serialEvents batches).filterMap ofEvent = (jobsOf batches).filterMap ofJob := by
  rw [serialEvents, List.filterMap_flatMap]
  induction jobsOf batches with
  | nil => rfl
  | cons j rest ih =>
      rw [List.flatMap_cons, ih, h j, List.filterMap_cons]
      cases ofJob j <;> rfl

theorem checkedJobs_serialEvents : checkedJobs (serialEvents batches) = jobsOf batches :=
  (filterMap_serialEvents batches _ some fun _ => rfl).trans List.filterMap_some

theorem reportsOf_serialEvents :
    reportsOf t checkStandard (serialEvents batches) =
      (jobsOf batches).map (·.report t checkStandard) :=
  (filterMap_serialEvents batches _ (fun j => some (j.report t checkStandard)) fun _ => rfl).trans
    (congrFun List.filterMap_eq_map' _)

theorem failures_serially :
    (runSerially t checkStandard batches).failures =
      (jobsOf batches).filterMap (·.failure? t checkStandard) := by
  refine filterMap_serialEvents batches _ _ fun j => ?_
  have hcheck : Event.failure? t checkStandard ⟨.check, j⟩ = none := rfl
  have hreport : Event.failure? t checkStandard ⟨.report, j⟩ = none := rfl
  have hrecord : Event.failure? t checkStandard ⟨.record, j⟩ = j.failure? t checkStandard := rfl
  rw [Job.events, List.filterMap_cons_none hcheck, List.filterMap_cons_none hreport,
    List.filterMap_cons, hrecord]
  cases j.failure? t checkStandard <;> rfl

end Serial

/-! ## Counting -/

theorem total_outcomeOf (t : Table) (checkStandard : Bool) (batches : List Batch)
    (events : List Event) :
    (outcomeOf t checkStandard batches events).total = (batches.flatMap (·.claims)).length := by
  have hfrom : ∀ n, batches.foldl (fun n b => n + b.claims.length) n =
      n + (batches.flatMap (·.claims)).length := by
    induction batches with
    | nil => intro n; rfl
    | cons b rest ih =>
        intro n
        rw [List.foldl_cons, ih, List.flatMap_cons, List.length_append, Nat.add_assoc]
  exact (hfrom 0).trans (Nat.zero_add _)

/-- No more jobs fail than there are claims. -/
theorem length_failures_serially_le (t : Table) (checkStandard : Bool) (batches : List Batch) :
    (runSerially t checkStandard batches).failures.length ≤
      (runSerially t checkStandard batches).total := by
  rw [failures_serially, runSerially, total_outcomeOf, ← length_jobsOf]
  exact List.length_filterMap_le _ _

/-! ## Runs of some batches and then others -/

section Composition

variable (t : Table) (checkStandard : Bool)

/-- The jobs of batches that are numbered from `start` on. -/
def jobsFrom (start : Nat) (batches : List Batch) : List Job :=
  (batches.zipIdx start).flatMap fun b => b.1.jobs b.2

theorem jobsOf_append (first second : List Batch) :
    jobsOf (first ++ second) = jobsOf first ++ jobsFrom first.length second := by
  rw [jobsOf, List.zipIdx_append, List.flatMap_append, Nat.zero_add]
  rfl

/-- What does not look at the number of the batch is the same from any number on. -/
theorem map_jobsFrom {α : Type} (f : Job → α)
    (h : ∀ j number, f { j with batch := number } = f j) (batches : List Batch) (start : Nat) :
    (jobsFrom start batches).map f = (jobsOf batches).map f := by
  have hbatch (b : Batch) (m n : Nat) : (b.jobs m).map f = (b.jobs n).map f := by
    rw [Batch.jobs, Batch.jobs, List.map_map, List.map_map]
    exact List.map_congr_left fun c _ => (h ⟨n, b.zone, c.2, c.1⟩ m)
  have hnumbered : ∀ m n, (jobsFrom m batches).map f = (jobsFrom n batches).map f := by
    induction batches with
    | nil => intro m n; rfl
    | cons b rest ih =>
        intro m n
        have hrest := ih (m + 1) (n + 1)
        rw [jobsFrom, jobsFrom] at hrest ⊢
        rw [List.zipIdx_cons, List.zipIdx_cons, List.flatMap_cons, List.flatMap_cons,
          List.map_append, List.map_append, hrest, hbatch b m n]
  exact hnumbered start 0

theorem failures_append (first second : List Batch) :
    (runSerially t checkStandard (first ++ second)).failures =
      (runSerially t checkStandard first).failures ++
        (runSerially t checkStandard second).failures := by
  have hsame : (jobsFrom first.length second).filterMap (·.failure? t checkStandard) =
      (jobsOf second).filterMap (·.failure? t checkStandard) := by
    have h := map_jobsFrom (·.failure? t checkStandard) (fun _ _ => rfl) second first.length
    simpa only [List.filterMap_map, Function.id_comp] using congrArg (List.filterMap id) h
  rw [failures_serially, failures_serially, failures_serially, jobsOf_append,
    List.filterMap_append, hsame]

theorem reports_append (first second : List Batch) :
    reportsOf t checkStandard (serialEvents (first ++ second)) =
      reportsOf t checkStandard (serialEvents first) ++
        reportsOf t checkStandard (serialEvents second) := by
  rw [reportsOf_serialEvents, reportsOf_serialEvents, reportsOf_serialEvents, jobsOf_append,
    List.map_append, map_jobsFrom _ (fun _ _ => rfl)]

end Composition

end ZoneHistory
