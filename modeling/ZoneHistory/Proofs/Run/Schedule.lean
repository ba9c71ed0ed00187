import Mathlib.Logic.Relation
import ZoneHistory.Proofs.Run.Jobs
import ZoneHistory.Proofs.Zone.History

/-!
# Runs in any schedule

Workers that share the jobs of a run are a `Crew`: what is still to be done of each
job, in order, and what has happened so far. In one `Crew.Step` the next event of
any one job happens, so a failure is recorded in a single step, after the events
that came before. A list of events is `Scheduled` if some sequence of steps from
the start to the end of all jobs produces it.

A step neither loses nor repeats an event (`Step.perm`), hence no run does
(`Steps.perm`), and every schedule is a permutation of the serial one
(`Scheduled.perm`). What a run reports and records is taken from its events one by
one, so it is the same up to order, and all counts are the same.
-/

namespace ZoneHistory

/-! ## Crews -/

/-- A run in progress: what is left of each job, and the events so far. -/
structure Crew where
  pending : List (List Event)
  events : List Event

namespace Crew

/-- Nothing has happened, and every job is to be checked, reported and recorded. -/
def start (batches : List Batch) : Crew :=
  ⟨(jobsOf batches).map Job.events, []⟩

/-- The next event of one of the jobs happens. -/
inductive Step : Crew → Crew → Prop
  | next (before after : List (List Event)) (e : Event) (rest : List Event) (events : List Event) :
      Step ⟨before ++ (e :: rest) :: after, events⟩ ⟨before ++ rest :: after, events ++ [e]⟩

abbrev Steps : Crew → Crew → Prop :=
  Relation.ReflTransGen Step

/-- What has happened and what is left. -/
def all (c : Crew) : List Event :=
  c.events ++ c.pending.flatten

def Finished (c : Crew) : Prop :=
  ∀ left ∈ c.pending, left = []

theorem Step.perm {c c' : Crew} (h : Step c c') : c'.all.Perm c.all := by
  cases h with
  | next before after e rest events =>
      simp only [all, List.flatten_append, List.flatten_cons, List.append_assoc, List.cons_append,
        List.nil_append]
      exact (List.perm_middle.symm).append_left events

theorem Steps.perm {c c' : Crew} (h : Steps c c') : c'.all.Perm c.all := by
  induction h with
  | refl => exact List.Perm.refl _
  | tail _ hstep ih => exact hstep.perm.trans ih

theorem all_start (batches : List Batch) : (start batches).all = serialEvents batches := by
  rw [all, start, List.nil_append, serialEvents, List.flatMap_def]

theorem Finished.all_eq {c : Crew} (h : c.Finished) : c.all = c.events := by
  rw [all, List.flatten_eq_nil_iff.mpr h, List.append_nil]

/-- All that is left of one job can happen at once. -/
theorem steps_one (before after : List (List Event)) : ∀ (left events : List Event),
    Steps ⟨before ++ left :: after, events⟩ ⟨before ++ [] :: after, events ++ left⟩
  | [], events => by rw [List.append_nil]
  | e :: rest, events => by
      have hrest := steps_one before after rest (events ++ [e])
      rw [List.append_assoc] at hrest
      exact .head (.next before after e rest events) hrest

/-- The jobs can be done one after the other. -/
theorem steps_serially : ∀ (before pending : List (List Event)) (events : List Event),
    (∀ left ∈ before, left = []) →
      ∃ c, Steps ⟨before ++ pending, events⟩ c ∧ c.Finished ∧ c.events = events ++ pending.flatten
  | before, [], events, hbefore => by
      refine ⟨_, .refl, ?_, ?_⟩
      · rwa [List.append_nil]
      · exact (List.append_nil events).symm
  | before, left :: after, events, hbefore => by
      have hdone : ∀ l ∈ before ++ [[]], l = [] := by
        intro l hl
        rcases List.mem_append.mp hl with hl | hl
        · exact hbefore l hl
        · exact List.mem_singleton.mp hl
      obtain ⟨c, hsteps, hfinished, hevents⟩ :=
        steps_serially (before ++ [[]]) after (events ++ left) hdone
      rw [List.append_assoc] at hsteps hevents
      exact ⟨c, (steps_one before after left events).trans hsteps, hfinished, hevents⟩

end Crew

/-- The events are those of a run by some crew, from its start until all jobs are done. -/
def Scheduled (batches : List Batch) (events : List Event) : Prop :=
  ∃ c, Crew.Steps (Crew.start batches) c ∧ c.Finished ∧ c.events = events

theorem Scheduled.perm {batches : List Batch} {events : List Event}
    (h : Scheduled batches events) : events.Perm (serialEvents batches) := by
  obtain ⟨c, hsteps, hfinished, rfl⟩ := h
  rw [← hfinished.all_eq, ← Crew.all_start]
  exact hsteps.perm

theorem scheduled_serialEvents (batches : List Batch) :
    Scheduled batches (serialEvents batches) := by
  obtain ⟨c, hsteps, hfinished, hevents⟩ :=
    Crew.steps_serially [] ((jobsOf batches).map Job.events) [] (by simp)
  refine ⟨c, hsteps, hfinished, ?_⟩
  rw [hevents, List.nil_append, serialEvents, List.flatMap_def]

/-! ## What a schedule cannot change -/

section AnyOrder

variable {t : Table} {checkStandard : Bool} {batches : List Batch} {events : List Event}

theorem Scheduled.checkedJobs_perm (h : Scheduled batches events) :
    (checkedJobs events).Perm (jobsOf batches) := by
  rw [← checkedJobs_serialEvents]
  exact h.perm.filterMap _

theorem Scheduled.failures_perm (h : Scheduled batches events) :
    (outcomeOf t checkStandard batches events).failures.Perm
      (runSerially t checkStandard batches).failures :=
  h.perm.filterMap _

theorem Scheduled.reports_perm (h : Scheduled batches events) :
    (reportsOf t checkStandard events).Perm
      (reportsOf t checkStandard (serialEvents batches)) :=
  h.perm.filterMap _

theorem Scheduled.passed_eq (h : Scheduled batches events) :
    (outcomeOf t checkStandard batches events).passed =
      (runSerially t checkStandard batches).passed := by
  rw [Outcome.passed, Outcome.passed, h.failures_perm.length_eq, total_outcomeOf, runSerially,
    total_outcomeOf]

end AnyOrder

/-- A run checks and reports every claim of every batch once and records exactly the failures,
with their places, in the order of the claims; a run in any schedule differs from that in order
alone. -/
theorem run_accounts_for_every_claim (t : Table) (checkStandard : Bool) (batches : List Batch) :
    ((jobsOf batches).Pairwise Job.Before ∧
      ∀ j, j ∈ jobsOf batches ↔ ∃ b, batches[j.batch]? = some b ∧ j.zone = b.zone ∧
        b.claims[j.index]? = some j.claim) ∧
    (checkedJobs (serialEvents batches) = jobsOf batches ∧
      reportsOf t checkStandard (serialEvents batches) =
        (jobsOf batches).map (·.report t checkStandard) ∧
      (runSerially t checkStandard batches).failures =
        (jobsOf batches).filterMap (·.failure? t checkStandard)) ∧
    (∀ j : Job,
      ((j.report t checkStandard).passed = true ↔ j.failure? t checkStandard = none) ∧
      ∀ f, j.failure? t checkStandard = some f ↔
        f.zone = j.zone ∧ f.index = j.index ∧ j.Fails t checkStandard f.reason) ∧
    ((runSerially t checkStandard batches).total = (batches.flatMap (·.claims)).length ∧
      (runSerially t checkStandard batches).passed +
          (runSerially t checkStandard batches).failures.length =
        (runSerially t checkStandard batches).total ∧
      ((runSerially t checkStandard batches).isSuccess = true ↔
        (runSerially t checkStandard batches).failures = [])) ∧
    (∀ others : List Batch,
      (runSerially t checkStandard (batches ++ others)).failures =
          (runSerially t checkStandard batches).failures ++
            (runSerially t checkStandard others).failures ∧
        reportsOf t checkStandard (serialEvents (batches ++ others)) =
          reportsOf t checkStandard (serialEvents batches) ++
            reportsOf t checkStandard (serialEvents others)) ∧
    Scheduled batches (serialEvents batches) ∧
    ∀ events, Scheduled batches events →
      (checkedJobs events).Perm (jobsOf batches) ∧
      (outcomeOf t checkStandard batches events).total =
        (runSerially t checkStandard batches).total ∧
      (outcomeOf t checkStandard batches events).passed =
        (runSerially t checkStandard batches).passed ∧
      (outcomeOf t checkStandard batches events).failures.Perm
        (runSerially t checkStandard batches).failures ∧
      (reportsOf t checkStandard events).Perm
        (reportsOf t checkStandard (serialEvents batches)) := by
  have hcount : (runSerially t checkStandard batches).passed +
      (runSerially t checkStandard batches).failures.length =
        (runSerially t checkStandard batches).total :=
    Nat.sub_add_cancel (length_failures_serially_le t checkStandard batches)
  refine ⟨⟨pairwise_before_jobsOf batches, fun j => mem_jobsOf_iff⟩,
    ⟨checkedJobs_serialEvents batches, reportsOf_serialEvents t checkStandard batches,
      failures_serially t checkStandard batches⟩,
    fun j => ⟨Job.report_passed_iff, fun f => Job.failure?_eq_some_iff⟩,
    ⟨total_outcomeOf t checkStandard batches _, hcount, List.isEmpty_iff⟩,
    fun others => ⟨failures_append t checkStandard batches others,
      reports_append t checkStandard batches others⟩,
    scheduled_serialEvents batches, fun events h => ?_⟩
  exact ⟨h.checkedJobs_perm, rfl, h.passed_eq, h.failures_perm, h.reports_perm⟩

/-- The claim that a clock on UTC shows noon at noon of 1970-01-01, with a standard offset. -/
def noonClaim (standard : Offset) : Claim :=
  ⟨⟨⟨1970, 1, 1⟩, ⟨12, 0, 0, 0⟩⟩, ⟨⟨1970, 1, 1⟩, ⟨12, 0, 0, 0⟩⟩, standard, []⟩

/-- Two workers, one on a batch about an unknown zone: the failure that is last in the order of
the claims is recorded first. -/
theorem run_of_two_workers :
    let t : Table := ⟨[Zone.ofChanges ⟨0⟩ []], []⟩
    let batches : List Batch := [⟨"Nowhere", [noonClaim ⟨0⟩]⟩, ⟨"Changes", [noonClaim ⟨60⟩]⟩]
    let a : Job := ⟨0, "Nowhere", 0, noonClaim ⟨0⟩⟩
    let b : Job := ⟨1, "Changes", 0, noonClaim ⟨60⟩⟩
    let events : List Event :=
      [⟨.check, b⟩, ⟨.check, a⟩, ⟨.report, b⟩, ⟨.record, b⟩, ⟨.report, a⟩, ⟨.record, a⟩]
    Scheduled batches events ∧
      (outcomeOf t true batches events).failures =
        [⟨"Changes", 0, .mismatch (.baseOffset ⟨60⟩ ⟨0⟩)⟩,
          ⟨"Nowhere", 0, .problem (.zone (.unknown "Nowhere"))⟩] ∧
      (outcomeOf t true batches events).failures.Perm (runSerially t true batches).failures ∧
      (outcomeOf t true batches events).passed = (runSerially t true batches).passed := by
  intro t batches a b events
  have hscheduled : Scheduled batches events :=
    ⟨⟨[[], []], events⟩,
      .head (.next [a.events] [] ⟨.check, b⟩ [⟨.report, b⟩, ⟨.record, b⟩] []) <|
      .head (.next [] [[⟨.report, b⟩, ⟨.record, b⟩]] ⟨.check, a⟩ [⟨.report, a⟩, ⟨.record, a⟩] _) <|
      .head (.next [[⟨.report, a⟩, ⟨.record, a⟩]] [] ⟨.report, b⟩ [⟨.record, b⟩] _) <|
      .head (.next [[⟨.report, a⟩, ⟨.record, a⟩]] [] ⟨.record, b⟩ [] _) <|
      .head (.next [] [[]] ⟨.report, a⟩ [⟨.record, a⟩] _) <|
      .head (.next [] [[]] ⟨.record, a⟩ [] _) .refl,
      by simp [Crew.Finished], rfl⟩
  obtain ⟨-, -, -, -, -, -, hany⟩ := run_accounts_for_every_claim t true batches
  obtain ⟨-, -, hpassed, hfailures, -⟩ := hany events hscheduled
  exact ⟨hscheduled, by decide +kernel, hfailures, hpassed⟩

end ZoneHistory
