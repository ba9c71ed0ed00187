import Mathlib.Data.List.Sort
import ZoneHistory.Command
import ZoneHistory.Proofs.Checks
import ZoneHistory.Proofs.Dictionary
import ZoneHistory.Proofs.Run.Schedule
import ZoneHistory.Proofs.Text.Bytes

/-!
# What the command prints about a run

Main statement: the command prints the account of its run, and in a run that is not serial only
the lines of the failures may come in another order (`Command.run_prints_account`).

An `Account` has the failures in the order of the claims, the number of failures of each zone in
the order of the bytes of the names, and the totals, which agree with both. Failures are counted
zone by zone as they come, but a tally depends on nothing but how often each zone occurs
(`Dictionary.tally_eq_of_perm`), so every schedule leads to the same numbers.
-/

namespace ZoneHistory

/-! ## Jobs that fail -/

/-- The failure is that of the job. -/
structure Job.FailsWith (t : Table) (checkStandard : Bool) (j : Job) (f : Failure) : Prop where
  zone : f.zone = j.zone
  index : f.index = j.index
  reason : j.Fails t checkStandard f.reason

/-- A job fails with one failure only. -/
theorem Job.rightUnique_failsWith (t : Table) (checkStandard : Bool) :
    Relator.RightUnique (Job.FailsWith t checkStandard) := by
  intro j f g hf hg
  have hf := Job.failure?_eq_some_iff.mpr ⟨hf.zone, hf.index, hf.reason⟩
  have hg := Job.failure?_eq_some_iff.mpr ⟨hg.zone, hg.index, hg.reason⟩
  exact Option.some.inj (hf.symm.trans hg)

instance : Std.Irrefl Job.Before where
  irrefl j h := by
    unfold Job.Before at h
    omega

instance : Std.Antisymm Job.Before where
  antisymm j k h h' := by
    unfold Job.Before at h h'
    omega

section Failing

variable (t : Table) (checkStandard : Bool) (batches : List Batch)

/-- The jobs that fail, in order. -/
def failingJobs : List Job :=
  (jobsOf batches).filter fun j => (j.failure? t checkStandard).isSome

theorem pairwise_before_failingJobs :
    (failingJobs t checkStandard batches).Pairwise Job.Before :=
  (pairwise_before_jobsOf batches).sublist List.filter_sublist

theorem mem_failingJobs_iff {j : Job} : j ∈ failingJobs t checkStandard batches ↔
    (∃ b, batches[j.batch]? = some b ∧ j.zone = b.zone ∧ b.claims[j.index]? = some j.claim) ∧
      ∃ reason, j.Fails t checkStandard reason := by
  rw [failingJobs, List.mem_filter, mem_jobsOf_iff, Option.isSome_iff_exists]
  refine and_congr_right fun _ => ?_
  simp only [Job.failure?_eq_some_iff]
  constructor
  · rintro ⟨f, -, -, h⟩
    exact ⟨f.reason, h⟩
  · rintro ⟨reason, h⟩
    exact ⟨⟨j.zone, j.index, reason⟩, rfl, rfl, h⟩

theorem forall₂_failsWith (jobs : List Job) :
    List.Forall₂ (Job.FailsWith t checkStandard)
      (jobs.filter fun j => (j.failure? t checkStandard).isSome)
      (jobs.filterMap (·.failure? t checkStandard)) := by
  induction jobs with
  | nil => exact .nil
  | cons j jobs ih =>
      cases h : j.failure? t checkStandard with
      | none => simpa [h] using ih
      | some f =>
          obtain ⟨hzone, hindex, hfails⟩ := Job.failure?_eq_some_iff.mp h
          simpa [h] using List.Forall₂.cons ⟨hzone, hindex, hfails⟩ ih

end Failing

/-! ## Accounts -/

/-- What there is to say about the claims of some batches. -/
structure Account (t : Table) (batches : List Batch) where
  /-- The jobs that fail, by batch and then by place in the batch. -/
  failing : List Job
  /-- Their failures. -/
  failures : List Failure
  /-- The number of failures for each zone that has some. -/
  tally : Dictionary Nat
  passed : Nat
  ordered : failing.Pairwise Job.Before
  mem_failing : ∀ j, j ∈ failing ↔
    (∃ b, batches[j.batch]? = some b ∧ j.zone = b.zone ∧ b.claims[j.index]? = some j.claim) ∧
      ∃ reason, j.Fails t true reason
  each : List.Forall₂ (Job.FailsWith t true) failing failures
  ascending : tally.Pairwise fun p q => Text.bytes p.1 < Text.bytes q.1
  mem_tally : ∀ zone n, (zone, n) ∈ tally ↔ 0 < n ∧ n = failures.countP (·.zone = zone)
  sum_tally : (tally.map Prod.snd).sum = failures.length
  total : passed + failures.length = (batches.map (·.claims.length)).sum

namespace Account

variable {t : Table} {batches : List Batch}

/-- The table and the batches leave no choice in what there is to say. -/
theorem eq (a b : Account t batches) : a = b := by
  have hfailing : a.failing = b.failing :=
    a.ordered.eq_of_mem_iff b.ordered fun j => (a.mem_failing j).trans (b.mem_failing j).symm
  have hfailures : a.failures = b.failures :=
    List.right_unique_forall₂' (Job.rightUnique_failsWith t true) a.each (hfailing ▸ b.each)
  have htally : a.tally = b.tally := by
    have : Std.Irrefl fun p q : String × Nat => Text.bytes p.1 < Text.bytes q.1 :=
      ⟨fun p => List.lt_irrefl _⟩
    have : Std.Antisymm fun p q : String × Nat => Text.bytes p.1 < Text.bytes q.1 :=
      ⟨fun p q h h' => absurd h' (List.lt_asymm h)⟩
    refine a.ascending.eq_of_mem_iff b.ascending fun p => ?_
    rw [a.mem_tally, b.mem_tally, hfailures]
  have hpassed : a.passed = b.passed := by
    have ha := a.total
    have hb := b.total
    rw [hfailures] at ha
    omega
  cases a
  cases b
  rw [mk.injEq]
  exact ⟨hfailing, hfailures, htally, hpassed⟩

/-- The lines after those of the failures: one for each zone in the tally, and the totals. -/
def closing (a : Account t batches) : List String :=
  a.tally.map (fun p => "  " ++ p.1 ++ ": " ++ Text.natural p.2 ++ " failed") ++
    [Text.natural (batches.map (·.claims.length)).sum ++ " vectors, " ++
      Text.natural a.passed ++ " passed, " ++ Text.natural a.failures.length ++ " failed"]

/-- The line of a failure: the zone, the place in its batch, and what is wrong. -/
def entry (f : Failure) : String :=
  f.zone ++ "[" ++ Text.natural f.index ++ "]: " ++ f.reason.text

/-- The printed text, if the failures come in the given order. Every line is ended by a line
feed. -/
def printed (a : Account t batches) (failures : List Failure) : String :=
  String.join ((failures.map entry ++ a.closing).map fun line => line ++ "\n")

/-- The exit status is zero if nothing fails. -/
def status (a : Account t batches) : Nat :=
  if a.failures.length = 0 then 0 else 1

end Account

theorem countP_zone (failures : List Failure) (zone : String) :
    (failures.map (·.zone)).count zone = failures.countP (·.zone = zone) := by
  rw [List.count, List.countP_map]
  rfl

theorem total_eq_sum (t : Table) (checkStandard : Bool) (batches : List Batch)
    (events : List Event) :
    (outcomeOf t checkStandard batches events).total = (batches.map (·.claims.length)).sum := by
  rw [total_outcomeOf, List.length_flatMap]

/-- The account of a run that does one job after the other. -/
def accountOf (t : Table) (batches : List Batch) : Account t batches where
  failing := failingJobs t true batches
  failures := (runSerially t true batches).failures
  tally := (runSerially t true batches).tally
  passed := (runSerially t true batches).passed
  ordered := pairwise_before_failingJobs t true batches
  mem_failing j := mem_failingJobs_iff t true batches
  each := by
    rw [failures_serially]
    exact forall₂_failsWith t true (jobsOf batches)
  ascending := (Dictionary.ascending_tally _).imp Text.bytes_lt_bytes_iff.mpr
  mem_tally zone n := by
    rw [Outcome.tally, Dictionary.mem_tally_iff, countP_zone]
  sum_tally := by
    rw [Outcome.tally, Dictionary.sum_tally, List.length_map]
  total := by
    rw [← total_eq_sum t true batches (serialEvents batches)]
    exact Nat.sub_add_cancel (length_failures_serially_le t true batches)

/-! ## Output -/

namespace Command

/-- The orders in which the events of a run may happen. Only a run that is not serial leaves a
choice. -/
def Allowed (serial : Bool) (batches : List Batch) (events : List Event) : Prop :=
  if serial then events = serialEvents batches else Scheduled batches events

theorem allowed_serialEvents (serial : Bool) (batches : List Batch) :
    Allowed serial batches (serialEvents batches) := by
  cases serial with
  | true => exact rfl
  | false => exact scheduled_serialEvents batches

theorem Allowed.scheduled {serial : Bool} {batches : List Batch} {events : List Event}
    (h : Allowed serial batches events) : Scheduled batches events := by
  cases serial with
  | true =>
      obtain rfl : events = serialEvents batches := h
      exact scheduled_serialEvents batches
  | false => exact h

variable {t : Table} {batches : List Batch} {events : List Event}

/-- What comes after the lines of the failures does not depend on the schedule. -/
theorem ofOutcome_of_scheduled (h : Scheduled batches events) :
    ofOutcome (outcomeOf t true batches events) =
      ⟨(accountOf t batches).status,
        (accountOf t batches).printed (outcomeOf t true batches events).failures⟩ := by
  have hperm : (outcomeOf t true batches events).failures.Perm (accountOf t batches).failures :=
    h.failures_perm
  have htally : (outcomeOf t true batches events).tally = (accountOf t batches).tally :=
    Dictionary.tally_eq_of_perm (hperm.map _)
  have hpassed : (outcomeOf t true batches events).passed = (accountOf t batches).passed :=
    h.passed_eq
  have hsuccess : (outcomeOf t true batches events).isSuccess = true ↔
      (accountOf t batches).failures.length = 0 := by
    rw [Outcome.isSuccess, List.isEmpty_iff, ← List.length_eq_zero_iff, hperm.length_eq]
  rw [ofOutcome, summary, Outcome.text, htally, hpassed, total_eq_sum, hperm.length_eq,
    List.append_assoc]
  exact congrArg (Result.mk · _) (if_congr hsuccess rfl rfl)

theorem load?_eq_some {read : String → Option String} {regimes : String} {claims : List String}
    {l : Load} (hregimes : Load.ofFile regimes (read regimes) = .ok l)
    (hclaims : List.Forall₂ (fun path b => Batch.ofFile (read path) = .ok b) claims batches) :
    load? read regimes claims = some (l.table, batches) := by
  rw [load?, hregimes]
  dsimp only
  rw [mapM_eq_ok_iff.mpr hclaims]

theorem run_eq {read : String → Option String} {args : List String} {serial : Bool}
    {regimes : String} {claims : List String}
    (hargs : Request.parse args = some (.check serial regimes claims))
    (hload : load? read regimes claims = some (t, batches)) :
    run read args = ofOutcome (runSerially t true batches) := by
  rw [run, hargs]
  dsimp only
  rw [perform, hload]

/-- If all files can be loaded, the command prints the one account that there is of their claims: a
line for each failure, in the order of the files and of the claims in them, a line for each zone
with failures, in the order of the bytes of their names, and the totals. The exit status is zero if
there are no failures. If the run is not serial, the lines of the failures may come in another
order, and all else is the same. -/
theorem run_prints_account {read : String → Option String} {args : List String} {serial : Bool}
    {regimes : String} {claims : List String} {l : Load} {batches : List Batch}
    (hargs : Request.parse args = some (.check serial regimes claims))
    (hregimes : Load.ofFile regimes (read regimes) = .ok l)
    (hclaims : List.Forall₂ (fun path b => Batch.ofFile (read path) = .ok b) claims batches) :
    ∃ a : Account l.table batches, (∀ b, b = a) ∧
      run read args = ⟨a.status, a.printed a.failures⟩ ∧
      run read args = ofOutcome (outcomeOf l.table true batches (serialEvents batches)) ∧
      Allowed serial batches (serialEvents batches) ∧
      ∀ events, Allowed serial batches events → ∃ failures : List Failure,
        failures.Perm a.failures ∧ (serial = true → failures = a.failures) ∧
        ofOutcome (outcomeOf l.table true batches events) =
          ⟨a.status, a.printed failures⟩ := by
  have hrun := run_eq hargs (load?_eq_some hregimes hclaims)
  refine ⟨accountOf l.table batches, fun b => b.eq _, ?_, hrun, allowed_serialEvents serial batches,
    ?_⟩
  · rw [hrun]
    exact ofOutcome_of_scheduled (scheduled_serialEvents batches)
  · intro events h
    refine ⟨(outcomeOf l.table true batches events).failures, h.scheduled.failures_perm, ?_,
      ofOutcome_of_scheduled h.scheduled⟩
    rintro rfl
    obtain rfl : events = serialEvents batches := h
    rfl

/-- Two files with a claim each, which both fail. If the second is checked first, its line comes
first, but the zones keep their order. -/
theorem output_of_two_files :
    let noon := "[1970, 1, 1, null, 12], [1970, 1, 1, null, 12]"
    let read (path : String) := [("zones.zi", "Zone Changes 0 - X\n"),
      ("first.json", "[\"Nowhere\", [[" ++ noon ++ ", [0]]]]"),
      ("second.json", "[\"Changes\", [[" ++ noon ++ ", [1]]]]")].lookup path
    let args := ["zones.zi", "first.json", "second.json"]
    let t : Table := ⟨[⟨"Changes", ⟨Instant.beginning, ⟨0⟩, none, "X"⟩, []⟩], []⟩
    let batches : List Batch := [⟨"Nowhere", [noonClaim ⟨0⟩]⟩, ⟨"Changes", [noonClaim ⟨60⟩]⟩]
    let first : Job := ⟨0, "Nowhere", 0, noonClaim ⟨0⟩⟩
    let second : Job := ⟨1, "Changes", 0, noonClaim ⟨60⟩⟩
    run read args = ⟨1, "Nowhere[0]: UnknownZone: unknown time zone `Nowhere`\n" ++
      "Changes[0]: base-offset: expected +01:00, found +00:00\n" ++
      "  Changes: 1 failed\n  Nowhere: 1 failed\n2 vectors, 0 passed, 2 failed\n"⟩ ∧
    ofOutcome (outcomeOf t true batches (second.events ++ first.events)) =
      ⟨1, "Changes[0]: base-offset: expected +01:00, found +00:00\n" ++
        "Nowhere[0]: UnknownZone: unknown time zone `Nowhere`\n" ++
        "  Changes: 1 failed\n  Nowhere: 1 failed\n2 vectors, 0 passed, 2 failed\n"⟩ ∧
    ∃ a : Account t batches, run read args = ⟨a.status, a.printed a.failures⟩ ∧
      ∃ failures : List Failure, failures.Perm a.failures ∧
        ofOutcome (outcomeOf t true batches (second.events ++ first.events)) =
          ⟨a.status, a.printed failures⟩ := by
  intro noon read args t batches first second
  have hargs : Request.parse args =
      some (.check false "zones.zi" ["first.json", "second.json"]) := by decide +kernel
  have hregimes : Load.ofFile "zones.zi" (read "zones.zi") = .ok ⟨t, []⟩ := by decide +kernel
  have hfirst : Batch.ofFile (read "first.json") = .ok ⟨"Nowhere", [noonClaim ⟨0⟩]⟩ := by
    decide +kernel
  have hsecond : Batch.ofFile (read "second.json") = .ok ⟨"Changes", [noonClaim ⟨60⟩]⟩ := by
    decide +kernel
  have hscheduled : Scheduled batches (second.events ++ first.events) :=
    ⟨⟨[[], []], _⟩, (Crew.steps_one [first.events] [] second.events []).trans
      (Crew.steps_one [] [[]] first.events second.events), by simp [Crew.Finished], rfl⟩
  obtain ⟨a, -, hrun, -, -, hany⟩ :=
    run_prints_account hargs hregimes (.cons hfirst (.cons hsecond .nil))
  obtain ⟨failures, hperm, -, houtcome⟩ := hany _ hscheduled
  exact ⟨by decide +kernel, by decide +kernel, a, hrun, failures, hperm, houtcome⟩

end Command

end ZoneHistory
