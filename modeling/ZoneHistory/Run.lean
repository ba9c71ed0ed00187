import ZoneHistory.Batch

/-!
# Runs

A run checks every claim of some batches. A claim that fails never stops the run,
and an unknown zone fails every claim about it.

Each claim is a `Job` of three stages: it is checked, the verdict is reported, and
a failure is recorded. A run is the list of these events in the order in which
they happen. `serialEvents` has them job by job; workers that share the jobs may
mix the events of different jobs in any way, but keep the stages of each job in
order.
-/

namespace ZoneHistory

/-! ## Failures -/

/-- Why a claim failed. -/
inductive Reason where
  | mismatch (m : Mismatch)
  | problem (p : Problem)
  deriving DecidableEq, Repr

namespace Reason

def text : Reason → String
  | mismatch m => m.text
  | problem p => p.diagnosis.text

/-- The direction that failed, if the claim was compared at all. -/
def direction? : Reason → Option Direction
  | mismatch m => some m.direction
  | problem _ => none

end Reason

/-- The failure of the claim at `index` of a batch about `zone`. -/
structure Failure where
  zone : String
  index : Nat
  reason : Reason
  deriving DecidableEq, Repr

/-- The place of a claim in its batch. -/
def placeText (zone : String) (index : Nat) : String :=
  zone ++ "[" ++ Text.natural index ++ "]: "

def Failure.text (f : Failure) : String :=
  placeText f.zone f.index ++ f.reason.text

/-! ## Jobs -/

/-- A claim, its place in its batch, and the place of the batch in the run. -/
structure Job where
  batch : Nat
  zone : String
  index : Nat
  claim : Claim
  deriving DecidableEq, Repr

def Batch.jobs (b : Batch) (number : Nat) : List Job :=
  b.claims.zipIdx.map fun c => ⟨number, b.zone, c.2, c.1⟩

def jobsOf (batches : List Batch) : List Job :=
  batches.zipIdx.flatMap fun b => b.1.jobs b.2

/-- What is reported of a claim. -/
structure Report where
  passed : Bool
  description : String
  deriving DecidableEq, Repr

namespace Job

variable (t : Table) (checkStandard : Bool)

def verdict (j : Job) : Except Problem Verdict := do
  (← t.zoneNamed j.zone).verifyClaim checkStandard j.claim

/-- The failure of a claim that is not consistent. -/
def failure? (j : Job) : Option Failure :=
  match j.verdict t checkStandard with
  | .ok .consistent => none
  | .ok (.mismatch m) => some ⟨j.zone, j.index, .mismatch m⟩
  | .error p => some ⟨j.zone, j.index, .problem p⟩

/-- The report on a claim: its failure, or the two readings that agree. -/
def report (j : Job) : Report :=
  match j.failure? t checkStandard with
  | some f => ⟨false, f.text⟩
  | none =>
    ⟨true, placeText j.zone j.index ++ j.claim.reading.text ++ " <-> " ++ j.claim.instant.text⟩

/-- What is noted in the log while a claim is checked. -/
def notes (j : Job) : List String :=
  match t.zoneNamed j.zone with
  | .ok z => z.verifyNotes j.claim.reading j.claim.instant
  | .error _ => []

end Job

/-! ## Events -/

inductive Stage where
  | check
  | report
  | record
  deriving DecidableEq, Repr

structure Event where
  stage : Stage
  job : Job
  deriving DecidableEq, Repr

def Job.events (j : Job) : List Event :=
  [⟨.check, j⟩, ⟨.report, j⟩, ⟨.record, j⟩]

/-- The events of a run that does one job after the other. -/
def serialEvents (batches : List Batch) : List Event :=
  (jobsOf batches).flatMap Job.events

inductive Level where
  | trace
  | debug
  | warn
  deriving DecidableEq, Repr

def Level.name : Level → String
  | .trace => "TRACE"
  | .debug => "DEBUG"
  | .warn => "WARN"

structure LogEntry where
  level : Level
  text : String
  deriving DecidableEq, Repr

/-- The log entry for a report: a failure is a warning. -/
def Report.logEntry (r : Report) : LogEntry :=
  if r.passed then ⟨.debug, "pass: " ++ r.description⟩ else ⟨.warn, "FAIL: " ++ r.description⟩

namespace Event

variable (t : Table) (checkStandard : Bool)

def failure? (e : Event) : Option Failure :=
  match e.stage with
  | .record => e.job.failure? t checkStandard
  | _ => none

def report? (e : Event) : Option Report :=
  match e.stage with
  | .report => some (e.job.report t checkStandard)
  | _ => none

/-- The log entries that an event writes, with the reports among them if `logReports` is set. -/
def logEntries (logReports : Bool) (e : Event) : List LogEntry :=
  match e.stage with
  | .check => (e.job.notes t).map fun text => ⟨.trace, text⟩
  | .report => if logReports then [(e.job.report t checkStandard).logEntry] else []
  | .record => []

end Event

/-! ## Outcomes -/

/-- The number of claims in a run, and the failures in the order in which they were recorded. -/
structure Outcome where
  total : Nat
  failures : List Failure
  deriving DecidableEq, Repr

namespace Outcome

/-- The number of claims that did not fail. -/
def passed (o : Outcome) : Nat :=
  o.total - o.failures.length

def isSuccess (o : Outcome) : Bool :=
  o.failures.isEmpty

def text (o : Outcome) : String :=
  Text.natural o.total ++ " vectors, " ++ Text.natural o.passed ++ " passed, " ++
    Text.natural o.failures.length ++ " failed"

/-- The number of failures for each zone name, in ascending order of the names. -/
def tally (o : Outcome) : Dictionary Nat :=
  Dictionary.tally (o.failures.map (·.zone))

end Outcome

/-- The outcome of a run of the batches in which the events happen in the given order. -/
def outcomeOf (t : Table) (checkStandard : Bool) (batches : List Batch) (events : List Event) :
    Outcome :=
  ⟨batches.foldl (fun n b => n + b.claims.length) 0, events.filterMap (·.failure? t checkStandard)⟩

def reportsOf (t : Table) (checkStandard : Bool) (events : List Event) : List Report :=
  events.filterMap (·.report? t checkStandard)

/-- The log of a run, in order. -/
def logOf (t : Table) (checkStandard logReports : Bool) (events : List Event) : List LogEntry :=
  events.flatMap (·.logEntries t checkStandard logReports)

/-- The outcome of a run that does one job after the other. -/
def runSerially (t : Table) (checkStandard : Bool) (batches : List Batch) : Outcome :=
  outcomeOf t checkStandard batches (serialEvents batches)

end ZoneHistory
