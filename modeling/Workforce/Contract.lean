import Workforce.Tables

/-!
The entities the manager keeps: jobs, runs, task definitions and webhook deliveries.

Times are nanosecond counts and durations their differences; the zero time is `0`. A
payload is a byte slice, which in the source may also be nil.
-/

namespace Workforce.Contract

open Tables

abbrev Bytes := List UInt8

/-- A byte slice that is JSON or arbitrary bytes; `none` is the nil slice. -/
abbrev JsonOrBytes := Option Bytes

abbrev Time := ℤ
abbrev Duration := ℤ

inductive JobStatus
  | pending | proposing | accepted | provisioning | running | awaitingChildren
  | completed | failed | cancelled
  deriving DecidableEq, Repr

def JobStatus.IsTerminal (s : JobStatus) : Prop :=
  s = .completed ∨ s = .failed ∨ s = .cancelled

instance : DecidablePred JobStatus.IsTerminal := fun s => by
  unfold JobStatus.IsTerminal; infer_instance

inductive JobPhase
  | run | consolidate
  deriving DecidableEq, Repr

structure Job where
  ID : String
  ParentJobID : String := ""
  TaskName : String := ""
  ArtifactVersion : String := ""
  Status : JobStatus := .pending
  Phase : JobPhase := .run
  Priority : ℤ := 0
  Cost : ℤ := 0
  Attempts : ℤ := 0
  Payload : JsonOrBytes := none
  Result : JsonOrBytes := none
  FailureReason : String := ""
  WebhookURL : String := ""
  WebhookEvents : List String := []
  WebhookHeaders : List (String × String) := []
  CreatedAt : Time := 0
  UpdatedAt : Time := 0
  CompletedAt : Option Time := none
  Duration : Option Duration := none
  deriving DecidableEq, Repr

inductive RunStatus
  | provisioning | running | completed | failed
  deriving DecidableEq, Repr

def RunStatus.Finished (s : RunStatus) : Prop := s = .completed ∨ s = .failed

instance : DecidablePred RunStatus.Finished := fun s => by
  unfold RunStatus.Finished; infer_instance

/-- The statuses a run can be closed with. -/
abbrev FinalRunStatus := { st : RunStatus // st.Finished }

def FinalRunStatus.completed : FinalRunStatus := ⟨.completed, .inl rfl⟩
def FinalRunStatus.failed : FinalRunStatus := ⟨.failed, .inr rfl⟩

inductive ResultType
  | success | error | subjobs
  deriving DecidableEq, Repr

structure JobRun where
  ID : String
  JobID : String
  Phase : JobPhase := .run
  Attempt : ℤ := 0
  WorkerID : String := ""
  Status : RunStatus := .provisioning
  InputPayload : JsonOrBytes := none
  OutputPayload : JsonOrBytes := none
  FailureReason : String := ""
  ExitCode : ℤ := 0
  ResultType : ResultType := .success
  StartedAt : Time := 0
  FinishedAt : Time := 0
  deriving DecidableEq, Repr

structure RetryPolicy where
  MaxAttempts : ℤ := 0
  RetryDelay : Duration := 0
  MaxRetryDelay : Duration := 0
  deriving DecidableEq, Repr

structure Limitations where
  MaxExecutionTime : Duration := 0
  MaxMemoryBytes : ℤ := 0
  deriving DecidableEq, Repr

structure Task where
  Name : String
  Limitations : Limitations := {}
  RetryPolicy : RetryPolicy := {}
  NoResult : Bool := false
  Cost : ℤ := 0
  deriving DecidableEq, Repr

structure WebhookEntry where
  ID : String
  JobID : String := ""
  Event : String := ""
  URL : String := ""
  Payload : JsonOrBytes := none
  Headers : List (String × String) := []
  Attempts : ℤ := 0
  NextAttemptAt : Time := 0
  CreatedAt : Time := 0
  deriving DecidableEq, Repr

structure ChildJobRequest where
  Task : String
  Payload : JsonOrBytes := none
  Priority : ℤ := 0
  Version : String := ""
  deriving DecidableEq, Repr

abbrev Jobs := Table Job.ID
abbrev Runs := Table JobRun.ID
abbrev Tasks := Table Task.Name
abbrev Webhooks := Table WebhookEntry.ID

end Workforce.Contract
