import Workforce.Contract
import Workforce.Decimal
import Workforce.Progs

/-!
The state the manager's activities share, and the atomic calls they make on it.

The job, run and task stores are maps behind one mutex, so each of their methods is one
atomic call; so are a push to the dispatch heap, an operation of a worker connection and a
frame written to it. What the program cannot determine is an answer of the call: the clock,
the next ULID, the order in which a map is enumerated, what the artifact registry says.
The log store is left out: none of its answers is used.
-/

namespace Workforce.Shared

open Tables Contract Decimal

/-! ### Changes to stored records -/

/-- The `mutate` callbacks the manager passes to `UpdateJob`. -/
inductive JobMutation
  | accepted
  | provisioning
  | running
  | proposing
  | pending
  | requeued
  | awaitingChildren
  | attempts (n : ℤ) (reason : String)
  | completed (result : JsonOrBytes)
  | failed
  | failedFor (reason : String)
  | failDirect (reason : String)
  | cancelled
  | consolidate
  deriving DecidableEq

/-- What the callback does to the record at time `now`. -/
def JobMutation.apply (m : JobMutation) (now : Time) (j : Job) : Job :=
  match m with
  | .accepted => { j with Status := .accepted, UpdatedAt := now }
  | .provisioning => { j with Status := .provisioning, UpdatedAt := now }
  | .running => { j with Status := .running, UpdatedAt := now }
  | .proposing => { j with Status := .proposing }
  | .pending => { j with Status := .pending, UpdatedAt := now }
  | .requeued => { j with Status := .pending }
  | .awaitingChildren => { j with Status := .awaitingChildren, UpdatedAt := now }
  | .attempts n reason => { j with Attempts := n, FailureReason := reason, UpdatedAt := now }
  | .completed result =>
    { j with
      Status := .completed, Result := result, UpdatedAt := now,
      CompletedAt := some now, Duration := some (now - j.CreatedAt) }
  | .failed =>
    { j with
      Status := .failed, UpdatedAt := now,
      CompletedAt := some now, Duration := some (now - j.CreatedAt) }
  | .failedFor reason =>
    { j with
      Status := .failed, FailureReason := reason, UpdatedAt := now,
      CompletedAt := some now, Duration := some (now - j.CreatedAt) }
  | .failDirect reason => { j with Status := .failed, FailureReason := reason, UpdatedAt := now }
  | .cancelled =>
    { j with
      Status := .cancelled, UpdatedAt := now,
      CompletedAt := some now, Duration := some (now - j.CreatedAt) }
  | .consolidate =>
    -- the only callback that looks at the record first
    if j.Status = .awaitingChildren then
      { j with Status := .pending, Phase := .consolidate, UpdatedAt := now }
    else j

/-- What the callback leaves in the captured variable: whether it went through. -/
def JobMutation.scheduled (m : JobMutation) (j : Job) : Bool :=
  match m with
  | .consolidate => decide (j.Status = .awaitingChildren)
  | _ => true

/-- The status the callback assigns without looking at the record, if it does. -/
def JobMutation.writes : JobMutation → Option JobStatus
  | .accepted => some .accepted
  | .provisioning => some .provisioning
  | .running => some .running
  | .proposing => some .proposing
  | .pending => some .pending
  | .requeued => some .pending
  | .awaitingChildren => some .awaitingChildren
  | .attempts _ _ => none
  | .completed _ => some .completed
  | .failed => some .failed
  | .failedFor _ => some .failed
  | .failDirect _ => some .failed
  | .cancelled => some .cancelled
  | .consolidate => none

@[simp] lemma JobMutation.apply_ID (m : JobMutation) (now : Time) (j : Job) :
    (m.apply now j).ID = j.ID := by
  cases m <;> simp only [JobMutation.apply]
  split <;> rfl

@[simp] lemma JobMutation.apply_ParentJobID (m : JobMutation) (now : Time) (j : Job) :
    (m.apply now j).ParentJobID = j.ParentJobID := by
  cases m <;> simp only [JobMutation.apply]
  split <;> rfl

lemma JobMutation.apply_of_writes {m : JobMutation} {st : JobStatus} (h : m.writes = some st)
    (now : Time) (j : Job) : (m.apply now j).Status = st := by
  cases m <;> simp_all [JobMutation.writes, JobMutation.apply]

lemma JobMutation.apply_of_not_writes {m : JobMutation} (h : m.writes = none) (now : Time)
    (j : Job) : (m.apply now j).Status = j.Status ∨
      j.Status = .awaitingChildren ∧ (m.apply now j).Status = .pending := by
  cases m <;> simp_all [JobMutation.writes, JobMutation.apply]
  split <;> simp_all

/-- Such a callback ends no job and brings none back. -/
lemma JobMutation.apply_terminal {m : JobMutation} {now : Time} {j : Job} (hm : m.writes = none)
    (h : j.Status.IsTerminal ∨ (m.apply now j).Status.IsTerminal) :
    (m.apply now j).Status = j.Status := by
  rcases apply_of_not_writes hm now j with hsame | ⟨hold, hnew⟩
  · exact hsame
  · rw [hold, hnew] at h
    exact absurd h (by decide)

/-- The `mutate` callbacks the manager passes to `UpdateRun`. -/
inductive RunMutation
  | running
  | close (status : FinalRunStatus) (resultType : ResultType) (output : JsonOrBytes)
      (reason : String) (exitCode : ℤ)
  | disconnected (reason : String)
  deriving DecidableEq

def RunMutation.apply (m : RunMutation) (now : Time) (r : JobRun) : JobRun :=
  match m with
  | .running => { r with Status := .running, StartedAt := now }
  | .close status resultType output reason exitCode =>
    { r with
      Status := status.1, ResultType := resultType, OutputPayload := output,
      FailureReason := reason, ExitCode := exitCode, FinishedAt := now }
  | .disconnected reason =>
    { r with Status := .failed, FailureReason := reason, FinishedAt := now }

@[simp] lemma RunMutation.apply_ID (m : RunMutation) (now : Time) (r : JobRun) :
    (m.apply now r).ID = r.ID := by cases m <;> rfl

/-! ### Worker connections -/

abbrev ConnID := ℕ

inductive WorkerState
  | online | pressure | draining | offline | shuttingDown
  deriving DecidableEq, Repr

structure WorkerConn where
  conn : ConnID
  workerID : String
  os : String
  arch : String
  capacity : ℤ
  state : WorkerState := .online
  inFlight : Finset String := ∅
  occupiedCost : ℤ := 0
  rejectedJobsCache : Finset String := ∅
  deriving DecidableEq

def platformKey (os arch : String) : String := os ++ "/" ++ arch

def WorkerConn.AvailableCapacity (w : WorkerConn) : ℤ := w.capacity - w.occupiedCost

inductive AssignError
  | ErrWorkerAtCapacity | ErrWorkerInsufficientCapacity
  deriving DecidableEq, Repr

def WorkerConn.AssignTask (w : WorkerConn) (taskID : String) (cost : ℤ) :
    Except AssignError WorkerConn :=
  let avail := w.capacity - w.occupiedCost
  if avail ≤ 0 then .error .ErrWorkerAtCapacity
  else if avail - cost < 0 then .error .ErrWorkerInsufficientCapacity
  else .ok { w with inFlight := insert taskID w.inFlight, occupiedCost := w.occupiedCost + cost }

lemma WorkerConn.eq_of_AssignTask {w w' : WorkerConn} {taskID : String} {cost : ℤ}
    (h : w.AssignTask taskID cost = .ok w') :
    w' = { w with inFlight := insert taskID w.inFlight, occupiedCost := w.occupiedCost + cost } := by
  simp only [WorkerConn.AssignTask] at h
  split_ifs at h
  exact (Except.ok.inj h).symm

def WorkerConn.CompleteTask (w : WorkerConn) (taskID : String) (cost : ℤ) : WorkerConn :=
  { w with
    inFlight := w.inFlight.erase taskID,
    occupiedCost := if w.occupiedCost - cost < 0 then 0 else w.occupiedCost - cost }

abbrev Conns := Table WorkerConn.conn

/-- What a worker needs to fetch an artifact. -/
structure ArtifactInfo where
  Hash : String := ""
  URL : String := ""
  Dependencies : List String := []
  deriving DecidableEq

/-- The frames the manager writes to a worker, before formatting. -/
inductive Frame
  | propose (job : Job) (task : Task) (artifact : ArtifactInfo)
  | dispatch (job : Job) (runID : String) (payload : JsonOrBytes)
  | cancel (jobID : String)
  | error (code message : String)
  deriving DecidableEq

/-! ### Webhook events and artifacts -/

/-- The `data` object of a webhook event. -/
inductive WebhookData
  | none
  | proposing (taskName : String) (cost : ℤ) (workerID : String)
  | running (workerID : String)
  | result (r : JsonOrBytes)
  | failureReason (reason : String)
  deriving DecidableEq

/-- A queued webhook delivery, with its payload before encoding. -/
structure WebhookEvent where
  ID : String
  Event : String
  JobID : String
  ParentJobID : String
  URL : String
  Headers : List (String × String)
  Data : WebhookData
  Timestamp : Time
  deriving DecidableEq

structure ArtifactPlatform where
  OS : String
  Arch : String
  Version : String
  Hash : String := ""
  URL : String := ""
  Dependencies : List String := []
  deriving DecidableEq

/-! ### The shared state -/

structure World where
  jobs : Jobs
  runs : Runs
  tasks : Tasks
  /-- The dispatch heap, as the jobs it holds. -/
  queue : List Job
  cancelledJobIDs : Finset String
  webhooks : List WebhookEvent
  /-- The run of each job in flight, by job ID. -/
  activeRunIDs : AList (fun _ : String => String)
  /-- Every connection made so far. -/
  conns : Conns
  /-- The pool's connections by worker ID. -/
  workers : AList (fun _ : String => ConnID)
  /-- The pool's connections by platform. -/
  platform : AList (fun _ : String => List ConnID)
  /-- Retry timers that have not fired, by job ID. -/
  timers : List String
  /-- Re-queues started by `register` that have not run. -/
  requeues : List (List String)
  sent : List (ConnID × Frame)
  /-- The ULIDs handed out so far. -/
  issued : Finset String

/-- The manager before its first request. -/
def World.initial : World where
  jobs := .empty _
  runs := .empty _
  tasks := .empty _
  queue := []
  cancelledJobIDs := ∅
  webhooks := []
  activeRunIDs := ∅
  conns := .empty _
  workers := ∅
  platform := ∅
  timers := []
  requeues := []
  sent := []
  issued := ∅

/-- Two jobs in the order of the dispatch heap: priority first, then age. -/
def isHigherPriority (a b : Job) : Prop :=
  if a.Priority ≠ b.Priority then b.Priority < a.Priority else a.CreatedAt < b.CreatedAt

instance (a b : Job) : Decidable (isHigherPriority a b) := by
  unfold isHigherPriority; infer_instance

/-! ### Starvation -/

/-- `Time.Sub`: the difference, as far as a 64-bit duration goes. -/
def Sub (t u : Time) : Duration := max (-2 ^ 63) (min (2 ^ 63 - 1) (t - u))

/-- The job has waited longer than the timeout. -/
def Starved (timeout : Duration) (now : Time) (job : Job) : Prop := timeout < Sub now job.CreatedAt

instance (timeout : Duration) (now : Time) : DecidablePred (Starved timeout now) :=
  fun _ => inferInstanceAs (Decidable (_ < _))

def higher (maxP : ℤ) (job : Job) : ℤ := if maxP < job.Priority then job.Priority else maxP

/-- The highest priority, or zero if that is higher. -/
def maxPriority (jobs : List Job) : ℤ := jobs.foldl higher 0

def withPriority (p : ℤ) (job : Job) : Job := { job with Priority := p }

def boost (timeout : Duration) (now : Time) (maxP : ℤ) (job : Job) : Job :=
  if Starved timeout now job ∧ job.Priority ≤ maxP then withPriority (wrap64 (maxP + 1)) job
  else job

end Workforce.Shared
