import Workforce.Calls

/-!
The manager's message handlers, timers and job operations, as programs of atomic calls.

Every worker message is handled in a goroutine of its own, a retry runs in a timer's
goroutine, a re-queue and a cancel in theirs. Each is a program over the calls of
`Calls`; local copies of records are ordinary values, read once and possibly stale later.
-/

namespace Workforce.Handlers

open Contract Shared Calls Decimal

/-- The part of the manager's configuration the job life cycle reads. -/
structure Config extends Stores where
  hasRegistry : Bool
  DefaultRetryPolicy : RetryPolicy
  DefaultPanicExitCode : UInt8
  DoNotRetryFrom : UInt8
  DoNotRetryTo : UInt8
  StarvationTimeout : Duration
  /-- The signer of artifact URLs, if one is configured. -/
  sign : Option (String → Option String)
  /-- The payload of a consolidate phase, from the parent and its children. -/
  buildConsolidatePayload : Job → List Job → Option JsonOrBytes

/-- What `applyDefaults` makes of a configuration that sets none of these fields, with one
store for everything and lanes that do not fail. -/
def Config.defaults : Config where
  same := true
  lanes := true
  hasRegistry := true
  DefaultRetryPolicy :=
    { MaxAttempts := 3, RetryDelay := 1000000000, MaxRetryDelay := 60000000000 }
  DefaultPanicExitCode := 2
  DoNotRetryFrom := 254
  DoNotRetryTo := 0
  StarvationTimeout := 300000000000
  sign := none
  buildConsolidatePayload := fun job _ => some job.Payload

/-! ### Calls under their own names -/

def now : M Time := .lift .now
def ulidMake : M String := .lift .ulidMake
def SaveJob (job : Job) : M (Option String) := .lift (.saveJob job)
def GetJob (id : String) : M (Option Job) := .lift (.getJob id)
def UpdateJob (id : String) (m : JobMutation) : M (Option Bool) := .lift (.updateJob id m)
def UpdateJobFiring (id reason : String) : M (Option Bool) := .lift (.updateJobFiring id reason)
def ListChildJobs (id : String) : M (List Job) := .lift (.listChildJobs id)
def GetTask (name : String) : M (Option Task) := .lift (.getTask name)
def CreateRun (run : JobRun) : M Bool := .lift (.createRun run)
def UpdateRun (id : String) (m : RunMutation) : M Bool := .lift (.updateRun id m)
def ListJobRuns (id : String) : M (List JobRun) := .lift (.listJobRuns id)
def ListPlatforms (task version : String) : M (Except String (List ArtifactPlatform)) :=
  .lift (.listPlatforms task version)
def restoreCapacity (w : ConnID) (id : String) (cost : ℤ) : M Bool :=
  .lift (.restoreCapacity w id cost)
def send (w : ConnID) (f : Frame) : M Bool := .lift (.send w f)

/-- Send an error frame, without the single quotes that would break its framing. -/
def SendError (w : ConnID) (code message : String) : M Unit := do
  let _ ← send w (.error code (String.ofList (message.toList.filter (· ≠ Char.ofNat 39))))

def EnqueueJob (job : Job) : M Unit := .lift (.pushItem job)

def EnqueueJobs : List Job → M Unit
  | [] => pure ()
  | job :: rest => do
    EnqueueJob job
    EnqueueJobs rest

/-! ### Webhook events -/

/-- Store a webhook entry for the job, if it asked for the event. -/
def enqueue (job : Job) (event : String) (data : WebhookData) : M Unit :=
  if ShouldDispatchEvent job event then do
    let ts ← now
    let id ← ulidMake
    .lift (.enqueueWebhook ⟨id, event, job.ID, job.ParentJobID, job.WebhookURL,
      job.WebhookHeaders, data, ts⟩)
  else pure ()

def FireJobProposing (job : Job) (workerID : String) : M Unit :=
  enqueue job eventTaskProposing (.proposing job.TaskName job.Cost workerID)
def FireJobRunning (job : Job) (workerID : String) : M Unit :=
  enqueue job eventJobRunning (.running workerID)
def FireJobFailed (job : Job) (reason : String) : M Unit :=
  enqueue job eventJobFailed (.failureReason reason)
def FireJobCompleted (job : Job) : M Unit := enqueue job eventJobCompleted (.result job.Result)
def FireJobCancelled (job : Job) : M Unit := enqueue job eventJobCancelled .none

/-! ### Runs -/

/-- The run a message is about: the one it names, else the active one of the job. -/
def resolveRunID (jobID msgRunID : String) : M String :=
  if msgRunID ≠ "" then pure msgRunID else .lift (.getActiveRun jobID)

/-- Finalise a run record and remove it from the active map. -/
def closeRun (runID jobID : String) (status : FinalRunStatus) (resultType : ResultType)
    (output : JsonOrBytes) (reason : String) (exitCode : ℤ) : M Unit :=
  if runID = "" then pure ()
  else do
    .lift (.deleteActiveRun jobID)
    let _ ← UpdateRun runID (.close status resultType output reason exitCode)

def resolveDispatchPayload (cfg : Config) (job : Job) : M (Option JsonOrBytes) :=
  if job.Phase ≠ .consolidate then pure (some job.Payload)
  else do
    let children ← ListChildJobs job.ID
    return cfg.buildConsolidatePayload job children

/-! ### Accept, staged, reject, starting -/

variable (cfg : Config)

def handleAcceptMessage (w : ConnID) (workerID jobID : String) : M Unit := do
  let updated ← UpdateJob jobID .accepted
  if updated = none then return
  let some job ← GetJob jobID | return
  let some dispatchPayload ← resolveDispatchPayload cfg job | return
  let runID ← ulidMake
  let _ ← CreateRun {
    ID := runID, JobID := job.ID, Phase := job.Phase, Attempt := job.Attempts + 1,
    WorkerID := workerID, Status := .provisioning, ResultType := .success,
    InputPayload := dispatchPayload }
  .lift (.setActiveRun job.ID runID)
  let _ ← send w (.dispatch job runID dispatchPayload)

def handleStagedMessage (jobID : String) : M Unit := do
  let _ ← UpdateJob jobID .provisioning

def handleRejectMessage (w : ConnID) (jobID : String) : M Unit := do
  let some job ← GetJob jobID |
    SendError w "invalid_argument" ("job(" ++ jobID ++ ") not found")
  let updated ← UpdateJob jobID .pending
  if updated = none then return
  let _ ← restoreCapacity w job.ID job.Cost
  .lift (.putRejected w job.ID)
  EnqueueJob { job with Status := .pending }

def handleStartingMessage (workerID jobID msgRunID : String) : M Unit := do
  let some job ← GetJob jobID | return
  let _ ← UpdateJob job.ID .running
  let runID ← resolveRunID jobID msgRunID
  if runID ≠ "" then
    let _ ← UpdateRun runID .running
  FireJobRunning job workerID

/-! ### Results -/

/-- The parts of a result message the handlers read. -/
structure ResultMessage where
  JobID : String
  RunID : String
  ResultType : ResultType
  Reason : String := ""
  ExitCode : ℤ := 0
  Jobs : List ChildJobRequest := []
  Payload : JsonOrBytes := none
  deriving DecidableEq

/-- `errors.Join`: the texts of the errors there are, one a line. -/
def joinErrors (errs : List (Option String)) : Option String :=
  match errs.filterMap id with
  | [] => none
  | es => some (String.intercalate "\n" es)

/-- Mark a decomposing job failed; the event fires inside the callback. The answer is the
error the handler returns. -/
def failEmission (parent : Job) (reason : String) (err : Option String) : M (Option String) := do
  let updated ← UpdateJobFiring parent.ID reason
  return joinErrors
    [err, if updated = none then some ("job " ++ parent.ID.quote ++ " not found") else none]

/-- The artifact version a child is pinned to, or the reason and the error there is none. -/
def childVersion (taskDef : Task) (req : ChildJobRequest) :
    M (Except (String × Option String) String) :=
  if cfg.hasRegistry then do
    let platforms ← ListPlatforms taskDef.Name req.Version
    let missing :=
      if req.Version ≠ "" then "child artifact " ++ req.Task ++ "@" ++ req.Version ++ " not found"
      else "no released artifact for " ++ taskDef.Name
    match platforms with
    | .error err => return .error (missing, some err)
    | .ok [] => return .error (missing, none)
    | .ok (p :: _) => return .ok (if req.Version ≠ "" then req.Version else p.Version)
  else pure (.ok "")

/-- The loop over the requested children. It ends early, with the error to return, when the
parent has been marked failed. -/
def createChildren (parent : Job) (start : Time) :
    ℕ → List ChildJobRequest → List Job → M (Except (Option String) (List Job))
  | _, [], children => pure (.ok children)
  | i, req :: rest, children => do
    match ← GetTask req.Task with
    | none =>
      let err ← failEmission parent ("child job targets unknown task: " ++ req.Task)
        (some ("task " ++ req.Task.quote ++ " not found"))
      return .error err
    | some taskDef =>
      match ← childVersion cfg taskDef req with
      | .error (reason, err) =>
        let err ← failEmission parent reason err
        return .error err
      | .ok artifactVersion =>
        let id ← ulidMake
        let child : Job := {
          ID := id, ParentJobID := parent.ID, TaskName := taskDef.Name,
          ArtifactVersion := artifactVersion, Status := .pending, Phase := .run,
          Priority := req.Priority, Cost := taskDef.Cost, Payload := req.Payload,
          CreatedAt := start + i, UpdatedAt := start }
        match ← SaveJob child with
        | some err =>
          let err ← failEmission parent ("internal error saving child jobs: " ++ err) (some err)
          return .error err
        | none => createChildren parent start (i + 1) rest (children ++ [child])

/-- Create the children of a decomposing job and let it wait for them. The answer is the error
returned, if there is one. -/
def handleSubjobsEmitted (parent : Job) (childJobs : List ChildJobRequest) :
    M (Option String) :=
  if parent.Status.IsTerminal then pure none
  else do
    let start ← now
    match ← createChildren cfg parent start 0 childJobs [] with
    | .error err => return err
    | .ok children =>
      let updated ← UpdateJob parent.ID .awaitingChildren
      if updated = none then return none
      EnqueueJobs children
      return none

/-- The guarded update of a parent that was read, and its enqueuing if the guard let it pass. -/
def consolidateParent (parent : Job) : M Unit := do
  let scheduled ← UpdateJob parent.ID .consolidate
  if scheduled = some true then
    EnqueueJob { parent with Status := .pending, Phase := .consolidate }

/-- Schedule the consolidate phase of a job all of whose children have completed. -/
def scheduleConsolidation (parentJobID : String) : M Unit := do
  let some parent ← GetJob parentJobID | return
  consolidateParent parent

/-- The check the last child to finish makes on its siblings. -/
def checkSiblings (parentJobID : String) : M Unit :=
  if parentJobID = "" then pure ()
  else do
    let siblings ← ListChildJobs parentJobID
    if ∀ s ∈ siblings, s.Status = .completed then scheduleConsolidation parentJobID

def handleJobCompleted (w : ConnID) (job : Job) (msg : ResultMessage) : M Unit :=
  if job.Status.IsTerminal then pure ()
  else do
    let updated ← UpdateJob msg.JobID (.completed msg.Payload)
    if updated = none then return
    let runID ← resolveRunID msg.JobID msg.RunID
    closeRun runID msg.JobID FinalRunStatus.completed msg.ResultType msg.Payload "" 0
    let restored ← restoreCapacity w job.ID job.Cost
    if !restored then return
    FireJobCompleted { job with Status := .completed }
    checkSiblings job.ParentJobID

/-- A job has failed for good; a waiting parent fails with it. -/
def handleFailJob (job : Job) (msg : ResultMessage) : M Unit := do
  let _ ← UpdateJob job.ID .failed
  FireJobFailed { job with Status := .failed } msg.Reason
  if job.ParentJobID = "" then return
  let some parent ← GetJob job.ParentJobID | return
  let updated ← UpdateJob parent.ID (.failedFor msg.Reason)
  if updated = none then return
  FireJobFailed { job with Status := .failed } msg.Reason

def mergeRetryPolicy (task defaults : RetryPolicy) : RetryPolicy where
  MaxAttempts := if task.MaxAttempts = 0 then defaults.MaxAttempts else task.MaxAttempts
  RetryDelay := if task.RetryDelay = 0 then defaults.RetryDelay else task.RetryDelay
  MaxRetryDelay := if task.MaxRetryDelay = 0 then defaults.MaxRetryDelay else task.MaxRetryDelay

/-- The retry policy of a job: its task's, if the task still exists, over the defaults. -/
def effectivePolicy (taskDef : Option Task) : RetryPolicy :=
  match taskDef with
  | some t => mergeRetryPolicy t.RetryPolicy cfg.DefaultRetryPolicy
  | none => cfg.DefaultRetryPolicy

/-- The delay before a retry: doubled with every attempt, in 64-bit arithmetic, then capped. -/
def retryDelay (p : RetryPolicy) (attempt : ℤ) : Duration :=
  if p.RetryDelay = 0 then 0
  else
    let delay := (fun d => wrap64 (d * 2))^[(attempt - 1).toNat] p.RetryDelay
    if 0 < p.MaxRetryDelay ∧ p.MaxRetryDelay < delay then p.MaxRetryDelay else delay

def handleJobError (w : ConnID) (job : Job) (msg : ResultMessage) : M Unit :=
  if job.Status.IsTerminal then
    if job.Status = .cancelled then do
      let runID ← resolveRunID msg.JobID msg.RunID
      closeRun runID msg.JobID FinalRunStatus.failed .error (some "cancelled".toUTF8.toList)
        "cancelled" 0
    else pure ()
  else do
    let _ ← restoreCapacity w job.ID job.Cost
    let runID ← resolveRunID msg.JobID msg.RunID
    closeRun runID msg.JobID FinalRunStatus.failed msg.ResultType
      (some msg.Reason.toUTF8.toList) msg.Reason msg.ExitCode
    let job := { job with Attempts := job.Attempts + 1 }
    let _ ← UpdateJob job.ID (.attempts job.Attempts msg.Reason)
    if msg.ExitCode = cfg.DefaultPanicExitCode.toNat then
      handleFailJob job msg
    else if cfg.DoNotRetryFrom.toNat ≤ msg.ExitCode ∧ msg.ExitCode ≤ cfg.DoNotRetryTo.toNat then
      handleFailJob job msg
    else do
      let taskDef ← GetTask job.TaskName
      let effective := effectivePolicy cfg taskDef
      if job.Attempts < effective.MaxAttempts then
        .lift (.afterFunc job.ID (retryDelay effective job.Attempts))
      else handleFailJob job msg

def retryTimer (jobID : String) : M Unit := do
  let some j ← GetJob jobID | return
  if j.Status.IsTerminal then return
  let _ ← UpdateJob jobID .pending
  EnqueueJob { j with Status := .pending }

def handleResultMessage (w : ConnID) (msg : ResultMessage) : M Unit := do
  let some job ← GetJob msg.JobID |
    SendError w "invalid_argument" ("job(" ++ msg.JobID ++ ") not found")
  match msg.ResultType with
  | .error => handleJobError cfg w job msg
  | .subjobs => do
    let runID ← resolveRunID msg.JobID msg.RunID
    let subjobErr ← handleSubjobsEmitted cfg job msg.Jobs
    let _ ← restoreCapacity w job.ID job.Cost
    match subjobErr with
    | some err => SendError w "" err
    | none => closeRun runID msg.JobID FinalRunStatus.completed msg.ResultType msg.Payload "" 0
  | .success => handleJobCompleted w job msg

/-! ### Re-queue, direct failure, cancel -/

def closeActiveRuns (reason : String) : List JobRun → M Unit
  | [] => pure ()
  | r :: rest => do
    if r.Status = .provisioning ∨ r.Status = .running then
      let _ ← UpdateRun r.ID (.disconnected reason)
    closeActiveRuns reason rest

/-- Reset the in-flight jobs of a lost connection and queue them again. -/
def OnJobsRequeued : List String → M Unit
  | [] => pure ()
  | id :: rest => do
    let runs ← ListJobRuns id
    closeActiveRuns "worker disconnected" runs
    match ← GetJob id with
    | none => pure ()
    | some job =>
      let _ ← UpdateJob id .requeued
      EnqueueJob { job with Status := .pending }
    OnJobsRequeued rest

def failJobDirect (job : Job) (reason : String) : M Unit := do
  let _ ← UpdateJob job.ID (.failDirect reason)
  FireJobFailed job reason

def SendCancelToWorker (jobID : String) : M Unit := do
  match ← .lift (.findWorkerByInFlightJobID jobID) with
  | none => pure ()
  | some target =>
    let _ ← send target (.cancel jobID)

def cancelChildren : List Job → M Unit
  | [] => pure ()
  | child :: rest => do
    if ¬child.Status.IsTerminal then
      if child.Status = .running ∨ child.Status = .provisioning ∨ child.Status = .proposing then
        SendCancelToWorker child.ID
      if child.Status = .pending then .lift (.cancelledAdd child.ID)
      let _ ← UpdateJob child.ID .cancelled
    cancelChildren rest

def cancelJobByID (jobID : String) : M Unit := do
  let some job ← GetJob jobID | return
  let children ← ListChildJobs jobID
  cancelChildren children
  if job.Status = .running ∨ job.Status = .provisioning ∨ job.Status = .proposing ∨
      job.Status = .accepted then
    SendCancelToWorker jobID
  if job.Status = .pending then .lift (.cancelledAdd job.ID)
  let _ ← UpdateJob jobID .cancelled
  FireJobCancelled job

end Workforce.Handlers
