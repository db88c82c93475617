import Workforce.Handlers

/-!
The dispatcher: one pass over the queue, and the proposal of one job.
-/

namespace Workforce.Dispatcher

open Contract Progs Shared Calls Handlers

inductive DispatchError
  | ErrUnknownTask | ErrNoArtifactPlatform | ErrNoEledgibleWorkers
  | other (text : String)
  deriving DecidableEq

/-- Why a job cannot be dispatched in this pass. -/
structure jobDeferral where
  reason : String
  shortage : Bool := false
  fail : Bool := false

/-- The lookups a pass remembers: platform keys by task and version, and known tasks. -/
structure Caches where
  platform : AList (fun _ : String × String => List String)
  task : Finset String

variable (cfg : Config)

/-- The platform keys of a job's artifact, from the cache or the registry. -/
def platformKeysOf (job : Job) (c : Caches) : M (Caches × Except String (List String)) :=
  let key := (job.TaskName, job.ArtifactVersion)
  match c.platform.lookup key with
  | some keys => pure (c, .ok keys)
  | none => do
    match ← ListPlatforms job.TaskName job.ArtifactVersion with
    | .error err => return (c, .error err)
    | .ok platforms =>
      let keys := platforms.map fun p => platformKey p.OS p.Arch
      return ({ c with platform := c.platform.insert key keys }, .ok keys)

/-- Whether the job's task exists, from the cache or the task store. -/
def knownTask (job : Job) (c : Caches) : M Bool :=
  if job.TaskName ∈ c.task then pure true
  else do
    let t ← GetTask job.TaskName
    return t.isSome

/-- The platforms a job can run on, or why it cannot be dispatched now. -/
def jobPlatformKeysForDispatch (job : Job) (online : List String) (c : Caches) :
    M (Caches × List String × Option jobDeferral) := do
  let known ← knownTask job c
  if !known then
    return (c, [], some ⟨"unknown task: " ++ job.TaskName, false, true⟩)
  let c := { c with task := insert job.TaskName c.task }
  if !cfg.hasRegistry then return (c, [], none)
  match ← platformKeysOf job c with
  | (c, .error err) => return (c, [], some ⟨"list platforms: " ++ err, false, false⟩)
  | (c, .ok keys) =>
    if keys = [] then
      return (c, [], some ⟨"no artifact platform available", false, false⟩)
    else if ∃ k ∈ keys, k ∈ online then
      return (c, keys, none)
    else
      return (c, keys, some ⟨"no online workers for artifact platforms", true, false⟩)

/-- The artifact of the job for the selected worker, its URL signed if a signer is set. -/
def artifactFor (job : Job) (taskDef : Task) (selected : WorkerConn) :
    M (Except String ArtifactInfo) :=
  if !cfg.hasRegistry then pure (.ok {})
  else do
    match ← Prog.lift (.resolve taskDef.Name job.ArtifactVersion selected.os selected.arch) with
    | .error err => return .error err
    | .ok p =>
      let url := match cfg.sign with
        | some sign => if p.URL ≠ "" then (sign p.URL).getD p.URL else p.URL
        | none => p.URL
      return .ok ⟨p.Hash, url, p.Dependencies⟩

/-- Select a worker for the job, send it the proposal, then record it. -/
def tryProposeJob (job : Job) (platformKeys : List String) : M (Except DispatchError Unit) := do
  match ← GetTask job.TaskName with
  | none => return .error .ErrUnknownTask
  | some taskDef =>
    if cfg.hasRegistry ∧ platformKeys = [] then return .error .ErrNoArtifactPlatform
    let workers ← Prog.lift (.eligibleWorkers platformKeys job.Cost job.ID)
    if workers = [] then return .error .ErrNoEledgibleWorkers
    let selected ← Prog.lift (.select workers)
    match ← artifactFor cfg job taskDef selected with
    | .error err => return .error (.other err)
    | .ok artInfo =>
      let sent ← send selected.conn (.propose job taskDef artInfo)
      if !sent then return .error (.other "send")
      let updated ← UpdateJob job.ID .proposing
      if updated = none then return .error (.other ("job " ++ job.ID.quote ++ " not found"))
      let assigned ← Prog.lift (.subtractCapacity selected.conn job.ID job.Cost)
      if !assigned then return .error (.other "worker capacity")
      FireJobProposing job selected.workerID
      return .ok ()

/-- Pop the next job that has not been cancelled; the fuel bounds the discarded ones. -/
def PopNextJobFromQueue : ℕ → M (Option Job)
  | 0 => pure none
  | fuel + 1 => do
    match ← Prog.lift .popItem with
    | none => return none
    | some job =>
      let cancelled ← Prog.lift (.cancelledHas job.ID)
      if cancelled then
        Prog.lift (.cancelledRemove job.ID)
        PopNextJobFromQueue fuel
      else return some job

/-- What is left of a pass when the queue is empty. -/
structure PassResult where
  deferred : List Job
  shortage : Bool

/-- What the pass does with one popped job: the caches, and the deferral if it is deferred. -/
def dispatchJob (job : Job) (online : List String) (c : Caches) :
    M (Caches × Option jobDeferral) := do
  match ← jobPlatformKeysForDispatch cfg job online c with
  | (c, _, some d) =>
    if d.fail then
      failJobDirect job d.reason
      return (c, none)
    else return (c, some d)
  | (c, platformKeys, none) =>
    match ← tryProposeJob cfg job platformKeys with
    | .ok _ => return (c, none)
    | .error .ErrUnknownTask =>
      failJobDirect job ("unknown task: " ++ job.TaskName)
      return (c, none)
    | .error .ErrNoEledgibleWorkers => return (c, some ⟨"no elegible workers", true, false⟩)
    | .error .ErrNoArtifactPlatform =>
      return (c, some ⟨"no artifact platform available", false, false⟩)
    | .error (.other text) => return (c, some ⟨text, false, false⟩)

/-- The pass over the queue; the fuel bounds the number of jobs popped. -/
def passLoop (online : List String) : ℕ → Caches → PassResult → M PassResult
  | 0, _, r => pure r
  | fuel + 1, c, r => do
    match ← PopNextJobFromQueue (fuel + 1) with
    | none => return r
    | some job =>
      match ← dispatchJob cfg job online c with
      | (c, none) => passLoop online fuel c r
      | (c, some d) =>
        passLoop online fuel c ⟨r.deferred ++ [job], r.shortage || d.shortage⟩

/-- One dispatch pass. The answer is whether a shortage was seen. -/
def ProcessQueue : M Bool := do
  let size ← Prog.lift .queueSize
  if size = 0 then return false
  Prog.lift (.applyStarvationAging cfg.StarvationTimeout)
  let online ← Prog.lift .onlinePlatformKeys
  let r ← passLoop cfg online size ⟨∅, ∅⟩ ⟨[], false⟩
  EnqueueJobs r.deferred
  return r.shortage

end Workforce.Dispatcher
