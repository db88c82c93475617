import Workforce.Shared

/-!
The atomic calls of the manager's activities and what each does to the shared state.
-/

namespace Workforce.Calls

open Tables Contract Progs Shared

/-- One atomic call, with the type of its answer. -/
inductive Call : Type → Type
  | now : Call Time
  | ulidMake : Call String
  /-- The answer is the error, if there is one. -/
  | saveJob (job : Job) : Call (Option String)
  | getJob (id : String) : Call (Option Job)
  /-- `none` when there is no such job, else the variable the callback captured. -/
  | updateJob (id : String) (m : JobMutation) : Call (Option Bool)
  /-- `UpdateJob` whose callback fires `job.failed` before it returns. -/
  | updateJobFiring (id : String) (reason : String) : Call (Option Bool)
  | listChildJobs (parentJobID : String) : Call (List Job)
  | getTask (name : String) : Call (Option Task)
  | createRun (run : JobRun) : Call Bool
  | updateRun (id : String) (m : RunMutation) : Call Bool
  | listJobRuns (jobID : String) : Call (List JobRun)
  | enqueueWebhook (e : WebhookEvent) : Call Unit
  | listPlatforms (task version : String) : Call (Except String (List ArtifactPlatform))
  /-- The build of a pinned version, or of the latest release when none is pinned. -/
  | resolve (task version os arch : String) : Call (Except String ArtifactPlatform)
  | pushItem (job : Job) : Call Unit
  | popItem : Call (Option Job)
  | queueSize : Call ℕ
  /-- Boost the queued jobs older than the timeout. -/
  | applyStarvationAging (timeout : Duration) : Call Unit
  | cancelledAdd (id : String) : Call Unit
  | cancelledHas (id : String) : Call Bool
  | cancelledRemove (id : String) : Call Unit
  | setActiveRun (jobID runID : String) : Call Unit
  | getActiveRun (jobID : String) : Call String
  | deleteActiveRun (jobID : String) : Call Unit
  | onlinePlatformKeys : Call (List String)
  | eligibleWorkers (platforms : List String) (cost : ℤ) (jobID : String) :
      Call (List WorkerConn)
  | select (workers : List WorkerConn) : Call WorkerConn
  | subtractCapacity (w : ConnID) (taskID : String) (cost : ℤ) : Call Bool
  | restoreCapacity (w : ConnID) (taskID : String) (cost : ℤ) : Call Bool
  | putRejected (w : ConnID) (jobID : String) : Call Unit
  | findWorkerByInFlightJobID (jobID : String) : Call (Option ConnID)
  | send (w : ConnID) (f : Frame) : Call Bool
  | afterFunc (jobID : String) (delay : Duration) : Call Unit

abbrev M := Prog Call

/-- The webhook events a job asked for. -/
def ShouldDispatchEvent (job : Job) (event : String) : Prop :=
  job.WebhookURL ≠ "" ∧ (job.WebhookEvents = [] ∨ event ∈ job.WebhookEvents)

instance (job : Job) (event : String) : Decidable (ShouldDispatchEvent job event) := by
  unfold ShouldDispatchEvent; infer_instance

def eventTaskProposing : String := "task.proposing"
def eventJobRunning : String := "job.running"
def eventJobCompleted : String := "job.completed"
def eventJobFailed : String := "job.failed"
def eventJobCancelled : String := "job.cancelled"

/-- Whether a worker may be proposed a job of this cost. -/
def Eligible (cost : ℤ) (jobID : String) (w : WorkerConn) : Prop :=
  w.state = .online ∧ (jobID = "" ∨ jobID ∉ w.rejectedJobsCache) ∧
    (cost = 0 ∨ cost ≤ w.AvailableCapacity)

instance (cost : ℤ) (jobID : String) (w : WorkerConn) : Decidable (Eligible cost jobID w) := by
  unfold Eligible; infer_instance

/-- The connections listed under a platform key, in order. -/
def World.listed (s : World) (key : String) : List WorkerConn :=
  ((s.platform.lookup key).getD []).filterMap s.conns.get

/-- The connections of the `workers` map, in the order of one enumeration. -/
def World.registered (s : World) : List WorkerConn :=
  s.workers.entries.filterMap fun e => s.conns.get e.2

lemma get_of_mem_listed {s : World} {key : String} {c : WorkerConn}
    (h : c ∈ World.listed s key) : s.conns.get c.conn = some c := by
  obtain ⟨w, -, hw⟩ := List.mem_filterMap.mp h
  rwa [key_of_get hw]

lemma get_of_mem_registered {s : World} {c : WorkerConn} (h : c ∈ World.registered s) :
    s.conns.get c.conn = some c := by
  obtain ⟨e, -, he⟩ := List.mem_filterMap.mp h
  rwa [key_of_get he]

/-- The queue with its starved jobs lifted above the highest priority. -/
def aged (timeout : Duration) (now : Time) (q : List Job) : List Job :=
  if timeout ≤ 0 then q else q.map (boost timeout now (maxPriority q))

/-- Aging changes nothing but priorities. -/
lemma aged_map {α : Type} {f : Job → α} (hf : ∀ j p, f { j with Priority := p } = f j)
    (timeout : Duration) (now : Time) (q : List Job) :
    (aged timeout now q).map f = q.map f := by
  unfold aged
  split
  · rfl
  · rw [List.map_map]
    refine List.map_congr_left fun j _ => ?_
    rw [Function.comp_apply, boost]
    split
    · exact hf j _
    · rfl

lemma aged_map_ID (timeout : Duration) (now : Time) (q : List Job) :
    (aged timeout now q).map Job.ID = q.map Job.ID := aged_map (fun _ _ => rfl) timeout now q

structure Stores where
  /-- The job store and the webhook store are one store, behind one mutex. -/
  same : Bool
  /-- The lanes of the worker pool run every closure they are given. Others may also give up
  before, with an error. -/
  lanes : Bool

variable (cfg : Stores)

/-- What a call does: `exec c s b t` when, made in state `s`, it can answer `b` and leave `t`. -/
def exec : {β : Type} → Call β → World → β → World → Prop
  | _, .now, s, _, t => t = s
  | _, .ulidMake, s, id, t =>
    id ≠ "" ∧ id ∉ s.issued ∧ t = { s with issued := insert id s.issued }
  | _, .saveJob job, s, err, t =>
    (err = none ∧ t = { s with jobs := s.jobs.put job }) ∨ (err ≠ none ∧ t = s)
  | _, .getJob id, s, r, t => r = s.jobs.get id ∧ t = s
  | _, .updateJob id m, s, r, t =>
    ∃ now, r = (s.jobs.get id).map m.scheduled ∧
      t = { s with jobs := s.jobs.modify id (m.apply now) }
  | _, .updateJobFiring id reason, s, r, t =>
    match s.jobs.get id with
    | none => r = none ∧ t = s
    | some j =>
      r = some true ∧ ∃ now,
        if ShouldDispatchEvent j eventJobFailed then
          -- with one store the event enters the mutex the callback holds: no return
          cfg.same = false ∧ ∃ wid, wid ≠ "" ∧ wid ∉ s.issued ∧
            t = { s with
              jobs := s.jobs.modify id ((JobMutation.failedFor reason).apply now)
              issued := insert wid s.issued
              webhooks := s.webhooks ++ [⟨wid, eventJobFailed, j.ID, j.ParentJobID,
                j.WebhookURL, j.WebhookHeaders, .failureReason reason, now⟩] }
        else t = { s with jobs := s.jobs.modify id ((JobMutation.failedFor reason).apply now) }
  | _, .listChildJobs p, s, l, t =>
    l.Perm (s.jobs.values.filter fun j => j.ParentJobID = p) ∧
      l.Pairwise (fun a b => a.CreatedAt ≤ b.CreatedAt) ∧ t = s
  | _, .getTask name, s, r, t => r = s.tasks.get name ∧ t = s
  | _, .createRun run, s, ok, t =>
    (ok = true ∧ t = { s with runs := s.runs.put run }) ∨ (ok = false ∧ t = s)
  | _, .updateRun id m, s, ok, t =>
    ∃ now, ok = (s.runs.get id).isSome ∧ t = { s with runs := s.runs.modify id (m.apply now) }
  | _, .listJobRuns jobID, s, l, t =>
    l.Perm (s.runs.values.filter fun r => r.JobID = jobID) ∧ t = s
  | _, .enqueueWebhook e, s, _, t => t = { s with webhooks := s.webhooks ++ [e] }
  | _, .listPlatforms _ _, s, _, t => t = s
  | _, .resolve _ _ _ _, s, _, t => t = s
  | _, .pushItem job, s, _, t => t = { s with queue := s.queue ++ [job] }
  | _, .popItem, s, r, t =>
    match r with
    | none => s.queue = [] ∧ t = s
    | some j => j ∈ s.queue ∧ (∀ k ∈ s.queue, ¬isHigherPriority k j) ∧
        t = { s with queue := s.queue.erase j }
  | _, .queueSize, s, n, t => n = s.queue.length ∧ t = s
  | _, .applyStarvationAging timeout, s, _, t =>
    ∃ now, t = { s with queue := aged timeout now s.queue }
  | _, .cancelledAdd id, s, _, t =>
    t = { s with cancelledJobIDs := insert id s.cancelledJobIDs }
  | _, .cancelledHas id, s, b, t => b = decide (id ∈ s.cancelledJobIDs) ∧ t = s
  | _, .cancelledRemove id, s, _, t =>
    t = { s with cancelledJobIDs := s.cancelledJobIDs.erase id }
  | _, .setActiveRun jobID runID, s, _, t =>
    t = { s with activeRunIDs := s.activeRunIDs.insert jobID runID }
  | _, .getActiveRun jobID, s, r, t => r = (s.activeRunIDs.lookup jobID).getD "" ∧ t = s
  | _, .deleteActiveRun jobID, s, _, t =>
    t = { s with activeRunIDs := s.activeRunIDs.erase jobID }
  | _, .onlinePlatformKeys, s, l, t =>
    (∀ key, key ∈ l ↔ ∃ w ∈ World.listed s key, w.state = .online) ∧ t = s
  | _, .eligibleWorkers platforms cost jobID, s, l, t =>
    (if cost < 0 then l = []
      else if platforms = [] then l.Perm ((World.registered s).filter (Eligible cost jobID))
      else l = platforms.flatMap fun key => (World.listed s key).filter (Eligible cost jobID)) ∧
      t = s
  | _, .select workers, s, w, t => w ∈ workers ∧ t = s
  | _, .subtractCapacity w taskID cost, s, ok, t =>
    cfg.lanes = false ∧ ok = false ∧ t = s ∨
    match s.conns.get w with
    | some c =>
      match c.AssignTask taskID cost with
      | .ok c' => ok = true ∧ t = { s with conns := s.conns.put c' }
      | .error _ => ok = false ∧ t = s
    | none => ok = false ∧ t = s
  | _, .restoreCapacity w taskID cost, s, ok, t =>
    cfg.lanes = false ∧ ok = false ∧ t = s ∨
      ok = true ∧ t = { s with conns := s.conns.modify w fun c => c.CompleteTask taskID cost }
  | _, .putRejected w jobID, s, _, t =>
    t = { s with conns := s.conns.modify w fun c =>
      { c with rejectedJobsCache := insert jobID c.rejectedJobsCache } }
  | _, .findWorkerByInFlightJobID jobID, s, r, t =>
    (match r with
      | some w => ∃ c ∈ World.registered s, c.conn = w ∧ jobID ∈ c.inFlight
      | none => ∀ c ∈ World.registered s, jobID ∉ c.inFlight) ∧ t = s
  | _, .send w f, s, ok, t =>
    (ok = true ∧ t = { s with sent := s.sent ++ [(w, f)] }) ∨ (ok = false ∧ t = s)
  | _, .afterFunc jobID _, s, _, t => t = { s with timers := s.timers ++ [jobID] }

/-! ### What a call leaves alone -/

inductive Part
  | nothing | issued | jobs | runs | webhooks | queue | cancelled | active | conns | sent | timers

/-- The part a call is there to write. -/
def part : {β : Type} → Call β → Part
  | _, .ulidMake => .issued
  | _, .saveJob _ | _, .updateJob _ _ | _, .updateJobFiring _ _ => .jobs
  | _, .createRun _ | _, .updateRun _ _ => .runs
  | _, .enqueueWebhook _ => .webhooks
  | _, .pushItem _ | _, .popItem | _, .applyStarvationAging _ => .queue
  | _, .cancelledAdd _ | _, .cancelledRemove _ => .cancelled
  | _, .setActiveRun _ _ | _, .deleteActiveRun _ => .active
  | _, .subtractCapacity _ _ _ | _, .restoreCapacity _ _ _ | _, .putRejected _ _ => .conns
  | _, .send _ _ => .sent
  | _, .afterFunc _ _ => .timers
  | _, _ => .nothing

/-- The other parts are as they were; only an update that fires its event adds a delivery too. -/
structure Untouched {β : Type} (c : Call β) (s t : World) : Prop where
  tasks : t.tasks = s.tasks
  workers : t.workers = s.workers
  platform : t.platform = s.platform
  requeues : t.requeues = s.requeues
  issued : s.issued ⊆ t.issued
  jobs : part c ≠ .jobs → t.jobs = s.jobs
  runs : part c ≠ .runs → t.runs = s.runs
  queue : part c ≠ .queue → t.queue = s.queue
  cancelledJobIDs : part c ≠ .cancelled → t.cancelledJobIDs = s.cancelledJobIDs
  conns : part c ≠ .conns → t.conns = s.conns
  timers : part c ≠ .timers → t.timers = s.timers
  webhooks : part c ≠ .webhooks → part c ≠ .jobs → t.webhooks = s.webhooks

/-! ### What the calls with several outcomes can do -/

section Inversion

variable {cfg : Stores} {s t : World}

lemma exec_updateJobFiring {id reason : String} {r : Option Bool}
    (h : exec cfg (.updateJobFiring id reason) s r t) :
    (s.jobs.get id = none ∧ r = none ∧ t = s) ∨
      ∃ now issued webhooks, r = some true ∧ s.jobs.get id ≠ none ∧ s.issued ⊆ issued ∧
        t = { s with
          jobs := s.jobs.modify id ((JobMutation.failedFor reason).apply now)
          issued := issued
          webhooks := webhooks } := by
  simp only [exec] at h
  rcases hj : s.jobs.get id with _ | j
  · simp only [hj] at h
    exact .inl ⟨rfl, h.1, h.2⟩
  · simp only [hj] at h
    obtain ⟨hr, now, h⟩ := h
    split_ifs at h
    · obtain ⟨-, wid, -, -, rfl⟩ := h
      exact .inr ⟨now, _, _, hr, by simp, Finset.subset_insert _ _, rfl⟩
    · exact .inr ⟨now, s.issued, s.webhooks, hr, by simp, subset_rfl, h⟩

lemma exec_subtractCapacity {w : ConnID} {taskID : String} {cost : ℤ} {ok : Bool}
    (h : exec cfg (.subtractCapacity w taskID cost) s ok t) :
    (ok = false ∧ t = s) ∨ ∃ c c', ok = true ∧ s.conns.get w = some c ∧
      c.AssignTask taskID cost = .ok c' ∧ t = { s with conns := s.conns.put c' } := by
  simp only [exec] at h
  rcases h with ⟨-, h⟩ | h
  · exact .inl h
  rcases hw : s.conns.get w with _ | c
  · simp only [hw] at h
    exact .inl h
  · rcases ha : c.AssignTask taskID cost with err | c'
    · simp only [hw, ha] at h
      exact .inl h
    · simp only [hw, ha] at h
      exact .inr ⟨c, c', h.1, rfl, ha, h.2⟩

/-- A lane that runs every closure gives the capacity back. -/
lemma exec_restoreCapacity {w : ConnID} {taskID : String} {cost : ℤ} {ok : Bool}
    (hlanes : cfg.lanes = true) (h : exec cfg (.restoreCapacity w taskID cost) s ok t) :
    ok = true ∧ t = { s with conns := s.conns.modify w fun c => c.CompleteTask taskID cost } :=
  h.resolve_left fun hfails => by simp [hlanes] at hfails

lemma exec_popItem {r : Option Job} (h : exec cfg .popItem s r t) :
    (r = none ∧ s.queue = [] ∧ t = s) ∨
      ∃ j ∈ s.queue, r = some j ∧ (∀ k ∈ s.queue, ¬isHigherPriority k j) ∧
        t = { s with queue := s.queue.erase j } := by
  rcases r with _ | j
  · exact .inl ⟨rfl, h.1, h.2⟩
  · exact .inr ⟨j, h.1, rfl, h.2.1, h.2.2⟩

lemma untouched {β : Type} {c : Call β} {b : β} (h : exec cfg c s b t) : Untouched c s t := by
  cases c with
  | ulidMake | listChildJobs =>
    obtain ⟨-, -, rfl⟩ := h
    constructor <;> simp [part]
  | updateJobFiring =>
    rcases exec_updateJobFiring h with ⟨-, -, rfl⟩ | ⟨_, _, _, -, -, hi, rfl⟩ <;>
      constructor <;> simp [part]
    exact hi
  | popItem =>
    rcases exec_popItem h with ⟨-, -, rfl⟩ | ⟨_, -, -, -, rfl⟩ <;> constructor <;> simp [part]
  | subtractCapacity =>
    rcases exec_subtractCapacity h with ⟨-, rfl⟩ | ⟨_, _, -, -, -, rfl⟩ <;>
      constructor <;> simp [part]
  | saveJob | createRun | send =>
    rcases h with ⟨-, rfl⟩ | ⟨-, rfl⟩ <;> constructor <;> simp [part]
  | restoreCapacity =>
    rcases h with ⟨-, -, rfl⟩ | ⟨-, rfl⟩ <;> constructor <;> simp [part]
  | updateJob | updateRun =>
    obtain ⟨_, -, rfl⟩ := h
    constructor <;> simp [part]
  | getJob | getTask | listJobRuns | queueSize | applyStarvationAging | cancelledHas |
    getActiveRun | onlinePlatformKeys | eligibleWorkers | select | findWorkerByInFlightJobID =>
    obtain ⟨_, rfl⟩ := h
    constructor <;> simp [part]
  | _ =>
    subst h
    constructor <;> simp [part]

end Inversion

end Workforce.Calls
