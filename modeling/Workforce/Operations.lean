import Workforce.Footprints

/-!
The manager as a state machine of whole operations.

Each operation runs from its first call to its last without interruption: a submission, a
dispatch pass, a change of the worker pool, a worker message, a timer or a re-queue that had
been started earlier.
-/

namespace Workforce.Operations

open Contract Progs Shared Calls Handlers Dispatcher Footprints

/-! ### The worker pool -/

def key (w : WorkerConn) : String := platformKey w.os w.arch

def platformList (s : World) (k : String) : List ConnID := (s.platform.lookup k).getD []

/-- Remove a connection from both indexes. The `workers` entry goes by worker ID, so it goes
even when it belongs to another connection. -/
def removeConnLocked (w : WorkerConn) (s : World) : World :=
  { s with
    workers := s.workers.erase w.workerID
    platform :=
      if w.conn ∈ platformList s (key w) then
        s.platform.insert (key w) ((platformList s (key w)).erase w.conn)
      else s.platform }

def connectedAs (s : World) (workerID : String) : Option WorkerConn :=
  (s.workers.lookup workerID).bind s.conns.get

/-- The connection that `register` replaces leaves the pool; the re-queue of its in-flight
jobs is started and runs later. -/
def replaceOld (old : WorkerConn) (ids : List String) (s : World) : World :=
  let s := removeConnLocked old s
  if ids ≠ [] then { s with requeues := s.requeues ++ [ids] } else s

def addConn (w : WorkerConn) (s : World) : World :=
  { s with
    conns := s.conns.put w
    workers := s.workers.insert w.workerID w.conn
    platform := s.platform.insert (key w) (platformList s (key w) ++ [w.conn]) }

/-- `ids` is an enumeration of the connection's in-flight set. -/
def InFlightIDs (w : WorkerConn) (ids : List String) : Prop :=
  ids.Nodup ∧ ids.toFinset = w.inFlight

instance (w : WorkerConn) (ids : List String) : Decidable (InFlightIDs w ids) := by
  unfold InFlightIDs; infer_instance

def NewWorkerConn (conn : ConnID) (id os arch : String) (capacity : ℤ) : WorkerConn :=
  { conn := conn, workerID := id, os := os, arch := arch, capacity := capacity }

/-- Register a new connection, in place of the one that has its worker ID. -/
def Registers (w : WorkerConn) (s t : World) : Prop :=
  match connectedAs s w.workerID with
  | some old => ∃ ids, InFlightIDs old ids ∧ t = addConn w (replaceOld old ids s)
  | none => t = addConn w s

/-- A registration changes the pool and the re-queues only. -/
lemma Registers.eq {w : WorkerConn} {s t : World} (h : Registers w s t) :
    t = { s with
      conns := t.conns, workers := t.workers, platform := t.platform, requeues := t.requeues } := by
  unfold Registers at h
  split at h
  · obtain ⟨ids, -, rfl⟩ := h
    unfold replaceOld
    split_ifs <;> rfl
  · rw [h]
    rfl

/-! ### Submissions -/

structure webhookConfig where
  URL : String
  Events : List String := []
  Headers : List (String × String) := []

structure submitJobRequest where
  Task : String
  Payload : JsonOrBytes := none
  Webhook : Option webhookConfig := none

def sanitizeWebhookHeaders (headers : List (String × String)) : List (String × String) :=
  headers.filter fun h => h.1.startsWith "X-" ∨ h.1 = "Authorization"

def jobOf (req : submitJobRequest) (taskDef : Task) (id : String) (now : Time) : Job :=
  let job : Job := {
    ID := id, TaskName := req.Task, Status := .pending, Phase := .run, Cost := taskDef.Cost,
    Payload := req.Payload, CreatedAt := now, UpdatedAt := now }
  match req.Webhook with
  | some hook =>
    if hook.URL ≠ "" then
      { job with
        WebhookURL := hook.URL, WebhookEvents := hook.Events,
        WebhookHeaders := sanitizeWebhookHeaders hook.Headers }
    else job
  | none => job

lemma jobOf_fields (req : submitJobRequest) (taskDef : Task) (id : String) (now : Time) :
    (jobOf req taskDef id now).ID = id ∧ (jobOf req taskDef id now).Status = .pending ∧
      (jobOf req taskDef id now).ParentJobID = "" ∧ New (jobOf req taskDef id now) := by
  unfold jobOf
  split
  · split_ifs <;> exact ⟨rfl, rfl, rfl, rfl, rfl, rfl, rfl⟩
  · exact ⟨rfl, rfl, rfl, rfl, rfl, rfl, rfl⟩

inductive SubmitError
  | taskRequired
  | unknownTask (name : String)
  | saveFailed
  deriving DecidableEq

def handleSubmitJob (req : submitJobRequest) : M (Except SubmitError Job) :=
  if req.Task = "" then pure (.error .taskRequired)
  else do
    match ← GetTask req.Task with
    | none => return .error (.unknownTask req.Task)
    | some taskDef =>
      let ts ← now
      let id ← ulidMake
      let job := jobOf req taskDef id ts
      match ← SaveJob job with
      | some _ => return .error .saveFailed
      | none =>
        EnqueueJob job
        return .ok job

lemma uses_handleSubmitJob {φ : ∀ {β : Type}, Call β → Prop}
    (hq : ∀ {β : Type} (c : Call β), Quiet c → φ c) (req : submitJobRequest)
    (hsave : ∀ taskDef id ts, φ (.saveJob (jobOf req taskDef id ts)))
    (hpush : ∀ job, φ (.pushItem job)) : (handleSubmitJob req).Uses φ := by
  unfold handleSubmitJob
  split_ifs
  · trivial
  refine uses_step (hq _ trivial) fun task => ?_
  cases task with
  | none => trivial
  | some taskDef =>
    refine uses_step (hq _ trivial) fun ts => uses_step (hq _ trivial) fun id =>
      uses_step (hsave taskDef id ts) fun saved => ?_
    cases saved with
    | some err => trivial
    | none => exact uses_step (hpush _) fun _ => trivial

/-! ### Operations -/

/-- The operations. A worker ID is the one the worker sent, or the one made up for it. -/
inductive Op
  | submit (req : submitJobRequest)
  | processQueue
  | register (conn : ConnID) (id os arch : String) (capacity : ℤ)
  | requeue (ids : List String)
  | unregister (conn : ConnID)
  | heartbeat (conn : ConnID) (state : WorkerState)
  | capacity (conn : ConnID) (available : ℤ)
  /-- The cache of the jobs a worker has rejected drops one, for its age or for lack of room. -/
  | forget (conn : ConnID) (jobID : String)
  | accept (conn : ConnID) (workerID jobID : String)
  | staged (jobID : String)
  | starting (workerID jobID runID : String)
  | reject (conn : ConnID) (jobID : String)
  | result (conn : ConnID) (msg : ResultMessage)
  | retry (jobID : String)
  | cancel (jobID : String)
  | saveTask (task : Task)
  | deleteTask (name : String)

variable (cfg : Config) (run : ∀ {β : Type}, Call β → World → β → World → Prop)

/-- Running a program as one step, call by call as `run` allows. -/
def Performs {α : Type} (p : M α) (s t : World) : Prop :=
  ∃ a, Prog.Ends run p s a t

/-- One operation, from start to end, its calls as `run` allows. -/
def stepBy (s : World) (op : Op) (t : World) : Prop :=
  match op with
  | .submit req => Performs run (handleSubmitJob req) s t
  | .processQueue => Performs run (ProcessQueue cfg) s t
  | .register conn id os arch capacity =>
    s.conns.get conn = none ∧ os ≠ "" ∧ arch ≠ "" ∧ 1 ≤ capacity ∧
      Registers (NewWorkerConn conn id os arch capacity) s t
  | .requeue ids =>
    ids ∈ s.requeues ∧
      Performs run (OnJobsRequeued ids) { s with requeues := s.requeues.erase ids } t
  | .unregister conn =>
    ∃ w ids, s.conns.get conn = some w ∧ InFlightIDs w ids ∧
      Performs run (OnJobsRequeued ids) (removeConnLocked w s) t
  | .heartbeat conn state =>
    t = { s with conns := s.conns.modify conn fun w => { w with state := state } }
  | .capacity conn available =>
    t = { s with conns := s.conns.modify conn fun w => { w with capacity := available } }
  | .forget conn jobID =>
    t = { s with conns := s.conns.modify conn fun w =>
      { w with rejectedJobsCache := w.rejectedJobsCache.erase jobID } }
  | .accept conn workerID jobID => Performs run (handleAcceptMessage cfg conn workerID jobID) s t
  | .staged jobID => Performs run (handleStagedMessage jobID) s t
  | .starting workerID jobID runID => Performs run (handleStartingMessage workerID jobID runID) s t
  | .reject conn jobID => Performs run (handleRejectMessage conn jobID) s t
  | .result conn msg => Performs run (handleResultMessage cfg conn msg) s t
  | .retry jobID =>
    jobID ∈ s.timers ∧ Performs run (retryTimer jobID) { s with timers := s.timers.erase jobID } t
  | .cancel jobID => Performs run (cancelJobByID jobID) s t
  | .saveTask task => t = { s with tasks := s.tasks.put task }
  | .deleteTask name => t = { s with tasks := s.tasks.erase name }

abbrev step : World → Op → World → Prop := stepBy cfg (exec cfg.toStores)

section Mono

variable {cfg : Config} {R R' : ∀ {β : Type}, Call β → World → β → World → Prop} {s t : World}

lemma performs_mono (hR : ∀ {β : Type} {c : Call β} {s b t}, R c s b t → R' c s b t)
    {α : Type} {p : M α} (h : Performs R p s t) : Performs R' p s t :=
  h.imp fun _ ha => ends_mono ha hR

lemma stepBy_mono (hR : ∀ {β : Type} {c : Call β} {s b t}, R c s b t → R' c s b t) {op : Op}
    (h : stepBy cfg R s op t) : stepBy cfg R' s op t := by
  cases op with
  | register | heartbeat | capacity | forget | saveTask | deleteTask => exact h
  | requeue ids => exact ⟨h.1, performs_mono hR h.2⟩
  | retry jobID => exact ⟨h.1, performs_mono hR h.2⟩
  | unregister conn =>
    obtain ⟨w, ids, hw, hids, hp⟩ := h
    exact ⟨w, ids, hw, hids, performs_mono hR hp⟩
  | submit | processQueue | accept | staged | starting | reject | result | cancel =>
    exact performs_mono hR h

end Mono

end Workforce.Operations
