import Workforce.Reservations

/-!
The capacity of a worker, counted at both ends of a connection.

The manager counts what it has assigned, the worker what it has accepted and not released, and
between them are frames. The dispatcher picks the worker, sends the proposal and only then counts
it; a run sends its result and only then releases what it held. Frames are handled by goroutines
of their own, so each of them may be the next.

A proposal, an accepted job, a run and a rejection or result on its way are the stages of a job on
its way through the worker. What is at any stage is paid for in the manager's count, so what the
worker holds fits as long as it holds nothing else: no run whose result has been handled.
-/

namespace Workforce.CapacityProtocol

open Tables Shared WorkerSide Reservations Calls
open Frames (ProposeMessage DispatchMessage)

/-! ### Both ends and the frames between them -/

inductive ToWorker
  | propose (msg : ProposeMessage)
  | dispatch (msg : DispatchMessage Unit)

/-- Where the dispatcher is in `tryProposeJob`. -/
inductive Dispatcher
  | idle | selected (msg : ProposeMessage) | sent (msg : ProposeMessage)

/-- A `runJob` that has not released its task, and whether it has sent its result. -/
structure RunningJob where
  jobID : String
  sent : Bool := false

structure System where
  conn : WorkerConn
  dispatcher : Dispatcher := .idle
  toWorker : List ToWorker := []
  worker : Worker
  runs : List RunningJob := []
  toManager : List Reply := []

/-- The job whose run sends the frame, and whether it is the result. -/
def ofRun : Reply → Option (String × Bool)
  | .starting jobID _ => some (jobID, false)
  | .log jobID _ _ => some (jobID, false)
  | .fetchFailed jobID _ => some (jobID, true)
  | .tmpDirFailed jobID _ _ => some (jobID, true)
  | .taskError jobID _ _ _ _ => some (jobID, true)
  | .subjobs jobID _ _ _ => some (jobID, true)
  | .success jobID _ _ _ => some (jobID, true)
  | _ => none

/-- The job whose capacity is restored by the handler of a frame. -/
def settles : Reply → Option String
  | .reject jobID _ => some jobID
  | r => match ofRun r with
    | some (jobID, true) => some jobID
    | _ => none

def proposal : ToWorker → Option String
  | .propose msg => some msg.JobID
  | .dispatch _ => none

def working (run : RunningJob) : Option String := if run.sent then none else some run.jobID

def pendingIDs (w : Worker) : List String := w.pendingJobs.values.map ProposeMessage.JobID

/-- The jobs that are on their way through the worker. -/
def stages (s : System) : List String :=
  s.toWorker.filterMap proposal ++ (pendingIDs s.worker ++
    (s.runs.filterMap working ++ s.toManager.filterMap settles))

section Steps

variable (cost : String → ℤ)

inductive Label
  /-- `eligibleWorkers` finds the worker for a job that is not on its way already. -/
  | select (msg : ProposeMessage)
  | send
  | assign
  /-- The worker handles one of the frames for it. -/
  | receive (host : Host) (i : ℕ)
  /-- A run sends a frame. -/
  | reports (k : ℕ) (r : Reply)
  | release (k : ℕ)
  /-- The manager handles an acceptance by sending the dispatch. -/
  | accepted (i : ℕ) (msg : DispatchMessage Unit)
  /-- The manager handles a rejection or a result. -/
  | settled (i : ℕ)
  /-- The manager handles a frame that changes no capacity, or cannot handle it. -/
  | ignored (i : ℕ)

/-- What the handlers of rejections and results do with the connection. -/
def settle (c : WorkerConn) (r : Reply) (jobID : String) : WorkerConn :=
  match r with
  | .reject _ _ =>
    { c.CompleteTask jobID (cost jobID) with
      rejectedJobsCache := insert jobID c.rejectedJobsCache }
  | _ => c.CompleteTask jobID (cost jobID)

/-- What the dispatcher does after the send, if there is an error too. -/
def assignTo (c : WorkerConn) (msg : ProposeMessage) : WorkerConn :=
  match c.AssignTask msg.JobID msg.Cost with
  | .ok c' => c'
  | .error _ => c

def receive (s : System) (host : Host) (i : ℕ) : ToWorker → System
  | .propose msg =>
    { s with
      toWorker := s.toWorker.eraseIdx i
      worker := (handlePropose s.worker host msg).1
      toManager := s.toManager ++ [(handlePropose s.worker host msg).2] }
  | .dispatch msg =>
    let handled := handleDispatch s.worker msg
    { s with
      toWorker := s.toWorker.eraseIdx i
      worker := handled.1
      toManager := s.toManager ++ [handled.2.1]
      runs := if handled.2.2.isSome then s.runs ++ [{ jobID := msg.JobID }] else s.runs }

def next (s : System) : Label → Option System
  | .select msg =>
    match s.dispatcher with
    | .idle =>
      if msg.Cost = cost msg.JobID ∧ msg.JobID ∉ stages s ∧ Eligible msg.Cost msg.JobID s.conn then
        some { s with dispatcher := .selected msg }
      else none
    | _ => none
  | .send =>
    match s.dispatcher with
    | .selected msg => some { s with
        dispatcher := .sent msg, toWorker := s.toWorker ++ [.propose msg] }
    | _ => none
  | .assign =>
    match s.dispatcher with
    | .sent msg => some { s with dispatcher := .idle, conn := assignTo s.conn msg }
    | _ => none
  | .receive host i => (s.toWorker[i]?).map (receive s host i)
  | .reports k r =>
    match s.runs[k]?, ofRun r with
    | some run, some (jobID, result) =>
      if run.sent = false ∧ jobID = run.jobID then
        some { s with
          runs := s.runs.set k { run with sent := result }, toManager := s.toManager ++ [r] }
      else none
    | _, _ => none
  | .release k =>
    match s.runs[k]? with
    | some run =>
      if run.sent then
        some { s with runs := s.runs.eraseIdx k, worker := releaseTask s.worker run.jobID }
      else none
    | none => none
  | .accepted i msg =>
    match s.toManager[i]? with
    | some (.accept jobID) =>
      if msg.JobID = jobID then
        some { s with
          toManager := s.toManager.eraseIdx i, toWorker := s.toWorker ++ [.dispatch msg] }
      else none
    | _ => none
  | .settled i =>
    match s.toManager[i]? with
    | some r => (settles r).map fun jobID =>
        { s with toManager := s.toManager.eraseIdx i, conn := settle cost s.conn r jobID }
    | none => none
  | .ignored i =>
    if i < s.toManager.length then some { s with toManager := s.toManager.eraseIdx i } else none

def step (s : System) (l : Label) (t : System) : Prop := next cost s l = some t

/-- A worker and its connection, with the capacity that was declared. -/
def start (conn : WorkerConn) : System where
  conn := { conn with inFlight := ∅, occupiedCost := 0 }
  worker := connected conn.capacity

/-- **No proposal is refused for want of capacity.** -/
def NeverFull (s : System) : Prop := ∀ jobID, Reply.reject jobID .capacity ∉ s.toManager

/-- When the worker handles a proposal, it holds nothing for a run whose result has been handled:
every run that is over but not released has its result still on the way. -/
def Prompt (s : System) : Label → Prop
  | .receive _ i => (∃ msg, s.toWorker[i]? = some (.propose msg)) →
      ∀ run ∈ s.runs, run.sent = true → run.jobID ∈ s.toManager.filterMap settles
  | _ => True

instance (s : System) : (l : Label) → Decidable (Prompt s l)
  | .receive _ i =>
    match h : s.toWorker[i]? with
    | some (.propose msg) =>
      decidable_of_iff (∀ run ∈ s.runs, run.sent = true →
          run.jobID ∈ s.toManager.filterMap settles)
        ⟨fun hall _ => hall, fun hp => hp ⟨msg, h⟩⟩
    | some (.dispatch _) | none => .isTrue fun ⟨_, hp⟩ => nomatch h.symm.trans hp
  | .select _ | .send | .assign | .reports _ _ | .release _ | .accepted _ _ | .settled _
  | .ignored _ => .isTrue trivial

end Steps

/-! ### Stages -/

section Lists

variable {α β : Type} {f : α → Option β} {l : List α} {i : ℕ} {a : α}

lemma perm_filterMap_eraseIdx (h : l[i]? = some a) :
    (l.filterMap f).Perm ((f a).toList ++ (l.eraseIdx i).filterMap f) := by
  obtain ⟨hi, rfl⟩ := List.getElem?_eq_some_iff.mp h
  have hperm := ((List.getElem_cons_eraseIdx_perm hi).filterMap f).symm
  refine hperm.trans (List.Perm.of_eq ?_)
  cases hf : f l[i] <;> simp [hf]

lemma perm_filterMap_set (h : l[i]? = some a) (b : α) :
    ((l.set i b).filterMap f).Perm ((f b).toList ++ (l.eraseIdx i).filterMap f) := by
  obtain ⟨hi, -⟩ := List.getElem?_eq_some_iff.mp h
  refine ((List.set_perm_cons_eraseIdx hi b).filterMap f).trans (List.Perm.of_eq ?_)
  cases hf : f b <;> simp [hf]

lemma map_set_eq {g : α → β} (h : l[i]? = some a) {b : α} (hb : g b = g a) :
    (l.set i b).map g = l.map g := by
  obtain ⟨hi, rfl⟩ := List.getElem?_eq_some_iff.mp h
  refine List.ext_getElem (by simp) fun n _ _ => ?_
  simp only [List.getElem_map, List.getElem_set]
  split_ifs with hn
  · subst hn
    exact hb
  · rfl

end Lists

variable {cost : String → ℤ} {s t : System} {w : Worker} {msg : ProposeMessage} {jobID : String}

lemma pendingIDs_put (h : msg.JobID ∉ pendingIDs w) :
    (w.pendingJobs.put msg).values.map ProposeMessage.JobID = msg.JobID :: pendingIDs w := by
  have hvalues : (w.pendingJobs.put msg).values = msg :: (w.pendingJobs.erase msg.JobID).values :=
    rfl
  rw [hvalues, values_erase_of_none (get_eq_none_iff.mpr h)]
  rfl

lemma pendingIDs_erase (h : w.pendingJobs.get jobID = some msg) :
    (pendingIDs w).Perm
      (jobID :: (w.pendingJobs.erase jobID).values.map ProposeMessage.JobID) := by
  have hperm := (perm_values_erase h).map ProposeMessage.JobID
  rw [List.map_cons, key_of_get h] at hperm
  exact hperm.symm

def taskIDs (w : Worker) : List String := w.tasks.values.map activeTask.JobID

/-! ### The invariant -/

/-- What the dispatcher is about to add to the count. -/
def claimed : Dispatcher → ℤ
  | .idle => 0
  | .selected msg => msg.Cost
  | .sent msg => msg.Cost

/-- What has been sent and not been counted. -/
def unassigned : Dispatcher → ℤ
  | .sent msg => msg.Cost
  | _ => 0

/-- Every message about a job has its cost. -/
structure Priced (cost : String → ℤ) (s : System) : Prop where
  dispatcher : ∀ msg, s.dispatcher = .selected msg ∨ s.dispatcher = .sent msg →
    msg.Cost = cost msg.JobID
  frames : ∀ msg, ToWorker.propose msg ∈ s.toWorker → msg.Cost = cost msg.JobID
  pending : ∀ p ∈ s.worker.pendingJobs.values, p.Cost = cost p.JobID
  tasks : ∀ t ∈ s.worker.tasks.values, t.cost = cost t.JobID

/-- The manager's end: a job is at one stage, and all stages are paid for. -/
structure Charged (cost : String → ℤ) (s : System) : Prop where
  once : (stages s).Nodup
  chosen : ∀ msg, s.dispatcher = .selected msg → msg.JobID ∉ stages s
  paid : ((stages s).map cost).sum ≤ s.conn.occupiedCost + unassigned s.dispatcher
  room : s.conn.occupiedCost + claimed s.dispatcher ≤ s.conn.capacity
  nonneg : 0 ≤ s.conn.occupiedCost

/-- The worker's end: its count is right, and it has a task for every run. -/
structure Held (s : System) : Prop where
  declared : s.worker.Capacity = s.conn.capacity
  counted : Counted s.worker
  costed : Costed s.worker
  running : (taskIDs s.worker).Perm (s.runs.map RunningJob.jobID)
  apart : ∀ id ∈ pendingIDs s.worker, id ∉ s.runs.map RunningJob.jobID

structure Inv (cost : String → ℤ) (s : System) : Prop where
  priced : Priced cost s
  charged : Charged cost s
  held : Held s
  never : NeverFull s

/-! ### What the worker holds is paid for -/

/-- Distinct jobs that are all at some stage cost no more than all stages. -/
lemma sum_le_of_subset (hcost : ∀ id, 0 ≤ cost id) {l l' : List String} (hl : l.Nodup)
    (h : l ⊆ l') : (l.map cost).sum ≤ (l'.map cost).sum := by
  obtain ⟨l'', hperm, hsub⟩ := hl.subperm h
  rw [← (hperm.map cost).sum_eq]
  exact (hsub.map cost).sum_le_sum fun n hn => by
    obtain ⟨id, -, rfl⟩ := List.mem_map.mp hn
    exact hcost id

lemma usedCap_eq (hp : Priced cost s) (h : Held s) : s.worker.usedCap =
    ((pendingIDs s.worker ++ s.runs.map RunningJob.jobID).map cost).sum := by
  have hpending : s.worker.pendingJobs.total ProposeMessage.Cost =
      ((pendingIDs s.worker).map cost).sum := by
    rw [Table.total, pendingIDs, List.map_map]
    exact congrArg List.sum (List.map_congr_left hp.pending)
  have htasks : s.worker.tasks.total activeTask.cost = ((taskIDs s.worker).map cost).sum := by
    rw [Table.total, taskIDs, List.map_map]
    exact congrArg List.sum (List.map_congr_left hp.tasks)
  rw [h.counted.sum, hpending, htasks, (h.running.map cost).sum_eq, List.map_append,
    List.sum_append]

/-- **What fits**: if every run that is over still has its result on the way, there is room for
each proposal that is on the way. -/
lemma fits_of_prompt (hcost : ∀ id, 0 ≤ cost id) (h : Inv cost s)
    (hmem : ToWorker.propose msg ∈ s.toWorker)
    (hprompt : ∀ run ∈ s.runs, run.sent = true → run.jobID ∈ s.toManager.filterMap settles) :
    msg.JobID ∉ pendingIDs s.worker ∧ msg.JobID ∉ s.runs.map RunningJob.jobID ∧
      s.worker.usedCap + msg.Cost ≤ s.worker.Capacity := by
  have honce := h.charged.once
  rw [stages, List.nodup_append'] at honce
  obtain ⟨-, hrest, hdisj⟩ := honce
  have hproposed : msg.JobID ∈ s.toWorker.filterMap proposal :=
    List.mem_filterMap.mpr ⟨_, hmem, rfl⟩
  -- every run is at a stage: it works, or its result is on the way
  have hruns : s.runs.map RunningJob.jobID ⊆
      s.runs.filterMap working ++ s.toManager.filterMap settles := by
    intro id hid
    obtain ⟨run, hrun, rfl⟩ := List.mem_map.mp hid
    rcases hsent : run.sent with _ | _
    · exact List.mem_append_left _ (List.mem_filterMap.mpr ⟨run, hrun, by simp [working, hsent]⟩)
    · exact List.mem_append_right _ (hprompt run hrun hsent)
  have hpending : msg.JobID ∉ pendingIDs s.worker := fun hin =>
    hdisj hproposed (List.mem_append_left _ hin)
  have hrunning : msg.JobID ∉ s.runs.map RunningJob.jobID := fun hin =>
    hdisj hproposed (List.mem_append_right _ (hruns hin))
  refine ⟨hpending, hrunning, ?_⟩
  have hnodup : (msg.JobID :: (pendingIDs s.worker ++ s.runs.map RunningJob.jobID)).Nodup := by
    refine List.nodup_cons.mpr ⟨fun hin => ?_, List.nodup_append'.mpr ⟨?_, ?_, ?_⟩⟩
    · exact (List.mem_append.mp hin).elim hpending hrunning
    · exact (List.nodup_append'.mp hrest).1
    · exact h.held.running.nodup_iff.mp (nodup_keys _)
    · exact h.held.apart
  have hsub : msg.JobID :: (pendingIDs s.worker ++ s.runs.map RunningJob.jobID) ⊆ stages s := by
    refine List.cons_subset.mpr ⟨List.mem_append_left _ hproposed, ?_⟩
    intro id hid
    refine List.mem_append_right _ ?_
    rcases List.mem_append.mp hid with hid | hid
    · exact List.mem_append_left _ hid
    · exact List.mem_append_right _ (hruns hid)
  have hsum := sum_le_of_subset hcost hnodup hsub
  rw [List.map_cons, List.sum_cons, ← usedCap_eq h.priced h.held, ← h.priced.frames msg hmem] at hsum
  have hpaid := h.charged.paid
  have hroom := h.charged.room
  have hle : unassigned s.dispatcher ≤ claimed s.dispatcher := by
    rcases hd : s.dispatcher with _ | m | m
    · exact le_refl 0
    · rw [claimed, h.priced.dispatcher m (.inl hd)]
      exact hcost _
    · exact le_refl _
  rw [h.held.declared]
  omega

/-! ### Jobs that change their stage -/

lemma coe_stages (s : System) : (stages s : Multiset String) =
    (s.toWorker.filterMap proposal : Multiset String) + ((pendingIDs s.worker : Multiset String) +
      ((s.runs.filterMap working : Multiset String) +
        (s.toManager.filterMap settles : Multiset String))) := by
  simp only [stages, Multiset.coe_add]

lemma perm_stages_handled {i : ℕ} {r : Reply} (hr : s.toManager[i]? = some r) : (stages s).Perm
    ((settles r).toList ++ stages { s with toManager := s.toManager.eraseIdx i }) := by
  have hframes := Multiset.coe_eq_coe.mpr (@perm_filterMap_eraseIdx _ _ settles _ _ _ hr)
  rw [← Multiset.coe_add] at hframes
  rw [← Multiset.coe_eq_coe, ← Multiset.coe_add, coe_stages, coe_stages, hframes]
  abel

lemma Charged.same (h : Charged cost s) (hstages : (stages t).Perm (stages s))
    (hdispatcher : t.dispatcher = s.dispatcher) (hconn : t.conn = s.conn) : Charged cost t where
  once := hstages.nodup_iff.mpr h.once
  chosen msg hmsg := fun hin => h.chosen msg (hdispatcher ▸ hmsg) (hstages.subset hin)
  paid := by
    rw [(hstages.map cost).sum_eq, hdispatcher, hconn]
    exact h.paid
  room := by
    rw [hdispatcher, hconn]
    exact h.room
  nonneg := hconn ▸ h.nonneg

/-- A job leaves its stage, and the count goes down by no more than its cost. -/
lemma Charged.leave (h : Charged cost s) (id : String)
    (hstages : (stages s).Perm (id :: stages t)) (hdispatcher : t.dispatcher = s.dispatcher)
    (hcapacity : t.conn.capacity = s.conn.capacity)
    (hlow : s.conn.occupiedCost - cost id ≤ t.conn.occupiedCost)
    (hhigh : t.conn.occupiedCost ≤ s.conn.occupiedCost) (hnonneg : 0 ≤ t.conn.occupiedCost) :
    Charged cost t where
  once := (List.nodup_cons.mp (hstages.nodup_iff.mp h.once)).2
  chosen msg hmsg := fun hin =>
    h.chosen msg (hdispatcher ▸ hmsg) (hstages.symm.subset (List.mem_cons_of_mem _ hin))
  paid := by
    have hpaid := h.paid
    rw [(hstages.map cost).sum_eq, List.map_cons, List.sum_cons] at hpaid
    rw [hdispatcher]
    omega
  room := by
    have hroom := h.room
    rw [hdispatcher, hcapacity]
    omega
  nonneg := hnonneg

end Workforce.CapacityProtocol
