import Workforce.Durability
import Workforce.Registry

/-!
Idle workers: when the monitor reports one, and what it reports.

Whether a worker is idle is read off its capacity and three times. Beside them a run keeps since
when nothing has been in flight on a connection, whether it has been reported since the last
assignment or completion, and the reports.
-/

namespace Workforce.IdleWorkers

open Tables Contract Shared Handlers Registry Runs

/-! ### Model -/

structure Conn where
  w : WorkerConn
  lastIdleAt : Time
  /-- Nothing is the zero time. -/
  lastIdleNotified : Option Time := none
  /-- Since when nothing has been in flight. -/
  emptySince : Option Time := some lastIdleAt
  /-- It has been reported since the last assignment or completion. -/
  reported : Bool := false

def Conn.id (i : Conn) : ConnID := i.w.conn

def Conn.AssignTask (i : Conn) (taskID : String) (cost : ℤ) : Conn :=
  match i.w.AssignTask taskID cost with
  | .error _ => i
  | .ok w => { i with w := w, lastIdleNotified := none, emptySince := none, reported := false }

/-- `restoreCapacity`, with `CompleteTask`. -/
def Conn.restoreCapacity (i : Conn) (taskID : String) (cost : ℤ) (now : Time) : Conn :=
  let w := i.w.CompleteTask taskID cost
  { i with
    w := w
    lastIdleAt := now
    emptySince :=
      if i.w.inFlight = ∅ then i.emptySince else if w.inFlight = ∅ then some now else none
    reported := false }

/-- The callbacks and the address of the connection are left out. -/
structure IdleWorkerEvent where
  WorkerID : String
  IdleDuration : Duration
  OS : String
  Arch : String
  Capacity : ℤ
  ConnectedWorkers : ℕ
  PendingWorkExists : Bool

structure Pool where
  workers : Table Conn.id := Table.empty _
  scaleDownCooldowns : String → Option Time := fun _ => none
  /-- How many workers the round of the monitor has found. -/
  found : ℕ := 0
  /-- The reports, with the times of their rounds. -/
  events : List (Time × IdleWorkerEvent) := []
  clock : Time

structure Options where
  idleThreshold : Duration
  scaleDownCooldown : Duration
  hasPendingForPlatform : String → String → Bool

variable (opts : Options)

/-- What the monitor asks of a worker before it reports it. -/
def Due (s : Pool) (i : Conn) (now : Time) : Prop :=
  0 < opts.idleThreshold ∧
    ¬(i.w.AvailableCapacity < i.w.capacity ∨ i.w.state ≠ .online) ∧
    ¬now - i.lastIdleAt < opts.idleThreshold ∧
    ¬(∃ n ∈ i.lastIdleNotified, i.lastIdleAt < n) ∧
    ¬∃ last ∈ s.scaleDownCooldowns i.w.workerID, now - last < opts.scaleDownCooldown

instance (s : Pool) (i : Conn) (now : Time) : Decidable (Due opts s i now) :=
  inferInstanceAs (Decidable (_ ∧ _ ∧ _ ∧ _ ∧ _))

/-- The event about a worker, at the time `later` of the clock. -/
def event (s : Pool) (i : Conn) (later : Time) : IdleWorkerEvent where
  WorkerID := i.w.workerID
  IdleDuration := later - i.lastIdleAt
  OS := i.w.os
  Arch := i.w.arch
  Capacity := i.w.capacity
  ConnectedWorkers := s.found
  PendingWorkExists := opts.hasPendingForPlatform i.w.os i.w.arch

/-- A worker's turn in a round of `StaleWorkerMonitoringService` that began at `now`. -/
def visit (s : Pool) (conn : ConnID) (now later : Time) : Pool :=
  match s.workers.get conn with
  | none => s
  | some i =>
    if Due opts s i now then
      { s with
        workers := s.workers.put { i with lastIdleNotified := some later, reported := true }
        scaleDownCooldowns := Function.update s.scaleDownCooldowns i.w.workerID (some now)
        events := (now, event opts s i later) :: s.events }
    else s

inductive Op
  /-- `NewWorkerConn`. -/
  | connect (conn : ConnID) (workerID os arch : String) (capacity : ℤ)
  | assign (conn : ConnID) (taskID : String) (cost : ℤ)
  | complete (conn : ConnID) (taskID : String) (cost : ℤ)
  /-- A round lists the workers, then takes them in turn. -/
  | round
  | visit (conn : ConnID) (later : Time)

def perform (s : Pool) (now : Time) : Op → Pool
  | .connect conn workerID os arch capacity =>
    { s with
      workers := s.workers.put
        { w := { conn := conn, workerID := workerID, os := os, arch := arch, capacity := capacity }
          lastIdleAt := now } }
  | .assign conn taskID cost =>
    { s with workers := s.workers.modify conn fun i => i.AssignTask taskID cost }
  | .complete conn taskID cost =>
    { s with workers := s.workers.modify conn fun i => i.restoreCapacity taskID cost now }
  | .round => { s with found := s.workers.values.length }
  | .visit conn later => visit opts s conn now later

/-- Within a turn the clock does not go back. -/
def Op.Timely (now : Time) : Op → Prop
  | .visit _ later => now ≤ later
  | _ => True

/-- Nor does it from one step to the next. -/
def step (s : Pool) (a : Time × Op) (t : Pool) : Prop :=
  s.clock ≤ a.1 ∧ a.2.Timely a.1 ∧ t = { perform opts s a.1 a.2 with clock := a.1 }

/-! ### Runs -/

structure Good (clock : Time) (i : Conn) : Prop where
  past : i.lastIdleAt ≤ clock
  empty : i.w.inFlight = ∅ → ∃ since ∈ i.emptySince, since ≤ i.lastIdleAt
  reported : i.reported = true → ∃ n ∈ i.lastIdleNotified, i.lastIdleAt < n

structure Sound (s : Pool) : Prop where
  good : ∀ conn i, s.workers.get conn = some i → Good s.clock i
  spaced : ∀ e ∈ s.events, e.1 ≤ s.clock ∧
    ∃ last ∈ s.scaleDownCooldowns e.2.WorkerID, e.1 ≤ last

variable {opts} {s t : Pool} {i : Conn} {conn : ConnID} {taskID : String} {cost : ℤ}
  {clock now : Time}

lemma Good.later (h : Good clock i) (hnow : clock ≤ now) : Good now i :=
  ⟨h.past.trans hnow, h.empty, h.reported⟩

lemma Good.assign (h : Good clock i) : Good clock (i.AssignTask taskID cost) := by
  unfold Conn.AssignTask
  split
  · exact h
  · next w hw =>
    rw [WorkerConn.eq_of_AssignTask hw]
    exact ⟨h.past, fun hempty => absurd hempty (Finset.insert_ne_empty _ _), nofun⟩

lemma Good.restore (h : Good clock i) (hnow : clock ≤ now) :
    Good now (i.restoreCapacity taskID cost now) := by
  refine ⟨le_rfl, fun hempty => ?_, nofun⟩
  unfold Conn.restoreCapacity at hempty ⊢
  by_cases hbefore : i.w.inFlight = ∅
  · obtain ⟨since, hsince, hle⟩ := h.empty hbefore
    exact ⟨since, by simpa [hbefore] using hsince, hle.trans (h.past.trans hnow)⟩
  · exact ⟨now, by simpa [hbefore] using hempty, le_rfl⟩

/-- What the monitor has found of a worker it reports, if what is in flight takes capacity. -/
lemma empty_of_due (hgood : Good clock i) (hdue : Due opts s i now)
    (hcost : i.w.inFlight ≠ ∅ → 0 < i.w.occupiedCost) :
    i.w.inFlight = ∅ ∧ (∃ since ∈ i.emptySince, opts.idleThreshold ≤ now - since) := by
  obtain ⟨-, havail, hlong, -⟩ := hdue
  have hempty : i.w.inFlight = ∅ := by
    by_contra hne
    have hpos := hcost hne
    refine havail (.inl ?_)
    unfold WorkerConn.AvailableCapacity
    omega
  obtain ⟨since, hsince, hle⟩ := hgood.empty hempty
  exact ⟨hempty, since, hsince, by linarith⟩

lemma Good.report (h : Good clock i) (hdue : Due opts s i now) {later : Time}
    (hlater : now ≤ later) :
    Good clock { i with lastIdleNotified := some later, reported := true } := by
  obtain ⟨hpos, -, hlong, -⟩ := hdue
  exact ⟨h.past, h.empty, fun _ => ⟨later, rfl, by linarith⟩⟩

lemma Sound.later (hs : Sound s) (hnow : s.clock ≤ now) : Sound { s with clock := now } :=
  ⟨fun c i hi => (hs.good c i hi).later hnow,
    fun e he => ⟨(hs.spaced e he).1.trans hnow, (hs.spaced e he).2⟩⟩

lemma sound_modify {f : Conn → Conn} (hs : Sound s) (hnow : s.clock ≤ now)
    (hf : ∀ i, (f i).id = i.id) (hgood : ∀ i, Good s.clock i → Good now (f i)) :
    Sound { s with workers := s.workers.modify conn f, clock := now } := by
  refine ⟨fun c i hi => ?_, (hs.later hnow).spaced⟩
  rw [get_modify _ _ _ hf] at hi
  split_ifs at hi with hc
  · obtain ⟨j, hj, rfl⟩ := Option.map_eq_some_iff.mp hi
    exact hgood j (hs.good _ j hj)
  · exact (hs.good c i hi).later hnow

lemma sound_visit (hs : Sound s) {later : Time} (hnow : s.clock ≤ now) (hlater : now ≤ later) :
    Sound { visit opts s conn now later with clock := now } := by
  have hsame := hs.later hnow
  unfold visit
  split
  · exact hsame
  next i hi =>
  split_ifs with hdue
  · refine ⟨fun c j hj => ?_, fun e he => ?_⟩
    · rw [get_put] at hj
      split_ifs at hj with hc
      · cases hj
        exact ((hs.good conn i hi).report hdue hlater).later hnow
      · exact hsame.good c j hj
    · rcases List.mem_cons.mp he with rfl | he
      · exact ⟨le_rfl, now, by simp [event], le_rfl⟩
      · obtain ⟨hle, last, hlast, hspaced⟩ := hsame.spaced e he
        refine ⟨hle, ?_⟩
        by_cases hid : e.2.WorkerID = i.w.workerID
        · exact ⟨now, by simp [hid], hle⟩
        · exact ⟨last, by simpa [hid] using hlast, hspaced⟩
  · exact hsame

lemma sound_step {a : Time × Op} (hs : Sound s) (h : step opts s a t) : Sound t := by
  obtain ⟨now, op⟩ := a
  obtain ⟨hnow, hlater, rfl⟩ := h
  cases op with
  | connect conn workerID os arch capacity =>
    refine ⟨fun c i hi => ?_, (hs.later hnow).spaced⟩
    rw [perform, get_put] at hi
    split_ifs at hi with hc
    · cases hi
      exact ⟨le_rfl, fun _ => ⟨now, rfl, le_rfl⟩, nofun⟩
    · exact (hs.good c i hi).later hnow
  | assign conn taskID cost =>
    refine sound_modify hs hnow (fun i => ?_) fun i hi => hi.assign.later hnow
    unfold Conn.AssignTask
    split
    · rfl
    · next w hw =>
      rw [WorkerConn.eq_of_AssignTask hw]
      rfl
  | complete conn taskID cost =>
    exact sound_modify hs hnow (fun _ => rfl) fun i hi => hi.restore hnow
  | round => exact ⟨(hs.later hnow).good, (hs.later hnow).spaced⟩
  | visit conn later => exact sound_visit hs hnow hlater

/-- Whatever is in flight on the connection the monitor turns to takes some of its capacity. -/
def Accounted (s : Pool) : Time × Op → Prop
  | (_, .visit conn _) => ∀ i ∈ s.workers.get conn, i.w.inFlight ≠ ∅ → 0 < i.w.occupiedCost
  | _ => True

/-- **Idle workers.** In a run in which what is in flight takes capacity whenever the monitor
looks, a worker is reported only if nothing has been in flight for the threshold, if it has not
been reported since the last assignment or completion, and if the cooldown has passed since every
report of the same worker. -/
theorem idle_of_due {tr : List (Pool × Time × Op)} (h : Run (step opts) { clock := clock } tr t)
    (hcost : Meets Accounted tr) {later : Time} (hvisit : (s, now, .visit conn later) ∈ tr)
    (hi : s.workers.get conn = some i) (hdue : Due opts s i now) :
    i.w.inFlight = ∅ ∧ (∃ since ∈ i.emptySince, opts.idleThreshold ≤ now - since) ∧
      i.reported = false ∧
      ∀ e ∈ s.events, e.2.WorkerID = i.w.workerID → opts.scaleDownCooldown ≤ now - e.1 := by
  have hsound : Sound s := h.invariant (G := fun _ _ => True)
    (fun _ _ _ hI _ hs => sound_step hI hs) (fun _ _ => trivial)
    ⟨nofun, nofun⟩ s (Run.mem_states hvisit)
  have hgood := hsound.good conn i hi
  obtain ⟨hempty, hsince⟩ := empty_of_due hgood hdue (hcost _ hvisit i hi)
  obtain ⟨-, -, -, hnew, hcool⟩ := hdue
  refine ⟨hempty, hsince, ?_, fun e he hid => ?_⟩
  · by_contra hreported
    exact hnew (hgood.reported (Bool.not_eq_false _ ▸ hreported))
  · obtain ⟨-, last, hlast, hle⟩ := hsound.spaced e he
    by_contra hlt
    exact hcool ⟨last, hid ▸ hlast, by linarith⟩

def prompt : Options :=
  { idleThreshold := 10, scaleDownCooldown := 5, hasPendingForPlatform := fun _ _ => false }

def after (s : Pool) (a : Time × Op) : Pool := { perform prompt s a.1 a.2 with clock := a.1 }

def connected : Pool := after { clock := 0 } (0, .connect 0 "w" "linux" "arm64" 1)

def assigned (cost : ℤ) : Pool := after connected (0, .assign 0 "j" cost)

lemma assigned_run (cost : ℤ) : Run (step prompt) { clock := 0 }
    [({ clock := 0 }, 0, .connect 0 "w" "linux" "arm64" 1), (connected, 0, .assign 0 "j" cost)]
    (assigned cost) :=
  .cons ⟨le_rfl, trivial, rfl⟩ (.cons ⟨le_rfl, trivial, rfl⟩ (.nil _))

theorem due_in_flight :
    ∃ (s t : Pool) (tr : List (Pool × Time × Op)) (i : Conn) (now later : Time),
      Run (step prompt) { clock := 0 } tr t ∧ (s, now, .visit 0 later) ∈ tr ∧
        s.workers.get 0 = some i ∧ Due prompt s i now ∧ i.w.inFlight ≠ ∅ := by
  have hvisit : Run (step prompt) (assigned 0) [(assigned 0, 10, .visit 0 10)] _ :=
    .cons ⟨by decide, le_rfl, rfl⟩ (.nil _)
  exact ⟨assigned 0, _, _, _, 10, 10, (assigned_run 0).append hvisit, List.mem_append_right _
    List.mem_cons_self, rfl, by decide, by decide⟩

def ended : Pool := after (assigned 1) (5, .complete 0 "j" 1)

def listed : Pool := after ended (15, .round)

theorem idle_of_due_ended :
    ∃ i, listed.workers.get 0 = some i ∧ i.w.inFlight = ∅ ∧
      (∃ since ∈ i.emptySince, prompt.idleThreshold ≤ 15 - since) ∧ i.reported = false ∧
      ∀ e ∈ listed.events, e.2.WorkerID = i.w.workerID → prompt.scaleDownCooldown ≤ 15 - e.1 := by
  have hrest : Run (step prompt) (assigned 1)
      [(assigned 1, 5, .complete 0 "j" 1), (ended, 15, .round), (listed, 15, .visit 0 15)] _ :=
    .cons ⟨by decide, trivial, rfl⟩ (.cons ⟨by decide, trivial, rfl⟩
      (.cons ⟨le_rfl, le_rfl, rfl⟩ (.nil _)))
  refine ⟨_, rfl, idle_of_due ((assigned_run 1).append hrest) ?_
    (List.mem_append_right _ (.tail _ (.tail _ (.head _)))) rfl (by decide)⟩
  simp only [List.cons_append, List.nil_append, meets_cons]
  refine ⟨trivial, trivial, trivial, trivial, ?_, meets_nil⟩
  rintro i ⟨⟩ hne
  exact absurd rfl hne

/-! ### Pending work -/

section Pending

variable (cfg : Config) (reg : Artifacts) (queue : List Job) (os arch : String)

def HasPendingForPlatform : Bool :=
  let taskNames := (queue.map Job.TaskName).dedup
  if !cfg.hasRegistry then decide (0 < taskNames.length)
  else
    let target := platformKey os arch
    taskNames.any fun taskName =>
      match reg.ListPlatforms taskName "" with
      | .error _ => false
      | .ok platforms => platforms.any fun p => platformKey p.OS p.Arch = target

/-- The platform is among those of a version, or of the latest release if none is named. -/
def Offers (task version : String) : Prop :=
  ∃ keys, reg.keys task version = .ok keys ∧ platformKey os arch ∈ keys

/-- Where the dispatcher would let the job run. -/
def CouldRun (job : Job) : Prop :=
  cfg.hasRegistry = true → Offers reg os arch job.TaskName job.ArtifactVersion

/-- The version a job names is built for the platform just if the latest release of its task is. -/
def Indifferent : Prop :=
  ∀ job ∈ queue, job.ArtifactVersion ≠ "" →
    (Offers reg os arch job.TaskName job.ArtifactVersion ↔ Offers reg os arch job.TaskName "")

variable {cfg reg queue os arch}

lemma offers_iff {task version : String} : Offers reg os arch task version ↔
    ∃ platforms, reg.ListPlatforms task version = .ok platforms ∧
      ∃ p ∈ platforms, platformKey p.OS p.Arch = platformKey os arch := by
  unfold Offers Artifacts.keys
  cases reg.ListPlatforms task version <;> simp

lemma hasPending_iff (hreg : cfg.hasRegistry = true) :
    HasPendingForPlatform cfg reg queue os arch = true ↔
      ∃ job ∈ queue, Offers reg os arch job.TaskName "" := by
  simp only [HasPendingForPlatform, hreg, offers_iff, List.any_eq_true, List.mem_dedup,
    List.mem_map, exists_exists_and_eq_and, Bool.not_true, Bool.false_eq_true, if_false]
  refine exists_congr fun job => and_congr_right fun _ => ?_
  cases reg.ListPlatforms job.TaskName "" <;> simp

lemma hasPending_of_no_registry (hreg : cfg.hasRegistry ≠ true) :
    HasPendingForPlatform cfg reg queue os arch = true ↔
      ∃ job ∈ queue, CouldRun cfg reg os arch job := by
  have hany (job : Job) : CouldRun cfg reg os arch job := fun h => absurd h hreg
  simp only [HasPendingForPlatform, hreg, hany, and_true, Bool.not_false, if_true,
    decide_eq_true_eq, List.length_pos_iff_exists_mem, List.mem_dedup, List.mem_map]
  exact ⟨fun ⟨_, job, hjob, _⟩ => ⟨job, hjob⟩, fun ⟨job, hjob⟩ => ⟨_, job, hjob, rfl⟩⟩

lemma pending_of_indifferent (h : cfg.hasRegistry = true → Indifferent reg queue os arch) :
    HasPendingForPlatform cfg reg queue os arch = true ↔
      ∃ job ∈ queue, CouldRun cfg reg os arch job := by
  by_cases hreg : cfg.hasRegistry = true
  · rw [hasPending_iff hreg]
    refine exists_congr fun job => and_congr_right fun hjob => ?_
    rw [CouldRun, forall_prop_of_true hreg]
    by_cases hpin : job.ArtifactVersion = ""
    · rw [hpin]
    · exact (h hreg job hjob hpin).symm
  · exact hasPending_of_no_registry hreg

/-- **Pending work.** What the manager says of a platform agrees with what the dispatcher would
do, for the queue and every part of it, exactly when each version that a queued job names is built
for the platform just if the latest release is; a report that there is no pending work can then be
relied on. -/
theorem pendingWork_iff_indifferent (cfg : Config) (reg : Artifacts) (queue : List Job)
    (os arch : String) :
    ((∀ part ⊆ queue, HasPendingForPlatform cfg reg part os arch = true ↔
          ∃ job ∈ part, CouldRun cfg reg os arch job) ↔
        (cfg.hasRegistry = true → Indifferent reg queue os arch)) ∧
      ((cfg.hasRegistry = true → Indifferent reg queue os arch) →
        ∀ (opts : Options) (s : Pool) (i : Conn) (later : Time), i.w.os = os → i.w.arch = arch →
          opts.hasPendingForPlatform = HasPendingForPlatform cfg reg queue →
          (event opts s i later).PendingWorkExists = false →
            ∀ job ∈ queue, ¬CouldRun cfg reg os arch job) := by
  refine ⟨⟨fun h hreg job hjob _ => ?_, fun h part hpart => ?_⟩, ?_⟩
  · -- a queue of this job alone
    have halone := h [job] (List.cons_subset.mpr ⟨hjob, List.nil_subset _⟩)
    simpa [hasPending_iff hreg, CouldRun, hreg] using halone.symm
  · exact pending_of_indifferent fun hreg job hjob => h hreg job (hpart hjob)
  · rintro h opts s i later rfl rfl hopts hnone job hjob hcould
    have hsome := (pending_of_indifferent h).mpr ⟨job, hjob, hcould⟩
    have hevent : (event opts s i later).PendingWorkExists = true := by
      rw [event, hopts, hsome]
    exact Bool.false_ne_true (hnone.symm.trans hevent)

end Pending

/-- The answers of a registry in a directory. -/
def answers (r : FsRegistry.Registry) : Artifacts where
  ListPlatforms task version := .ok ((FsRegistry.ListPlatforms Durability.demo r task version).map
    fun p => ⟨p.OS, p.Arch, p.Version, p.Hash, p.URL, p.Dependencies⟩)
  Resolve _ _ _ _ := .error "not asked for"

/-- A release for one platform, and a newer version for another that is not released yet. -/
def mixed : FsRegistry.Registry where
  disk := Table.empty _
  versions := AList.singleton "t"
    [{ Artifact := "t", Version := "2", PreRelease := true
       Platforms := [⟨"t", "2", "darwin", "arm64", "h", 1, [], ""⟩] },
     { Artifact := "t", Version := "1"
       Platforms := [⟨"t", "1", "linux", "amd64", "h", 1, [], ""⟩] }]

/-- A job that names the newer version is not counted for the platform it is built for. -/
theorem pinned_not_pending :
    HasPendingForPlatform .defaults (answers mixed)
        [{ ID := "j", TaskName := "t", ArtifactVersion := "2" }] "darwin" "arm64" = false ∧
      CouldRun .defaults (answers mixed) "darwin" "arm64"
        { ID := "j", TaskName := "t", ArtifactVersion := "2" } :=
  ⟨by decide, fun _ => ⟨["darwin/arm64"], by decide, by decide⟩⟩

end Workforce.IdleWorkers
