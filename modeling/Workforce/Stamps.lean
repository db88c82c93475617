import Workforce.Origins
import Workforce.Recovery
import Workforce.Pass

/-!
The time stamps of a job that has ended.

`CompletedAt` and `Duration` are documented as set once, on the transition to a terminal status,
and nil while the job is in progress. Most of the callbacks that end a job write both; the direct
failure writes neither. None of the callbacks that put a job back in progress clears them. So the
stamps are right as long as no pass fails a job directly and nothing that would put a job back in
progress comes after its end.
-/

namespace Workforce.Stamps

open Tables Contract Progs Shared Calls Handlers Dispatcher Footprints Runs Operations Origins Pass
open Terminal (InProgress)
open Recovery hiding InProgress

variable {cfg : Config} {s t : World} {j : Job} {β : Type}

/-! ### The law -/

/-- The stamps are there exactly when the job has ended, and agree with each other. -/
structure Stamped (j : Job) : Prop where
  completedAt : j.CompletedAt.isSome ↔ j.Status.IsTerminal
  duration : j.Duration = j.CompletedAt.map fun ended => ended - j.CreatedAt

def AllStamped (s : World) : Prop := ∀ id j, s.jobs.get id = some j → Stamped j

lemma AllStamped.congr (hs : AllStamped s) (h : t.jobs = s.jobs) : AllStamped t := by
  intro id j hj
  rw [h] at hj
  exact hs id j hj

lemma allStamped_initial : AllStamped World.initial := by
  intro id j hj
  cases hj

lemma not_terminal_pending : ¬JobStatus.pending.IsTerminal := by decide

lemma stamped_of_new (h : New j) : Stamped j where
  completedAt := by simp [h.CompletedAt, h.Status, not_terminal_pending]
  duration := by rw [h.CompletedAt, h.Duration, Option.map_none]

/-! ### One callback -/

def stamps : JobMutation → Bool
  | .completed _ | .failed | .failedFor _ | .cancelled => true
  | _ => false

variable {m : JobMutation}

lemma stamped_of_stamps (h : stamps m = true) (now : Time) (j : Job) : Stamped (m.apply now j) := by
  cases m <;> first
    | exact absurd h Bool.false_ne_true
    | exact ⟨iff_of_true rfl (by simp [JobMutation.apply, JobStatus.IsTerminal]), rfl⟩

/-- The other callbacks leave the stamps as they are. -/
lemma stamps_kept (h : stamps m = false) (now : Time) (j : Job) :
    (m.apply now j).CompletedAt = j.CompletedAt ∧ (m.apply now j).Duration = j.Duration ∧
      (m.apply now j).CreatedAt = j.CreatedAt := by
  cases m with
  | consolidate =>
    simp only [JobMutation.apply]
    split_ifs <;> exact ⟨rfl, rfl, rfl⟩
  | completed | failed | failedFor | cancelled => cases h
  | _ => exact ⟨rfl, rfl, rfl⟩

/-- The callback does not write a status without the stamps that belong to it: a terminal one
only with them, any other only to a job in progress. -/
def Fits (m : JobMutation) (j : Job) : Prop :=
  stamps m = true ∨ ∀ st, m.writes = some st → ¬st.IsTerminal ∧ ¬j.Status.IsTerminal

/-- **One callback** that fits the job keeps its stamps right. -/
lemma stamped_apply (hj : Stamped j) (hm : Fits m j) (now : Time) : Stamped (m.apply now j) := by
  rcases hst : stamps m with _ | _
  · obtain ⟨hcompleted, hduration, hcreated⟩ := stamps_kept hst now j
    have hsame : (m.apply now j).Status.IsTerminal ↔ j.Status.IsTerminal := by
      rcases hw : m.writes with _ | st
      · have hsame := @JobMutation.apply_terminal m now j hw
        exact ⟨fun h => hsame (.inr h) ▸ h, fun h => (hsame (.inl h)).symm ▸ h⟩
      · obtain ⟨hnew, hold⟩ := hm.resolve_left (by simp [hst]) st hw
        rw [JobMutation.apply_of_writes hw]
        exact iff_of_false hnew hold
    refine ⟨?_, ?_⟩
    · rw [hcompleted, hj.completedAt, hsame]
    · rw [hduration, hcompleted, hcreated, hj.duration]
  · exact stamped_of_stamps hst now j

/-! ### Programs -/

lemma allStamped_modify {id : String} {now : Time} (hs : AllStamped s)
    (hm : ∀ j, s.jobs.get id = some j → Fits m j) (h : t.jobs = s.jobs.modify id (m.apply now)) :
    AllStamped t := by
  intro k j hj
  rw [h, get_modify _ _ _ (m.apply_ID now)] at hj
  split_ifs at hj
  · obtain ⟨i, hi, rfl⟩ := Option.map_eq_some_iff.mp hj
    exact stamped_apply (hs id i hi) (hm i hi) now
  · exact hs k j hj

/-- The stamps are right, and these jobs are in progress. -/
def Right (J : Set String) (s : World) : Prop := AllStamped s ∧ ∀ id ∈ J, InProgress s id

/-- A call that assigns a status in progress to one of the jobs `J` only, and ends none of them;
it ends other jobs with their stamps, and stores a job only as new. -/
def Lawful (J : Set String) : {β : Type} → Call β → Prop
  | _, .updateJob id m => m.writes = none ∨ (id ∉ J ∧ stamps m = true) ∨
      id ∈ J ∧ ∀ st, m.writes = some st → ¬st.IsTerminal
  | _, .updateJobFiring id _ => id ∉ J
  | _, .saveJob job => New job
  | _, _ => True

variable {J : Set String}

lemma lawful_call (c : Call β) (hc : Quiet c) : Lawful J c := by
  cases c with
  | updateJob | updateJobFiring | saveJob => exact hc.elim
  | _ => trivial

lemma inProgress_modify {id : String} {now : Time} (hs : ∀ id ∈ J, InProgress s id)
    (hm : id ∈ J → ∀ st, m.writes = some st → ¬st.IsTerminal)
    (h : t.jobs = s.jobs.modify id (m.apply now)) : ∀ id ∈ J, InProgress t id := by
  intro k hk j hj
  rw [h, get_modify _ _ _ (m.apply_ID now)] at hj
  split_ifs at hj with he
  · subst he
    obtain ⟨i, hi, rfl⟩ := Option.map_eq_some_iff.mp hj
    rcases hw : m.writes with _ | st
    · exact fun h => hs k hk i hi (JobMutation.apply_terminal hw (.inr h) ▸ h)
    · rw [JobMutation.apply_of_writes hw]
      exact hm hk st hw
  · exact hs k hk j hj

/-- **One call.** -/
theorem right_call {st : Stores} {c : Call β} {b : β} (hc : Lawful J c) (hs : Right J s)
    (h : exec st c s b t) : Right J t := by
  cases c with
  | updateJob id m =>
    obtain ⟨now, -, rfl⟩ := h
    refine ⟨allStamped_modify hs.1 (fun j hj => ?_) rfl, inProgress_modify hs.2 (fun hid st hw => ?_)
      rfl⟩
    · rcases hc with hw | ⟨-, hm⟩ | ⟨hid, hm⟩
      · exact .inr fun st hst => absurd (hw.symm.trans hst) nofun
      · exact .inl hm
      · exact .inr fun st hst => ⟨hm st hst, hs.2 id hid j hj⟩
    · rcases hc with hw' | ⟨hid', -⟩ | ⟨-, hm⟩
      · exact absurd (hw'.symm.trans hw) nofun
      · exact absurd hid hid'
      · exact hm st hw
  | updateJobFiring id reason =>
    obtain ⟨-, -, rfl⟩ | ⟨now, issued, webhooks, -, -, -, rfl⟩ := exec_updateJobFiring h
    · exact hs
    · exact ⟨allStamped_modify (m := .failedFor reason) hs.1 (fun _ _ => .inl rfl) rfl,
        inProgress_modify (m := .failedFor reason) hs.2 (fun hid => absurd hid hc) rfl⟩
  | saveJob job =>
    rcases h with ⟨-, rfl⟩ | ⟨-, rfl⟩
    · refine ⟨fun id j hj => ?_, fun id hid j hj => ?_⟩
      all_goals
        rw [get_put] at hj
        split_ifs at hj
      · cases hj
        exact stamped_of_new hc
      · exact hs.1 id j hj
      · cases hj
        exact hc.Status ▸ not_terminal_pending
      · exact hs.2 id hid j hj
    · exact hs
  | _ =>
    have hjobs := (jobs_unchanged (by exact id) h).1
    exact ⟨hs.1.congr hjobs, fun id hid j hj => hs.2 id hid j (hjobs ▸ hj)⟩

/-- **Programs** of such calls. -/
theorem right_ends {α : Type} {p : M α} {a : α} (hp : p.Uses (Lawful J)) (hs : Right J s)
    (h : Prog.Ends (exec cfg.toStores) p s a t) : Right J t := by
  refine wp_sound (A := fun _ _ => True) (Q := fun _ t => Right J t) ?_ h
  exact wp_invariant (I := Right J) (fun hc hs => ⟨trivial, fun _ _ h => right_call hc hs h⟩) hp hs
    fun _ _ h => h

lemma right_none (hs : AllStamped s) : Right ∅ s := ⟨hs, fun _ h => h.elim⟩

lemma right_one {id : String} (hs : AllStamped s) (hid : InProgress s id) : Right {id} s :=
  ⟨hs, by rintro _ rfl; exact hid⟩

lemma lawful_one {id : String} {st : JobStatus} (hw : m.writes = some st) (hst : ¬st.IsTerminal) :
    Lawful {id} (.updateJob id m) :=
  .inr (.inr ⟨rfl, fun _ h => Option.some.inj (hw.symm.trans h) ▸ hst⟩)

lemma lawful_stamps {id : String} (hm : stamps m = true) : Lawful ∅ (.updateJob id m) :=
  .inr (.inl ⟨Set.notMem_empty id, hm⟩)

/-! ### The handlers -/

section Handlers

variable {w : ConnID} {jobID : String} {msg : ResultMessage}

lemma inProgress_of_get (hj : s.jobs.get jobID = some j) (hterm : ¬j.Status.IsTerminal) :
    InProgress s jobID := by
  intro j' hj'
  cases hj.symm.trans hj'
  exact hterm

lemma stamped_starting {workerID runID : String} (hs : AllStamped s) (hid : InProgress s jobID)
    (h : Prog.Ends (exec cfg.toStores) (handleStartingMessage workerID jobID runID) s () t) :
    AllStamped t := by
  obtain ⟨job, u, ⟨hj, rfl⟩, h⟩ := ends_step.mp h
  cases job with
  | none =>
    obtain ⟨-, rfl⟩ := h
    exact hs
  | some job =>
    obtain rfl : job.ID = jobID := key_of_get hj.symm
    obtain ⟨b, v, hv, h⟩ := ends_step.mp h
    refine (right_ends (J := ∅) ?_ (right_none ((right_call (lawful_one rfl (by decide))
      (right_one hs hid) hv).1)) h).1
    refine uses_bind _ (uses_mono lawful_call (quiet_resolveRunID _ _)) fun _ => ?_
    split_ifs
    · exact uses_step trivial fun _ => uses_mono lawful_call (quiet_enqueue _ _ _)
    · exact uses_mono lawful_call (quiet_enqueue _ _ _)

/-- The timer looks at the job before it puts it back. -/
lemma stamped_retry (hs : AllStamped s)
    (h : Prog.Ends (exec cfg.toStores) (retryTimer jobID) s () t) : AllStamped t := by
  obtain ⟨job, u, ⟨hj, rfl⟩, h⟩ := ends_step.mp h
  cases job with
  | none =>
    obtain ⟨-, rfl⟩ := h
    exact hs
  | some job =>
    dsimp only at h
    split_ifs at h with hterm
    · obtain ⟨-, rfl⟩ := h
      exact hs
    · exact (right_ends (uses_step (lawful_one (m := .pending) rfl (by decide)) fun _ =>
        uses_lift (by trivial)) (right_one hs (inProgress_of_get hj.symm hterm)) h).1

/-- So does the handler of an emission, before it makes the job wait. -/
lemma wp_emitted {parent : Job} {reqs : List ChildJobRequest} (hs : AllStamped s)
    (hid : ¬parent.Status.IsTerminal → InProgress s parent.ID) :
    Prog.wp (exec cfg.toStores) (fun _ _ => True) (handleSubjobsEmitted cfg parent reqs)
      (fun _ t => AllStamped t) s := by
  unfold handleSubjobsEmitted
  split_ifs with hterm
  · exact hs
  refine wp_step trivial ?_
  rintro start _ rfl
  refine (wp_bind _ _ _ _).mpr (wp_createChildren cfg (I := fun _ x => Right {parent.ID} x)
    (F := fun x => AllStamped x) ?_ ?_ (fun h => h.1) ?_ ?_ (right_one hs (hid hterm)))
  · exact fun hc hx => ⟨trivial, fun b y hy => right_call (lawful_call _ (quiet_of_looks hc)) hx hy⟩
  · refine fun hx => ⟨trivial, fun id y hy child _ _ hnew => ⟨trivial, fun r z hz => ?_⟩⟩
    have hz' : Right {parent.ID} z := right_call (c := .saveJob child) hnew
      (right_call (c := .ulidMake) trivial hx hy) hz
    split_ifs
    · exact hz'
    · exact hz'.1
  · refine fun {reason _} hx => ⟨trivial, fun b y hy _ => ?_⟩
    exact (right_call (c := .updateJobFiring parent.ID reason) (J := ∅) not_false
      (right_none hx) hy).1
  · intro children x hx _
    refine wp_invariant (φ := Lawful {parent.ID}) (I := Right {parent.ID})
      (fun hc hs => ⟨trivial, fun _ _ h => right_call hc hs h⟩) ?_ hx fun _ _ h => h.1
    refine uses_step (lawful_one rfl (by decide)) fun updated => ?_
    split_ifs
    · trivial
    · exact uses_bind _ (uses_EnqueueJobs (fun _ => trivial) _) fun _ => trivial

lemma stamped_result (hs : AllStamped s)
    (h : Prog.Ends (exec cfg.toStores) (handleResultMessage cfg w msg) s () t) : AllStamped t := by
  obtain ⟨job, u, ⟨hj, rfl⟩, h⟩ := ends_step.mp h
  have hlawful {p : M Unit} {s : World} (hs : AllStamped s) (hp : p.Uses (Lawful ∅))
      (h : Prog.Ends (exec cfg.toStores) p s () t) : AllStamped t :=
    (right_ends hp (right_none hs) h).1
  cases job with
  | none => exact hlawful hs (uses_mono lawful_call (quiet_SendError _ _ _)) h
  | some job =>
    dsimp only at h
    split at h
    · exact hlawful hs (uses_handleJobError lawful_call cfg w job msg (fun _ _ _ => trivial)
        (fun _ _ _ => .inl rfl) (fun _ _ => trivial) (fun _ => lawful_stamps rfl)
        fun _ _ => lawful_stamps rfl) h
    · obtain ⟨runID, v, hrun, h⟩ := ends_bind.mp h
      have hv := same_of_uses (quiet_resolveRunID _ _) hrun
      obtain ⟨err, x, hemit, h⟩ := ends_bind.mp h
      have hid : job.ID = msg.JobID := key_of_get hj.symm
      have hx := wp_sound (wp_emitted (hs.congr hv.jobs) fun hterm => inProgress_of_get
        (hid ▸ hv.jobs ▸ hj.symm) hterm) hemit
      refine hlawful hx (uses_step (by trivial) fun _ => ?_) h
      cases err with
      | some err => exact uses_mono lawful_call (quiet_SendError _ _ _)
      | none => exact uses_mono lawful_call (quiet_closeRun _ _ _ _ _ _ _)
    · exact hlawful hs (uses_handleJobCompleted lawful_call (fun _ => trivial) (lawful_stamps rfl)
        (fun _ _ _ => trivial) (fun _ => .inl rfl) w job) h

lemma stamped_requeued {ids : List String} (hs : AllStamped s) (hids : ∀ id ∈ ids, InProgress s id)
    (h : Prog.Ends (exec cfg.toStores) (OnJobsRequeued ids) s () t) : AllStamped t := by
  refine (right_ends (J := {id | id ∈ ids}) (uses_OnJobsRequeued lawful_call (fun _ => trivial)
    fun id hid => .inr (.inr ⟨hid, ?_⟩)) ⟨hs, hids⟩ h).1
  rintro st ⟨⟩
  exact not_terminal_pending

end Handlers

/-! ### A dispatch pass -/

/-- The pass can take the job: it is marked cancelled, or in progress and of a stored task. -/
def Ready (s : World) (q : Job) : Prop :=
  q.ID ∈ s.cancelledJobIDs ∨ InProgress s q.ID ∧ s.tasks.get q.TaskName ≠ none

/-- The heap holds no job twice, and the pass can take them all. -/
def Dispatchable (s : World) : Prop :=
  (s.queue.map Job.ID).Nodup ∧ ∀ q ∈ s.queue, Ready s q

/-- The jobs of the heap that are not marked. -/
def unmarked (s : World) : Set String :=
  {id | id ∉ s.cancelledJobIDs ∧ ∃ q ∈ s.queue, q.ID = id}

lemma right_unmarked (hs : AllStamped s) (hd : Dispatchable s) : Right (unmarked s) s := by
  refine ⟨hs, ?_⟩
  rintro id ⟨hlive, q, hq, rfl⟩
  exact ((hd.2 q hq).resolve_left hlive).1

variable {online : List String} {c : Caches} {turns : List Turn}

lemma Dispatchable.pop {job : Job} (h : (s.queue.map Job.ID).Nodup) (hmem : job ∈ s.queue) :
    ((s.queue.erase job).map Job.ID).Nodup ∧ ∀ q ∈ s.queue.erase job, q.ID ≠ job.ID := by
  rw [((List.perm_cons_erase hmem).map Job.ID).nodup_iff, List.map_cons, List.nodup_cons] at h
  exact ⟨h.2, fun q hq he => h.1 (List.mem_map.mpr ⟨q, hq, he⟩)⟩

/-- **All turns.** -/
lemma stamped_loop (h : Loop cfg (exec cfg.toStores) online s c turns t) (hs : AllStamped s)
    (hd : Dispatchable s) (hc : ∀ name ∈ c.task, s.tasks.get name ≠ none) : AllStamped t := by
  induction h with
  | done => exact hs
  | @discard s u v t c job turns hpop hcan hremove hrest ih =>
    obtain ⟨hmem, -, rfl⟩ := hpop
    obtain rfl := id hremove
    obtain ⟨hnodup, hne⟩ := Dispatchable.pop hd.1 hmem
    refine ih hs ⟨hnodup, fun q hq => ?_⟩ hc
    exact (hd.2 q (List.mem_of_mem_erase hq)).imp_left fun h =>
      Finset.mem_erase.mpr ⟨hne q hq, h⟩
  | @examine s u v t c c' job outcome moments turns hpop hlive hvis hrest ih =>
    obtain ⟨hmem, -, rfl⟩ := hpop
    have hends := ends_of_visits hvis
    obtain ⟨-, htask⟩ := (hd.2 job hmem).resolve_left hlive
    obtain ⟨hc', hdone⟩ := ends_examine (s := { s with queue := s.queue.erase job })
      (fun h => h) hc htask hends
    have hstays := stays_examine (fun h => h) hends
    have hjob : job.ID ∈ unmarked s := ⟨hlive, job, hmem, rfl⟩
    have hu : Right (unmarked s) { s with queue := s.queue.erase job } := right_unmarked hs hd
    have hright : Right (unmarked s) v := by
      rcases hdone with rfl | ⟨keys, e, hpropose⟩
      · exact hu
      · refine right_ends (J := unmarked s) (uses_tryProposeJob lawful_call cfg job
          (fun _ _ _ => trivial)
          (.inr (.inr ⟨hjob, ?_⟩)) (fun _ => trivial) keys)
          hu hpropose
        rintro st ⟨⟩
        decide
    refine ih hright.1 ⟨?_, fun q hq => ?_⟩ (by rwa [hstays.tasks])
    · rw [hstays.queue]
      exact (Dispatchable.pop hd.1 hmem).1
    rw [hstays.queue] at hq
    have hq := List.mem_of_mem_erase hq
    unfold Ready
    rw [hstays.cancelledJobIDs, hstays.tasks]
    by_cases hmarked : q.ID ∈ s.cancelledJobIDs
    · exact .inl hmarked
    · exact .inr ⟨hright.2 _ ⟨hmarked, q, hq, rfl⟩, ((hd.2 q hq).resolve_left hmarked).2⟩

lemma stamped_pass (hs : AllStamped s) (hd : Dispatchable s)
    (h : Performs (exec cfg.toStores) (ProcessQueue cfg) s t) : AllStamped t := by
  obtain ⟨shortage, h⟩ := h
  obtain ⟨turns, hpass⟩ := passes_of_ends (fun h => h) h
  cases hpass with
  | idle => exact hs
  | @loop u v w _ online _ _ hage honline hloop ht =>
    obtain ⟨now, rfl⟩ := hage
    obtain ⟨-, rfl⟩ := honline
    subst ht
    refine AllStamped.congr (s := w) (stamped_loop hloop hs ⟨?_, fun q hq => ?_⟩ (by simp)) rfl
    · rw [aged_map_ID]
      exact hd.1
    · -- aging changes neither the name nor the task of a job
      have hmem := List.mem_map_of_mem (f := fun j : Job => (j.ID, j.TaskName)) hq
      rw [aged_map (fun _ _ => rfl)] at hmem
      obtain ⟨q', hq', he⟩ := List.mem_map.mp hmem
      obtain ⟨hid, htask⟩ := Prod.mk.inj he
      unfold Ready
      rw [← hid, ← htask]
      exact hd.2 q' hq'

/-! ### Runs of operations and recoveries -/

/-- What the manager does next: an operation, or a restart of the process with its recovery. -/
inductive Act
  | op (op : Op)
  | recover

variable (cfg) in
/-- One operation with its calls as `run` allows, or a restart. -/
def next (run : ∀ {β : Type}, Call β → World → β → World → Prop) (s : World) :
    Act → World → Prop
  | .op op, t => stepBy cfg run s op t
  | .recover, t => RecoverJobs cfg.toStores (restart s) t

lemma run_ops (ops : List Op) (l : Luck) {tr : List (World × Op)}
    (h : playOps cfg (fun _ _ => true) ops (l, s) = some (tr, t)) :
    Run (next cfg (exec cfg.toStores)) s (tr.map (Prod.map id Act.op)) t := by
  have hrun := run_played ops l h
  clear h
  induction hrun with
  | nil => exact .nil _
  | cons hstep _ ih => exact .cons hstep ih

/-- Recovery resets only jobs in progress, which have no stamps. -/
lemma allStamped_recover {st : Stores} (hs : AllStamped s) (h : RecoverJobs st s t) :
    AllStamped t := by
  obtain ⟨pending, recoverable, -, hr, u, hreset, rfl⟩ := recoverJobs_spec h
  intro id j hj
  rw [show _ = u.jobs.get id from rfl, hreset.jobs] at hj
  split_ifs at hj with hid
  · obtain ⟨i, hi, rfl⟩ := Option.map_eq_some_iff.mp hj
    have hlisted : Listed i.Status := (mem_recoverable hr hi).mp hid
    have hopen : ¬i.Status.IsTerminal := by
      rcases hlisted with h | h | h <;> rw [h] <;> decide
    exact stamped_apply (m := .requeued) (hs id i hi) (.inr fun st hst => by
      cases hst
      exact ⟨not_terminal_pending, hopen⟩) 0
  · exact hs id j hj

/-- What puts a job back in progress finds it in progress: a message other than a result, a
re-queue, the loss of a connection that holds it. A pass finds only jobs it can take. -/
def Careful (s : World) : Act → Prop
  | .op (.accept _ _ jobID) | .op (.staged jobID) | .op (.starting _ jobID _)
  | .op (.reject _ jobID) => InProgress s jobID
  | .op (.requeue ids) => ∀ id ∈ ids, InProgress s id
  | .op (.unregister conn) => ∀ w, s.conns.get conn = some w → ∀ id ∈ w.inFlight, InProgress s id
  | .op .processQueue => Dispatchable s
  | _ => True

/-- **One act.** -/
theorem stamped_next {a : Act} (hs : AllStamped s) (ha : Careful s a)
    (h : next cfg (exec cfg.toStores) s a t) : AllStamped t := by
  cases a with
  | recover => exact allStamped_recover (s := restart s) hs h
  | op op =>
    cases op with
    | submit req =>
      obtain ⟨a, h⟩ := h
      exact (right_ends (uses_handleSubmitJob lawful_call req
        (fun _ _ _ => (jobOf_fields _ _ _ _).2.2.2) fun _ => trivial) (right_none hs) h).1
    | processQueue => exact stamped_pass hs ha h
    | register => exact hs.congr (kept_registers h.2.2.2.2).jobs
    | requeue ids =>
      obtain ⟨-, a, h⟩ := h
      exact stamped_requeued (s := { s with requeues := s.requeues.erase ids }) hs ha h
    | unregister conn =>
      obtain ⟨w, ids, hw, hids, a, h⟩ := h
      refine stamped_requeued (s := removeConnLocked w s) hs (fun id hid => ha w hw id ?_) h
      rw [← hids.2]
      exact List.mem_toFinset.mpr hid
    | heartbeat | capacity | forget | saveTask | deleteTask =>
      cases h
      exact hs
    | accept w workerID jobID =>
      exact (right_ends (uses_handleAcceptMessage lawful_call cfg (lawful_one rfl (by decide))
        (fun _ _ => trivial) w workerID) (right_one hs ha) h.choose_spec).1
    | staged jobID =>
      exact (right_ends (p := handleStagedMessage jobID) (uses_step (lawful_one rfl (by decide))
        fun _ => trivial) (right_one hs ha) h.choose_spec).1
    | starting => exact stamped_starting hs ha h.choose_spec
    | reject w jobID =>
      exact (right_ends (uses_handleRejectMessage lawful_call (fun _ => trivial)
        (lawful_one rfl (by decide)) (fun _ _ _ => trivial) (fun _ _ => trivial) w)
        (right_one hs ha) h.choose_spec).1
    | result => exact stamped_result hs h.choose_spec
    | retry jobID =>
      obtain ⟨-, a, h⟩ := h
      exact stamped_retry (s := { s with timers := s.timers.erase jobID }) hs h
    | cancel jobID =>
      exact (right_ends (uses_cancelJobByID lawful_call (fun _ => lawful_stamps rfl)
        (fun _ => trivial) jobID) (right_none hs) h.choose_spec).1

/-- **Stamps along a run.** Over any sequence of operations and recoveries in which nothing puts a
job back in progress that has ended, and no pass finds a job it would fail, every stored job has
its stamps exactly when it has ended. -/
theorem stamped_of_careful {tr : List (World × Act)} (hs : AllStamped s)
    (h : Run (next cfg (exec cfg.toStores)) s tr t) (hcareful : Meets Careful tr) :
    ∀ u ∈ states tr t, AllStamped u :=
  h.invariant (fun _ _ _ hI ha hstep => stamped_next hI ha hstep) hcareful hs

/-! ### Three short runs -/

/-- The job is cancelled, and the next pass discards it. -/
theorem stamped_cancelled : ∃ tr t, Run (next .defaults (exec Config.defaults.toStores))
    World.initial tr t ∧ Meets Careful tr ∧ (∀ u ∈ states tr t, AllStamped u) ∧ t.queue = [] ∧
    (t.jobs.get "j").map (fun j => (j.Status, j.CompletedAt, j.Duration)) =
      some (.cancelled, some 5, some 5) := by
  obtain ⟨tr, t, hrun, hcareful, hqueue, hj⟩ : ∃ tr t,
      Run (next .defaults (exec Config.defaults.toStores)) World.initial tr t ∧ Meets Careful tr ∧
      t.queue = [] ∧ (t.jobs.get "j").map (fun j => (j.Status, j.CompletedAt, j.Duration)) =
        some (.cancelled, some 5, some 5) := by
    refine ⟨_, _, run_ops (submits ++ [.cancel "j", .processQueue])
      { times := [0, 5], ids := ["j"] } rfl, ?_, by decide, by decide⟩
    show Meets Careful [(_, _), (_, _), (_, _), (_, _)]
    simp only [meets_cons, meets_nil, and_true]
    refine ⟨trivial, trivial, trivial, by decide, fun q hq => .inl ?_⟩
    obtain rfl := List.mem_singleton.mp hq
    decide
  exact ⟨tr, t, hrun, hcareful, stamped_of_careful allStamped_initial hrun hcareful, hqueue, hj⟩

/-- **A direct failure stamps nothing, and a late message keeps the stamps.** A job whose task was
deleted before the pass that pops it is failed without `CompletedAt` and `Duration`. A staged
message after a cancel puts the job back in progress with both still set. -/
theorem unstamped_failure_stamped_progress :
    (∃ tr t, Run (next .defaults (exec Config.defaults.toStores)) World.initial tr t ∧
      (t.jobs.get "j").map (fun j => (j.Status, j.CompletedAt, j.Duration)) =
        some (.failed, none, none)) ∧
    ∃ tr t, Run (next .defaults (exec Config.defaults.toStores)) World.initial tr t ∧
      (t.jobs.get "j").map (fun j => (j.Status, j.CompletedAt, j.Duration)) =
        some (.provisioning, some 5, some 5) :=
  ⟨⟨_, _, run_ops (submits ++ [.deleteTask "t", .processQueue]) { ids := ["j"] } rfl, by decide⟩,
    _, _, run_ops (submits ++ [.cancel "j", .staged "j"]) { times := [0, 5], ids := ["j"] } rfl,
    by decide⟩

end Workforce.Stamps
