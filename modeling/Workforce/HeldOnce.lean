import Workforce.Playback
import Workforce.Ownership
import Workforce.Pool

/-!
No job is held twice along a run.

The handlers that queue a job again do not look whether it is held already. They keep every
job held once as long as a reply is about a job that its connection has in flight, or that is
held nowhere else, and as long as a connection that has left the pool does not leave it again
with jobs that are held elsewhere by then.
-/

namespace Workforce.HeldOnce

open Tables Contract Progs Shared Calls Handlers Dispatcher Operations Footprints Copies Ownership
open Pool Runs

variable {cfg : Config} {s : World} {w : ConnID}

lemma copiesBut_of_holder {j : String} (h : Holds [] s) (hw : w ∈ holders s j) :
    copiesBut w s j = 0 := by
  have honce := h.once j
  rw [copies_eq (w := w), if_pos hw] at honce
  omega

variable {job : Job}

lemma not_waiting_of_holder {j : String} (h : Holds [] s) (hw : w ∈ holders s j)
    (hj : s.jobs.get j = some job) : job.Status ≠ .awaitingChildren := by
  intro hst
  have hzero := h.waiting j job hj hst
  rw [copies_eq (w := w), if_pos hw] at hzero
  omega

/-! ### Messages -/

lemma does_handleSubmitJob {req : submitJobRequest} (h : Holds [] s) :
    Does cfg (handleSubmitJob req) (fun _ t => Holds [] t) s := by
  unfold handleSubmitJob
  split
  · exact h
  refine does_step (by trivial) h fun taskDef t h => ?_
  cases taskDef with
  | none => exact h
  | some taskDef =>
    refine does_step (by trivial) h fun ts u h => ?_
    refine wp_step trivial fun id v hv => ?_
    replace h := holds_ulid hv h
    obtain ⟨hid, hst, -⟩ := jobOf_fields req taskDef id ts
    refine wp_step trivial fun err x hx => ?_
    replace h := holds_save hx h (by simp [hid]) (by simp [hst])
    cases err with
    | some err => exact h.drop fun j => by simp
    | none => exact wp_step trivial fun _ y hy => holds_push hy (by rwa [hid])

lemma does_handleAcceptMessage {workerID jobID : String} (h : Holds [] s) :
    Does cfg (handleAcceptMessage cfg w workerID jobID) (fun _ t => Holds [] t) s := by
  refine does_step (by trivial) h fun updated t h => ?_
  split
  · exact h
  refine does_step (by trivial) h fun job u h => ?_
  cases job with
  | none => exact h
  | some job =>
    refine does_bind (does_mild (mild_of_quiet (quiet_resolveDispatchPayload _ _)) h
      fun payload v h => ?_)
    cases payload with
    | none => exact h
    | some payload =>
      refine does_step (by trivial) h fun runID x h => ?_
      refine wp_step trivial fun _ y hy => ?_
      replace h := h.same (same_of_createRun hy)
      have htail : (do
          Prog.lift (.setActiveRun job.ID runID)
          let _ ← send w (.dispatch job runID payload) : M Unit).Uses Mild :=
        uses_step trivial fun _ => uses_lift trivial
      exact does_mild htail h fun _ _ h => h

lemma does_handleRejectMessage {jobID : String} (hlanes : cfg.lanes = true) (h : Holds [] s)
    (hbut : s.jobs.get jobID ≠ none → copiesBut w s jobID = 0) :
    Does cfg (handleRejectMessage w jobID) (fun _ t => Holds [] t) s := by
  refine wp_step trivial fun job t ht => ?_
  obtain ⟨hget, rfl⟩ := ht
  cases job with
  | none => exact does_mild (mild_of_quiet (quiet_SendError _ _ _)) h fun _ _ h => h
  | some job =>
    have hid : job.ID = jobID := key_of_get hget.symm
    subst hid
    have hbut' := hbut (by rw [← hget]; simp)
    refine wp_step trivial fun updated u hu => ?_
    have h' := holds_mild (by trivial) hu h
    split
    · exact h'
    refine wp_step trivial fun _ v hv => ?_
    obtain ⟨now, -, rfl⟩ := hu
    have hp : SamePlaces t { t with jobs := t.jobs.modify job.ID (JobMutation.pending.apply now) } :=
      ⟨rfl, rfl, rfl, rfl, rfl, rfl⟩
    have hv' : Holds [job.ID] v := by
      refine holds_restore hlanes hv h' ?_ (h.stored _ (by rw [← hget]; simp)) fun job' hj => ?_
      · rw [hp.copiesBut, hbut']
        rfl
      · rw [get_modify _ _ _ (JobMutation.apply_ID _ now), if_pos rfl, ← hget] at hj
        cases hj
        simp [JobMutation.apply]
    refine wp_step trivial fun _ x hx => ?_
    replace h' := holds_mild (by trivial) hx hv'
    exact wp_lift trivial fun _ y hy => holds_push hy h'

variable {msg : ResultMessage}

lemma does_handleJobCompleted (h : Holds [] s) :
    Does cfg (handleJobCompleted w job msg) (fun _ t => Holds [] t) s := by
  unfold handleJobCompleted
  split
  · exact h
  refine does_step (by trivial) h fun updated t h => ?_
  split
  · exact h
  refine does_bind (does_quiet (quiet_resolveRunID _ _) fun runID u hu => ?_)
  refine does_bind (does_quiet (quiet_closeRun _ _ _ _ _ _ _) fun _ v hv => ?_)
  replace h := (h.same hu).same hv
  refine does_step (by trivial) h fun restored x h => ?_
  split
  · exact h
  refine does_bind (does_quiet (quiet_enqueue _ _ _) fun _ y hy => ?_)
  exact does_checkSiblings (h.same hy)

/-- The error will be retried: the job has not ended, the exit code does not rule a retry out,
and the retry policy leaves an attempt. -/
def Retried (cfg : Config) (s : World) (job : Job) (msg : ResultMessage) : Prop :=
  ¬job.Status.IsTerminal ∧ msg.ExitCode ≠ cfg.DefaultPanicExitCode.toNat ∧
    ¬(cfg.DoNotRetryFrom.toNat ≤ msg.ExitCode ∧ msg.ExitCode ≤ cfg.DoNotRetryTo.toNat) ∧
    job.Attempts + 1 < (effectivePolicy cfg (s.tasks.get job.TaskName)).MaxAttempts

lemma does_handleJobError (hlanes : cfg.lanes = true) (h : Holds [] s)
    (hget : s.jobs.get job.ID = some job)
    (hfree : Retried cfg s job msg → copiesBut w s job.ID = 0 ∧ job.Status ≠ .awaitingChildren) :
    Does cfg (handleJobError cfg w job msg) (fun _ t => Holds [] t) s := by
  unfold handleJobError
  split
  · split
    · refine does_bind (does_quiet (quiet_resolveRunID _ _) fun runID u hu => ?_)
      exact does_quiet (quiet_closeRun _ _ _ _ _ _ _) fun _ v hv => (h.same hu).same hv
    · exact h
  next hterm =>
  refine wp_step trivial fun _ t ht => ?_
  -- if there will be a retry, the job is now in the handler's hands
  have htasks := (untouched ht).tasks
  obtain ⟨l, hl, htok⟩ : ∃ l, Holds l t ∧ (Retried cfg s job msg → l = [job.ID]) := by
    by_cases hr : Retried cfg s job msg
    · obtain ⟨hbut, hst⟩ := hfree hr
      refine ⟨[job.ID], holds_restore hlanes ht h (by rw [hbut]; rfl) ?_ ?_, fun _ => rfl⟩
      · exact h.stored _ (by rw [hget]; simp)
      · intro job' hj
        rw [hget] at hj
        cases hj
        exact hst
    · exact ⟨[], holds_mild (by trivial) ht h, fun h => absurd h hr⟩
  have hfail {u : World} (hu : Holds l u) (job : Job) :
      Does cfg (handleFailJob job msg) (fun _ t => Holds [] t) u :=
    does_mild (mild_handleFailJob _ _) hu fun _ _ h => h.drop fun _ => by simp
  refine does_bind (does_quiet (quiet_resolveRunID _ _) fun runID u hu => ?_)
  refine does_bind (does_quiet (quiet_closeRun _ _ _ _ _ _ _) fun _ v hv => ?_)
  replace hl := (hl.same hu).same hv
  refine wp_step trivial fun _ x hx => ?_
  have hxl := holds_mild (by trivial) hx hl
  have hxt : x.tasks = s.tasks := by
    obtain ⟨now, -, rfl⟩ := hx
    rw [← htasks, ← hu.tasks, ← hv.tasks]
  dsimp only
  split
  · exact hfail hxl _
  split
  · exact hfail hxl _
  next hpanic hrange =>
  refine wp_step trivial fun taskDef y hy => ?_
  obtain ⟨rfl, rfl⟩ := hy
  split
  · next hlt =>
    have hr : Retried cfg s job msg := ⟨hterm, hpanic, hrange, by rwa [hxt] at hlt⟩
    rw [htok hr] at hxl
    exact wp_lift trivial fun _ z hz => holds_afterFunc hz hxl
  · exact hfail hxl _

/-! ### Subjobs -/

/-- The state as it will be when the connection has let go of the job. -/
def released (w : ConnID) (id : String) (cost : ℤ) (s : World) : World :=
  { s with conns := s.conns.modify w fun c => c.CompleteTask id cost }

/-- A call that does not look at connections. -/
def Connless : {β : Type} → Call β → Prop
  | _, .now => True
  | _, .ulidMake => True
  | _, .saveJob _ => True
  | _, .updateJob _ _ => True
  | _, .updateJobFiring _ _ => True
  | _, .getTask _ => True
  | _, .listPlatforms _ _ => True
  | _, .pushItem _ => True
  | _, _ => False

variable {t : World} {id : String}

lemma exec_released {β : Type} {c : Call β} {b : β} {cost : ℤ} (hc : Connless c)
    (he : exec cfg.toStores c s b t) :
    exec cfg.toStores c (released w id cost s) b (released w id cost t) := by
  cases c with
  | now | listPlatforms | pushItem =>
    subst he
    rfl
  | ulidMake =>
    obtain ⟨hne, hnew, rfl⟩ := he
    exact ⟨hne, hnew, rfl⟩
  | saveJob job =>
    rcases he with ⟨herr, rfl⟩ | ⟨herr, rfl⟩
    · exact .inl ⟨herr, rfl⟩
    · exact .inr ⟨herr, rfl⟩
  | updateJob id m =>
    obtain ⟨now, hb, rfl⟩ := he
    exact ⟨now, hb, rfl⟩
  | updateJobFiring id reason =>
    simp only [exec] at he ⊢
    rw [show (released w _ cost s).jobs = s.jobs from rfl]
    rcases hj : s.jobs.get id with _ | j
    · simp only [hj] at he ⊢
      exact ⟨he.1, by rw [he.2]⟩
    · simp only [hj] at he ⊢
      obtain ⟨hb, now, he⟩ := he
      refine ⟨hb, now, ?_⟩
      split_ifs at he ⊢
      · obtain ⟨hsame, wid, hne, hnew, rfl⟩ := he
        exact ⟨hsame, wid, hne, hnew, rfl⟩
      · rw [he]
        rfl
  | getTask name =>
    obtain ⟨hb, rfl⟩ := he
    exact ⟨hb, rfl⟩
  | _ => exact hc.elim

/-- A program that does not look at connections runs the same with the job let go of. -/
lemma does_released {α : Type} {p : M α} {Q : α → World → Prop} {cost : ℤ} (hp : p.Uses Connless)
    (h : Does cfg p Q (released w id cost s)) :
    Does cfg p (fun a t => Q a (released w id cost t)) s := by
  induction p generalizing s with
  | pure a => exact h
  | call c k ih =>
    refine ⟨?_, fun b t ht => ih b (hp.2 b) (h.2 b _ (exec_released hp.1 ht))⟩
    have hc := hp.1
    cases c <;> trivial

lemma connless_handleSubjobsEmitted (parent : Job) (reqs : List ChildJobRequest) :
    (handleSubjobsEmitted cfg parent reqs).Uses Connless :=
  uses_handleSubjobsEmitted (fun _ => trivial) cfg trivial (fun _ => trivial) (fun _ _ => trivial)
    trivial (fun _ _ => trivial) (fun _ _ => trivial) (fun _ => trivial) parent reqs

/-- The handler has the jobs in `l` in hand, and `id` is held nowhere. -/
structure Ready (id : String) (l : List String) (s : World) : Prop where
  holds : Holds l s
  free : copies s id + l.count id = 0
  issued : id ∈ s.issued

lemma Ready.same {l : List String} (h : Ready id l s) (hs : Same s t) : Ready id l t :=
  ⟨h.holds.same hs, by rw [(SamePlaces.of_same hs).copies]; exact h.free, hs.issued h.issued⟩

/-- The children created so far are in the handler's hands. -/
lemma does_createChildren {parent : Job} {start : Time} {reqs : List ChildJobRequest}
    (h : Ready parent.ID [] s) :
    Does cfg (createChildren cfg parent start 0 reqs [])
      (fun r t => match r with
        | .error _ => Holds [] t
        | .ok children => Ready parent.ID (children.map Job.ID) t) s := by
  refine wp_createChildren cfg (I := fun l t => Ready parent.ID (l.map Job.ID) t)
    (F := fun t => ∃ l, Holds l t)
    (fun hc hI => ⟨alone_of_mild (mild_call _ (quiet_of_looks hc)), fun _ _ ht =>
      hI.same (same_of_quiet (quiet_of_looks hc) ht)⟩)
    (fun hI => ⟨trivial, fun id v hv child hid _ hnew => ⟨trivial, fun r x hx => ?_⟩⟩)
    (fun hI => ⟨_, hI.holds⟩) (fun hF => ⟨by trivial, fun _ _ ht _ => ?_⟩) (fun _ _ hI _ => hI) h
  · have hready := hI.same (same_of_quiet (by trivial) hv)
    -- the new identifier is not the parent's, which is in use
    have hne : child.ID ≠ parent.ID := by
      rintro hk
      exact hv.2.1 (hid ▸ hk ▸ hI.issued)
    have hx' := holds_save hx (holds_ulid hv hI.holds) (by simp [hid]) (by simp [hnew.Status])
    split_ifs with hr
    · obtain ⟨-, rfl⟩ | ⟨habs, -⟩ := hx
      · refine ⟨hx'.drop fun j => ?_, ?_, hready.issued⟩
        · rw [List.map_append, List.count_append, List.map_cons, List.map_nil, hid,
            List.count_cons, List.count_cons, List.count_nil]
          omega
        · rw [List.map_append, List.count_append, List.map_cons, List.map_nil,
            List.count_cons_of_ne hne, List.count_nil]
          exact hready.free
      · exact absurd hr habs
    · exact ⟨_, hx'⟩
  · obtain ⟨l, hl⟩ := hF
    exact (holds_mild (by trivial) ht hl).drop fun _ => by simp

lemma does_handleSubjobsEmitted {parent : Job} {reqs : List ChildJobRequest}
    (h : Ready parent.ID [] s) :
    Does cfg (handleSubjobsEmitted cfg parent reqs) (fun _ t => Holds [] t) s := by
  unfold handleSubjobsEmitted
  split
  · exact h.holds
  refine wp_step trivial fun start t ht => does_bind ?_
  replace h := h.same (same_of_quiet (by trivial) ht)
  refine wp_mono (does_createChildren h) fun r u hu => ?_
  cases r with
  | error err => exact hu
  | ok children =>
    refine wp_step trivial fun updated v hv => ?_
    have hv' := holds_await hv hu.holds hu.free
    split
    · exact hv'.drop fun _ => by simp
    · exact does_bind (does_EnqueueJobs (l := []) (by simpa using hv') fun x hx => hx)

/-! ### What a step must not meet -/

/-- **The condition on a step.** A reply about a job its connection does not have in flight
comes only while the job is held nowhere else (and, if the job is to be retried, while it does
not wait for children); a connection that has left the pool is unregistered only while no job
of its in-flight set is held elsewhere. -/
def NotHeldElsewhere (cfg : Config) (s : World) : Op → Prop
  | .unregister conn =>
    conn ∉ pool s → ∀ c, s.conns.get conn = some c → ∀ j ∈ c.inFlight, ¬Elsewhere s conn j
  | .reject conn jobID =>
    conn ∉ holders s jobID → s.jobs.get jobID ≠ none → ¬Elsewhere s conn jobID
  | .result conn msg =>
    conn ∉ holders s msg.JobID → ∀ job, s.jobs.get msg.JobID = some job →
      match msg.ResultType with
      | .success => True
      | .error =>
        Retried cfg s job msg → ¬Elsewhere s conn msg.JobID ∧ job.Status ≠ .awaitingChildren
      | .subjobs => ¬job.Status.IsTerminal → ¬Elsewhere s conn msg.JobID
  | _ => True

lemma does_handleResultMessage (hlanes : cfg.lanes = true) (h : Holds [] s)
    (hop : NotHeldElsewhere cfg s (.result w msg)) :
    Does cfg (handleResultMessage cfg w msg) (fun _ t => Holds [] t) s := by
  refine wp_step trivial fun job t ht => ?_
  obtain ⟨hget, rfl⟩ := ht
  cases job with
  | none => exact does_mild (mild_of_quiet (quiet_SendError _ _ _)) h fun _ _ h => h
  | some job =>
    have hid : job.ID = msg.JobID := key_of_get hget.symm
    cases hrt : msg.ResultType with
    | success => exact does_handleJobCompleted h
    | error =>
      refine does_handleJobError hlanes h (by rw [hid, ← hget]) fun hr => ?_
      by_cases hw : w ∈ holders t msg.JobID
      · rw [hid]
        exact ⟨copiesBut_of_holder h hw, not_waiting_of_holder h hw hget.symm⟩
      · have hop' := hop hw job hget.symm
        rw [hrt] at hop'
        obtain ⟨helse, hst⟩ := hop' hr
        rw [hid]
        exact ⟨copiesBut_eq_zero helse, hst⟩
    | subjobs =>
      refine does_bind (does_quiet (quiet_resolveRunID _ _) fun runID u hu => does_bind ?_)
      by_cases hterm : job.Status.IsTerminal
      · -- the message is ignored, and the connection lets go of the job
        have hnone : handleSubjobsEmitted cfg job msg.Jobs = pure none := if_pos hterm
        rw [hnone]
        refine wp_step trivial fun _ v hv => ?_
        have hv' := holds_mild (by trivial) hv (h.same hu)
        exact does_mild (mild_of_quiet (quiet_closeRun _ _ _ _ _ _ _)) hv' fun _ _ h => h
      have hbut : copiesBut w t msg.JobID = 0 := by
        by_cases hw : w ∈ holders t msg.JobID
        · exact copiesBut_of_holder h hw
        · have hop' := hop hw job hget.symm
          rw [hrt] at hop'
          exact copiesBut_eq_zero (hop' hterm)
      have hrel : Ready job.ID [] (released w job.ID job.Cost u) := by
        have hexec : exec cfg.toStores (.restoreCapacity w job.ID job.Cost) u true
            (released w job.ID job.Cost u) := .inr ⟨rfl, rfl⟩
        refine ⟨holds_mild (by trivial) hexec (h.same hu), ?_,
          hu.issued (h.stored _ (by rw [hid, ← hget]; simp))⟩
        unfold released
        rw [copies_complete_self, (SamePlaces.of_same hu).copiesBut, hid, hbut]
        rfl
      refine wp_mono (does_released (connless_handleSubjobsEmitted _ _)
        (does_handleSubjobsEmitted hrel)) fun err v hv => ?_
      refine wp_step trivial fun _ x hx => ?_
      rw [show x = released w job.ID job.Cost v from (exec_restoreCapacity hlanes hx).2]
      cases err with
      | some err => exact does_mild (mild_of_quiet (quiet_SendError _ _ _)) hv fun _ _ h => h
      | none => exact does_mild (mild_of_quiet (quiet_closeRun _ _ _ _ _ _ _)) hv fun _ _ h => h

/-! ### The worker pool -/

variable {c : WorkerConn}

/-- A connection that is removed leaves the pool; no connection joins it. -/
lemma pool_removeConn (hi : Indexed s) (hc : s.conns.get c.conn = some c) :
    pool (removeConnLocked c s) ⊆ (pool s).erase c.conn := by
  intro w' hw'
  rw [Finset.mem_erase]
  rcases mem_pool.mp hw' with ⟨id, hid⟩ | ⟨k, hk⟩
  · rw [lookup_removeConn] at hid
    split_ifs at hid with hne
    refine ⟨?_, mem_pool.mpr (.inl ⟨id, hid⟩)⟩
    rintro rfl
    obtain ⟨c', hc', rfl⟩ := hi.workers id _ hid
    rw [hc] at hc'
    cases hc'
    exact hne rfl
  · obtain ⟨hne, hk⟩ := (mem_platformList_removeConn hi hc).mp hk
    exact ⟨hne, mem_pool.mpr (.inr ⟨k, hk⟩)⟩

lemma copies_removeConn_le (hi : Indexed s) (hc : s.conns.get c.conn = some c) (j : String) :
    copies (removeConnLocked c s) j ≤ copiesBut c.conn s j := by
  have hsub : holders (removeConnLocked c s) j ⊆ (holders s j).erase c.conn := by
    intro w' hw'
    obtain ⟨hp, hj⟩ := mem_holders.mp hw'
    obtain ⟨hne, hp'⟩ := Finset.mem_erase.mp (pool_removeConn hi hc hp)
    exact Finset.mem_erase.mpr ⟨hne, mem_holders.mpr ⟨hp', hj⟩⟩
  have hcard := Finset.card_le_card hsub
  have hq : queued (removeConnLocked c s) j = queued s j := rfl
  have ht : (removeConnLocked c s).timers = s.timers := rfl
  have hr : (removeConnLocked c s).requeues = s.requeues := rfl
  unfold copies copiesBut
  rw [hq, ht, hr]
  omega

lemma holds_removeConn (h : Holds [] s) (hc : s.conns.get c.conn = some c) :
    Holds [] (removeConnLocked c s) := by
  refine h.move (fun j => ?_) rfl rfl (indexed_removeConn h.indexed)
  have hle := copies_removeConn_le h.indexed hc j
  rw [copies_eq (s := s) (w := c.conn)]
  omega

lemma holds_addConn (h : Holds [] s) (hnew : s.conns.get c.conn = none) (hfl : c.inFlight = ∅) :
    Holds [] (addConn c s) := by
  have hpool : ∀ w' ∈ pool (addConn c s), w' = c.conn ∨ w' ∈ pool s := by
    intro w' hw'
    rcases mem_pool.mp hw' with ⟨id, hid⟩ | ⟨k, hk⟩
    · rw [lookup_addConn] at hid
      split_ifs at hid
      · exact .inl (Option.some.inj hid).symm
      · exact .inr (mem_pool.mpr (.inl ⟨id, hid⟩))
    · rcases mem_platformList_addConn.mp hk with hk | ⟨-, rfl⟩
      · exact .inr (mem_pool.mpr (.inr ⟨k, hk⟩))
      · exact .inl rfl
  refine h.move (fun j => ?_) rfl rfl (indexed_addConn h.indexed hnew)
  have hsub : holders (addConn c s) j ⊆ holders s j := by
    intro w' hw'
    obtain ⟨hp, hj⟩ := mem_holders.mp hw'
    unfold inFlightOf at hj
    rw [get_addConn] at hj
    split_ifs at hj with hwc
    · rw [Option.map_some, Option.getD_some, hfl] at hj
      exact absurd hj (Finset.notMem_empty j)
    · rcases hpool w' hp with rfl | hp
      · exact absurd rfl hwc
      · exact mem_holders.mpr ⟨hp, hj⟩
  have hcard := Finset.card_le_card hsub
  have hq : queued (addConn c s) j = queued s j := rfl
  have ht : (addConn c s).timers = s.timers := rfl
  have hr : (addConn c s).requeues = s.requeues := rfl
  unfold copies
  rw [hq, ht, hr]
  omega

lemma holds_register (h : Holds [] s) (hnew : s.conns.get c.conn = none) (hfl : c.inFlight = ∅)
    (hr : Registers c s t) : Holds [] t := by
  unfold Registers at hr
  rcases hold : connectedAs s c.workerID with _ | old
  · simp only [hold] at hr
    subst hr
    exact holds_addConn h hnew hfl
  · simp only [hold] at hr
    obtain ⟨ids, ⟨hnodup, hids⟩, rfl⟩ := hr
    obtain ⟨w', hw', hget⟩ := Option.bind_eq_some_iff.mp hold
    have hconn : old.conn = w' := key_of_get hget
    subst hconn
    have hpool : old.conn ∈ pool s := mem_pool.mpr (.inl ⟨_, hw'⟩)
    refine holds_addConn ?_ ?_ hfl
    · -- the old connection's jobs go to the re-queue
      have hrem := holds_removeConn h hget
      unfold replaceOld
      split_ifs with hne
      · refine h.move (fun j => ?_) rfl rfl (hrem.indexed.of_eq rfl rfl rfl)
        have hle := copies_removeConn_le h.indexed hget j
        have hcount : ids.count j = if j ∈ ids then 1 else 0 := hnodup.count
        have hmem : j ∈ ids ↔ old.conn ∈ holders s j := by
          rw [mem_holders, ← List.mem_toFinset, hids]
          unfold inFlightOf
          rw [hget]
          exact ⟨fun hj => ⟨hpool, hj⟩, fun hj => hj.2⟩
        have hsplit : copies { removeConnLocked old s with
            requeues := (removeConnLocked old s).requeues ++ [ids] } j =
            copies (removeConnLocked old s) j + ids.count j := by
          have hh : holders { removeConnLocked old s with
            requeues := (removeConnLocked old s).requeues ++ [ids] } j =
              holders (removeConnLocked old s) j := rfl
          simp only [copies, queued, hh, List.flatten_append, List.count_append,
            List.flatten_cons, List.flatten_nil, List.append_nil]
          omega
        rw [hsplit, copies_eq (s := s) (w := old.conn), hcount]
        simp only [hmem]
        omega
      · exact hrem
    · unfold replaceOld
      split_ifs <;> exact hnew

/-! ### Runs -/

/-- **One operation** that meets the condition leaves every job held once. -/
theorem holds_step {op : Op} (hlanes : cfg.lanes = true) (h : Holds [] s)
    (hop : NotHeldElsewhere cfg s op) (hs : step cfg s op t) : Holds [] t := by
  have hends {α : Type} {p : M α} {s : World} (hp : Does cfg p (fun _ t => Holds [] t) s)
      (hs : Performs (exec cfg.toStores) p s t) : Holds [] t := by
    obtain ⟨a, ha⟩ := hs
    exact wp_sound (Q := fun _ t => Holds [] t) hp ha
  cases op with
  | submit req => exact hends (does_handleSubmitJob h) hs
  | processQueue => exact hends (does_ProcessQueue h) hs
  | register conn id os arch capacity =>
    obtain ⟨hnew, -, -, -, hr⟩ := hs
    exact holds_register h hnew rfl hr
  | requeue ids =>
    obtain ⟨hmem, hs⟩ := hs
    have hperm := (List.perm_cons_erase hmem).flatten
    have hcopies (j : String) :
        copies { s with requeues := s.requeues.erase ids } j + ids.count j = copies s j := by
      have hcount := hperm.count_eq j
      have hh : holders { s with requeues := s.requeues.erase ids } j = holders s j := rfl
      rw [List.flatten_cons, List.count_append] at hcount
      simp only [copies, queued, hh]
      omega
    have h' : Holds [] { s with requeues := s.requeues.erase ids } :=
      h.move (fun j => by have := hcopies j; omega) rfl rfl (h.indexed.of_eq rfl rfl rfl)
    refine hends (does_OnJobsRequeued ?_ h' fun id hid => ?_) hs
    · refine List.nodup_iff_count_le_one.mpr fun j => ?_
      have := h.once j
      have := hcopies j
      omega
    · have := h.once id
      have := hcopies id
      have := List.count_pos_iff.mpr hid
      omega
  | unregister conn =>
    obtain ⟨c, ids, hc, ⟨hnodup, hids⟩, hs⟩ := hs
    have hconn : c.conn = conn := key_of_get hc
    subst hconn
    refine hends (does_OnJobsRequeued hnodup (holds_removeConn h hc) fun id hid => ?_) hs
    have hfl : id ∈ c.inFlight := by rwa [← hids, List.mem_toFinset]
    have hbut : copiesBut c.conn s id = 0 := by
      by_cases hpool : c.conn ∈ pool s
      · refine copiesBut_of_holder h (mem_holders.mpr ⟨hpool, ?_⟩)
        unfold inFlightOf
        rw [hc]
        exact hfl
      · exact copiesBut_eq_zero (hop hpool c hc id hfl)
    have := copies_removeConn_le h.indexed hc id
    omega
  | heartbeat | capacity | forget =>
    subst hs
    exact holds_modify h (fun _ => rfl) (fun _ => rfl) (fun _ => rfl) (fun _ => rfl)
  | accept conn workerID jobID => exact hends (does_handleAcceptMessage h) hs
  | staged jobID =>
    have hmild : (handleStagedMessage jobID).Uses Mild := uses_step trivial fun _ => trivial
    exact hends (does_mild hmild h fun _ _ h => h) hs
  | starting workerID jobID runID =>
    exact hends (does_mild (uses_handleStartingMessage mild_call (fun _ => trivial) (fun _ => trivial)
      _ _ _) h fun _ _ h => h) hs
  | reject conn jobID =>
    refine hends (does_handleRejectMessage hlanes h fun hget => ?_) hs
    by_cases hw : conn ∈ holders s jobID
    · exact copiesBut_of_holder h hw
    · exact copiesBut_eq_zero (hop hw hget)
  | result conn msg => exact hends (does_handleResultMessage hlanes h hop) hs
  | retry jobID =>
    obtain ⟨hmem, hs⟩ := hs
    have h' : Holds [jobID] { s with timers := s.timers.erase jobID } := by
      refine h.move (fun j => ?_) rfl rfl (h.indexed.of_eq rfl rfl rfl)
      have hcount := (List.perm_cons_erase hmem).count_eq j
      have hh : holders { s with timers := s.timers.erase jobID } j = holders s j := rfl
      simp only [copies, queued, hh, List.count_cons, List.count_nil] at hcount ⊢
      omega
    exact hends (does_retryTimer h') hs
  | cancel jobID =>
    exact hends (does_mild (uses_cancelJobByID mild_call (fun _ => trivial) (fun _ => trivial) _) h
      fun _ _ h => h) hs
  | saveTask | deleteTask =>
    subst hs
    exact h.move (fun _ => le_rfl) rfl rfl (h.indexed.of_eq rfl rfl rfl)

/-- The manager after its start: nobody is connected yet, and the jobs left over from before,
each once, are queued. -/
structure Booted (s : World) : Prop where
  workers : s.workers = ∅
  platform : s.platform = ∅
  timers : s.timers = []
  requeues : s.requeues = []
  queue : (s.queue.map Job.ID).Nodup
  waiting : ∀ id ∈ s.queue.map Job.ID, ∀ job, s.jobs.get id = some job →
    job.Status ≠ .awaitingChildren
  queued : ∀ id ∈ s.queue.map Job.ID, id ∈ s.issued
  stored : ∀ id, s.jobs.get id ≠ none → id ∈ s.issued

lemma Booted.holds (h : Booted s) : Holds [] s := by
  have hcopies (j : String) : copies s j = (s.queue.map Job.ID).count j := by
    have hh : holders s j = ∅ := by
      unfold holders pool
      rw [h.workers, h.platform]
      rfl
    unfold copies Copies.queued
    rw [hh, h.timers, h.requeues]
    simp
  have hzero {j : String} (hj : j ∉ s.queue.map Job.ID) : copies s j + [].count j = 0 := by
    rw [hcopies, List.count_eq_zero_of_not_mem hj]
    rfl
  refine ⟨fun j => ?_, fun j job hj hst => ?_, fun j hj => ?_, h.stored, ?_⟩
  · rw [hcopies]
    exact List.nodup_iff_count_le_one.mp h.queue j
  · exact hzero fun hmem => h.waiting j hmem job hj hst
  · exact hzero fun hmem => hj (h.queued j hmem)
  · refine ⟨fun id w hw => ?_, fun k w hw => ?_, fun k => ?_⟩
    · rw [h.workers] at hw
      cases hw
    · unfold platformList at hw
      rw [h.platform] at hw
      cases hw
    · unfold platformList
      rw [h.platform]
      exact List.nodup_nil

/-- Every job ID occurs at most once in the heap and the in-flight sets of the pool. -/
def Once (s : World) : Prop := ∀ j, queued s j + (holders s j).card ≤ 1

/-- In this step no job is proposed while a copy of it is queued or in flight. -/
def ProposesAlone (cfg : Config) (s : World) : Op → Prop
  | .processQueue => Does cfg (ProcessQueue cfg) (fun _ _ => True) s
  | _ => True

/-- **A job is held once.** In every run whose steps all meet the condition, every state has
each job at most once in the heap and the in-flight sets together, and no job is proposed
while there is another copy of it. -/
theorem held_once (hlanes : cfg.lanes = true) (hs : Booted s) {tr : List (World × Op)} {t : World}
    (hr : Run (step cfg) s tr t) (hG : Meets (NotHeldElsewhere cfg) tr) :
    (∀ u ∈ states tr t, Once u) ∧ ∀ p ∈ tr, ProposesAlone cfg p.1 p.2 := by
  have hinv := hr.invariant (fun _ _ _ h hop hs => holds_step hlanes h hop hs) hG hs.holds
  refine ⟨fun u hu j => ?_, fun p hp => ?_⟩
  · have honce := (hinv u hu).once j
    unfold copies at honce
    omega
  · have hmem : p.1 ∈ states tr t := by
      unfold states
      exact List.mem_append_left _ (List.mem_map_of_mem hp)
    obtain ⟨u, op⟩ := p
    cases op with
    | processQueue => exact wp_mono (does_ProcessQueue (hinv u hmem)) fun _ _ _ => trivial
    | _ => trivial

lemma booted_initial : Booted World.initial :=
  ⟨rfl, rfl, rfl, rfl, .nil, by simp [World.initial], by simp [World.initial],
    fun _ h => absurd rfl h⟩

/-- A pass proposes the job. -/
theorem held_once_proposed :
    ∃ tr t, Run (step .defaults) World.initial tr t ∧ queued t "j" = 0 ∧ holders t "j" = {0} ∧
      (∀ u ∈ states tr t, Once u) ∧ ∀ p ∈ tr, ProposesAlone .defaults p.1 p.2 := by
  refine ⟨_, _, run_played proposes { ids := ["j"] } rfl, by decide, by decide, ?_⟩
  exact held_once rfl booted_initial (run_played proposes { ids := ["j"] } rfl)
    (by simp [NotHeldElsewhere, connects])

/-- **A replaced connection queues its jobs twice**: once when it is replaced, and again when
its own reader ends, since its in-flight set is never cleared. -/
theorem replaced_connection_requeues_twice :
    ∃ tr t, Run (step .defaults) World.initial tr t ∧ ¬∀ u ∈ states tr t, Once u := by
  refine ⟨_, _, run_played (proposes ++ [connects 1, .requeue ["j"], .unregister 0])
    { ids := ["j"] } rfl, fun h => ?_⟩
  exact absurd (h _ Run.last_mem "j") (by decide)

end Workforce.HeldOnce
