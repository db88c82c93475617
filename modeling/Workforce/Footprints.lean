import Workforce.Dispatcher

/-!
What the helpers of the handlers leave alone.

Most calls read, or write only bookkeeping: webhook deliveries, run records, the frames sent.
A program made of such calls changes neither a job nor where a job is held, which is all that
the results on the life cycle of jobs need to know about it.
-/

namespace Workforce.Footprints

open Contract Progs Shared Calls Handlers Dispatcher

/-- A call that changes no job, nothing about where jobs are held, stores no new record and sets no
run running. -/
def Quiet : {β : Type} → Call β → Prop
  | _, .saveJob _ => False
  | _, .updateJob _ _ => False
  | _, .updateJobFiring _ _ => False
  | _, .createRun _ => False
  | _, .updateRun _ .running => False
  | _, .pushItem _ => False
  | _, .popItem => False
  | _, .applyStarvationAging _ => False
  | _, .cancelledAdd _ => False
  | _, .cancelledRemove _ => False
  | _, .subtractCapacity _ _ _ => False
  | _, .restoreCapacity _ _ _ => False
  | _, .putRejected _ _ => False
  | _, .send _ (.propose _ _ _) => False
  | _, .afterFunc _ _ => False
  | _, _ => True

/-- The same jobs and tasks, held in the same places. -/
structure Same (s t : World) : Prop where
  jobs : t.jobs = s.jobs
  tasks : t.tasks = s.tasks
  queue : t.queue = s.queue
  cancelledJobIDs : t.cancelledJobIDs = s.cancelledJobIDs
  conns : t.conns = s.conns
  workers : t.workers = s.workers
  platform : t.platform = s.platform
  timers : t.timers = s.timers
  requeues : t.requeues = s.requeues
  issued : s.issued ⊆ t.issued

lemma Same.refl (s : World) : Same s s := ⟨rfl, rfl, rfl, rfl, rfl, rfl, rfl, rfl, rfl, subset_rfl⟩

variable {s t : World}

lemma Same.trans {u : World} (h : Same s t) (h' : Same t u) : Same s u where
  jobs := h'.jobs.trans h.jobs
  tasks := h'.tasks.trans h.tasks
  queue := h'.queue.trans h.queue
  cancelledJobIDs := h'.cancelledJobIDs.trans h.cancelledJobIDs
  conns := h'.conns.trans h.conns
  workers := h'.workers.trans h.workers
  platform := h'.platform.trans h.platform
  timers := h'.timers.trans h.timers
  requeues := h'.requeues.trans h.requeues
  issued := h.issued.trans h'.issued

variable {cfg : Stores}

variable {β α : Type}

lemma same_of_untouched {c : Call β} (h : Untouched c s t) (hj : part c ≠ .jobs)
    (hq : part c ≠ .queue) (hx : part c ≠ .cancelled) (hw : part c ≠ .conns)
    (ht : part c ≠ .timers) : Same s t :=
  ⟨h.jobs hj, h.tasks, h.queue hq, h.cancelledJobIDs hx, h.conns hw, h.workers, h.platform,
    h.timers ht, h.requeues, h.issued⟩

lemma same_of_quiet {c : Call β} {b : β} (hc : Quiet c) (h : exec cfg c s b t) : Same s t := by
  refine same_of_untouched (untouched h) ?_ ?_ ?_ ?_ ?_ <;> cases c <;> first | exact hc.elim | nofun

lemma same_of_uses {p : M α} {a : α} (hp : p.Uses Quiet) (h : Prog.Ends (exec cfg) p s a t) :
    Same s t :=
  ends_of_uses (R := Same) (φ := Quiet) Same.refl (fun _ _ _ => Same.trans) same_of_quiet hp h

lemma same_of_createRun {run : JobRun} {b : Bool} (h : exec cfg (.createRun run) s b t) :
    Same s t :=
  same_of_untouched (untouched h) nofun nofun nofun nofun nofun

lemma wp_EnqueueJobs (l : List Job) :
    Prog.wp (exec cfg) (fun _ _ => True) (EnqueueJobs l)
      (fun _ t => t = { s with queue := s.queue ++ l }) s := by
  induction l generalizing s with
  | nil => simp [EnqueueJobs, Prog.wp]
  | cons j l ih =>
    refine wp_step trivial fun _ t ht => ?_
    obtain rfl := id ht
    refine wp_mono ih fun _ u hu => ?_
    rw [hu, List.append_assoc]
    rfl

def WritesJobs : {β : Type} → Call β → Prop
  | _, .saveJob _ => True
  | _, .updateJob _ _ => True
  | _, .updateJobFiring _ _ => True
  | _, _ => False

lemma jobs_unchanged {c : Call β} {b : β} (hc : ¬WritesJobs c) (h : exec cfg c s b t) :
    t.jobs = s.jobs ∧ s.issued ⊆ t.issued := by
  refine ⟨(untouched h).jobs ?_, (untouched h).issued⟩
  cases c <;> first | exact absurd trivial hc | nofun

/-- A quiet program, run alone, leaves the jobs and their places as they were. -/
lemma wp_quiet {A : ∀ {β : Type}, Call β → World → Prop}
    (hA : ∀ {β : Type} {c : Call β} {s}, Quiet c → A c s) {p : M α} (hp : p.Uses Quiet)
    {Q : α → World → Prop} (hQ : ∀ a t, Same s t → Q a t) : Prog.wp (exec cfg) A p Q s :=
  wp_of_uses Same.refl (fun _ _ _ => Same.trans) same_of_quiet hA hp hQ

/-! ### The quiet helpers -/

section Calls

variable {φ : ∀ {β : Type}, Call β → Prop}

lemma uses_enqueue (hnow : φ .now) (hulid : φ .ulidMake) (hadd : ∀ e, φ (.enqueueWebhook e))
    (job : Job) (event : String) (data : WebhookData) : (enqueue job event data).Uses φ := by
  unfold enqueue
  split
  · exact uses_step hnow fun _ => uses_step hulid fun _ => uses_lift (hadd _)
  · trivial

lemma uses_artifactFor (hresolve : ∀ task version os arch, φ (.resolve task version os arch))
    (cfg : Config) (job : Job) (taskDef : Task) (w : WorkerConn) :
    (artifactFor cfg job taskDef w).Uses φ := by
  unfold artifactFor
  split
  · trivial
  · refine uses_step (hresolve _ _ _ _) fun r => ?_
    cases r <;> trivial

lemma uses_jobPlatformKeysForDispatch (htask : ∀ name, φ (.getTask name))
    (hlist : ∀ task version, φ (.listPlatforms task version)) (cfg : Config) (job : Job)
    (online : List String) (c : Caches) :
    (jobPlatformKeysForDispatch cfg job online c).Uses φ := by
  have hknown : (knownTask job c).Uses φ := by
    unfold knownTask
    split
    · trivial
    · exact uses_step (htask _) fun _ => trivial
  have hkeys (c : Caches) : (platformKeysOf job c).Uses φ := by
    unfold platformKeysOf
    dsimp only
    split
    · trivial
    · refine uses_step (hlist _ _) fun r => ?_
      cases r <;> trivial
  refine uses_bind _ hknown fun known => ?_
  split
  · trivial
  · split
    · trivial
    · refine uses_bind _ (hkeys _) fun r => ?_
      rcases r with ⟨c, err | keys⟩
      · trivial
      · dsimp only
        split_ifs <;> trivial

end Calls

lemma quiet_enqueue (job : Job) (event : String) (data : WebhookData) :
    (enqueue job event data).Uses Quiet :=
  uses_enqueue trivial trivial (fun _ => trivial) job event data

lemma quiet_resolveRunID (jobID msgRunID : String) :
    (resolveRunID jobID msgRunID).Uses Quiet := by
  unfold resolveRunID
  split
  · trivial
  · exact uses_lift trivial

lemma quiet_closeRun (runID jobID : String) (status : FinalRunStatus) (rt : ResultType)
    (output : JsonOrBytes) (reason : String) (exitCode : ℤ) :
    (closeRun runID jobID status rt output reason exitCode).Uses Quiet := by
  unfold closeRun
  split
  · trivial
  · exact uses_step trivial fun _ => uses_lift trivial

lemma quiet_SendError (w : ConnID) (code message : String) :
    (SendError w code message).Uses Quiet := uses_lift trivial

lemma quiet_resolveDispatchPayload (cfg : Config) (job : Job) :
    (resolveDispatchPayload cfg job).Uses Quiet := by
  unfold resolveDispatchPayload
  split
  · trivial
  · exact uses_step trivial fun _ => trivial

lemma quiet_closeActiveRuns (reason : String) (runs : List JobRun) :
    (closeActiveRuns reason runs).Uses Quiet := by
  induction runs with
  | nil => trivial
  | cons r rest ih =>
    unfold closeActiveRuns
    split
    · exact uses_step trivial fun _ => ih
    · exact ih

lemma quiet_SendCancelToWorker (jobID : String) : (SendCancelToWorker jobID).Uses Quiet := by
  refine uses_step trivial fun w => ?_
  cases w with
  | none => trivial
  | some w => exact uses_lift trivial

lemma quiet_artifactFor (cfg : Config) (job : Job) (taskDef : Task) (w : WorkerConn) :
    (artifactFor cfg job taskDef w).Uses Quiet :=
  uses_artifactFor (fun _ _ _ _ => trivial) cfg job taskDef w

lemma quiet_jobPlatformKeysForDispatch (cfg : Config) (job : Job) (online : List String)
    (c : Caches) : (jobPlatformKeysForDispatch cfg job online c).Uses Quiet :=
  uses_jobPlatformKeysForDispatch (fun _ => trivial) (fun _ _ => trivial) cfg job online c

/-! ### The parts of a cancel -/

/-- What is done about a job before its record is marked cancelled. -/
def precancel (id : String) (job : Job) (running : Prop) [Decidable running] : M Unit :=
  (if running then SendCancelToWorker id else pure ()) >>= fun _ =>
    if job.Status = .pending then .lift (.cancelledAdd job.ID) else pure ()

lemma cancelChildren_cons (child : Job) (rest : List Job) :
    cancelChildren (child :: rest) =
      if child.Status.IsTerminal then cancelChildren rest
      else precancel child.ID child (child.Status = .running ∨ child.Status = .provisioning ∨
          child.Status = .proposing) >>= fun _ =>
        UpdateJob child.ID .cancelled >>= fun _ => cancelChildren rest := by
  conv_lhs => unfold cancelChildren
  unfold precancel
  split_ifs <;> simp [bind_assoc]

/-- The statuses in which a job that is cancelled is taken to be with a worker. -/
def AtWorker (st : JobStatus) : Prop :=
  st = .running ∨ st = .provisioning ∨ st = .proposing ∨ st = .accepted

instance : DecidablePred AtWorker := fun st => by unfold AtWorker; infer_instance

/-- The last part of a cancel, about the job itself. -/
def cancelSelf (jobID : String) (job : Job) : M Unit :=
  precancel jobID job (AtWorker job.Status) >>= fun _ =>
    UpdateJob jobID .cancelled >>= fun _ => FireJobCancelled job

lemma cancelJobByID_eq (jobID : String) :
    cancelJobByID jobID = GetJob jobID >>= fun
      | none => pure ()
      | some job => ListChildJobs jobID >>= fun children =>
          cancelChildren children >>= fun _ => cancelSelf jobID job := by
  refine congrArg (GetJob jobID >>= ·) (funext fun job => ?_)
  cases job with
  | none => rfl
  | some job =>
    refine congrArg (ListChildJobs jobID >>= ·) (funext fun children =>
      congrArg (cancelChildren children >>= ·) (funext fun _ => ?_))
    unfold cancelSelf precancel
    by_cases hw : AtWorker job.Status
    all_goals
      simp only [hw, if_true, if_false]
      unfold AtWorker at hw
      split_ifs <;> simp [bind_assoc]

/-! ### What each handler calls

What holds of the quiet calls, and of the few others a handler makes, holds of all its calls. -/

section Handlers

variable {φ : ∀ {β : Type}, Call β → Prop} (hq : ∀ {β : Type} (c : Call β), Quiet c → φ c)
  (hpush : ∀ job, φ (.pushItem job)) (cfg : Config)

include hpush in
lemma uses_EnqueueJobs (l : List Job) : (EnqueueJobs l).Uses φ := by
  induction l with
  | nil => trivial
  | cons job l ih => exact uses_step (hpush job) fun _ => ih

include hq

lemma uses_handleAcceptMessage {jobID : String} (haccepted : φ (.updateJob jobID .accepted))
    (hrun : ∀ run : JobRun, run.Status = .provisioning → φ (.createRun run)) (w : ConnID)
    (workerID : String) : (handleAcceptMessage cfg w workerID jobID).Uses φ := by
  refine uses_step haccepted fun updated => ?_
  split_ifs
  · trivial
  refine uses_step (hq _ trivial) fun job => ?_
  cases job with
  | none => trivial
  | some job =>
    refine uses_bind _ (uses_mono hq (quiet_resolveDispatchPayload cfg job)) fun pl => ?_
    cases pl with
    | none => trivial
    | some pl =>
      exact uses_step (hq _ trivial) fun _ => uses_step (hrun _ rfl) fun _ =>
        uses_step (hq _ trivial) fun _ => uses_step (hq _ trivial) fun _ => trivial

lemma uses_handleStartingMessage (hrunning : ∀ id, φ (.updateJob id .running))
    (hset : ∀ id, φ (.updateRun id .running)) (workerID jobID msgRunID : String) :
    (handleStartingMessage workerID jobID msgRunID).Uses φ := by
  refine uses_step (hq _ trivial) fun job => ?_
  cases job with
  | none => trivial
  | some job =>
    refine uses_step (hrunning _) fun _ =>
      uses_bind _ (uses_mono hq (quiet_resolveRunID _ _)) fun runID => ?_
    split
    · exact uses_step (hset _) fun _ => uses_mono hq (quiet_enqueue _ _ _)
    · exact uses_mono hq (quiet_enqueue _ _ _)

include hpush in
lemma uses_handleRejectMessage {jobID : String} (hpending : φ (.updateJob jobID .pending))
    (hrestore : ∀ w id cost, φ (.restoreCapacity w id cost))
    (hrejected : ∀ w id, φ (.putRejected w id)) (w : ConnID) :
    (handleRejectMessage w jobID).Uses φ := by
  refine uses_step (hq _ trivial) fun job => ?_
  cases job with
  | none => exact uses_mono hq (quiet_SendError _ _ _)
  | some job =>
    refine uses_step hpending fun updated => ?_
    split
    · trivial
    · exact uses_step (hrestore _ _ _) fun _ => uses_step (hrejected _ _) fun _ =>
        uses_lift (hpush _)

omit hq in
include hpush in
lemma uses_checkSiblings (hlist : ∀ id, φ (.listChildJobs id)) (hget : ∀ id, φ (.getJob id))
    (hconsolidate : ∀ id, φ (.updateJob id .consolidate)) (parentJobID : String) :
    (checkSiblings parentJobID).Uses φ := by
  unfold checkSiblings
  split
  · trivial
  refine uses_step (hlist _) fun siblings => ?_
  split
  · refine uses_step (hget _) fun parent => ?_
    cases parent with
    | none => trivial
    | some parent =>
      refine uses_step (hconsolidate _) fun b => ?_
      split
      · exact uses_lift (hpush _)
      · trivial
  · trivial

include hpush in
lemma uses_handleJobCompleted {msg : ResultMessage}
    (hcompleted : φ (.updateJob msg.JobID (.completed msg.Payload)))
    (hrestore : ∀ w id cost, φ (.restoreCapacity w id cost))
    (hconsolidate : ∀ id, φ (.updateJob id .consolidate)) (w : ConnID) (job : Job) :
    (handleJobCompleted w job msg).Uses φ := by
  unfold handleJobCompleted
  split
  · trivial
  refine uses_step hcompleted fun updated => ?_
  split
  · trivial
  refine uses_bind _ (uses_mono hq (quiet_resolveRunID _ _)) fun runID => ?_
  refine uses_bind _ (uses_mono hq (quiet_closeRun _ _ _ _ _ _ _)) fun _ => ?_
  refine uses_step (hrestore _ _ _) fun restored => ?_
  split
  · trivial
  exact uses_bind _ (uses_mono hq (quiet_enqueue _ _ _)) fun _ =>
    uses_checkSiblings hpush (fun _ => hq _ trivial) (fun _ => hq _ trivial) hconsolidate _

lemma uses_handleFailJob (hfailed : ∀ id, φ (.updateJob id .failed))
    (hparent : ∀ id reason, φ (.updateJob id (.failedFor reason))) (job : Job)
    (msg : ResultMessage) : (handleFailJob job msg).Uses φ := by
  refine uses_step (hfailed _) fun _ =>
    uses_bind _ (uses_mono hq (quiet_enqueue _ _ _)) fun _ => ?_
  split
  · trivial
  refine uses_step (hq _ trivial) fun parent => ?_
  cases parent with
  | none => trivial
  | some parent =>
    refine uses_step (hparent _ _) fun b => ?_
    split
    · trivial
    · exact uses_mono hq (quiet_enqueue _ _ _)

lemma uses_handleJobError (w : ConnID) (job : Job) (msg : ResultMessage)
    (hrestore : ∀ w id cost, φ (.restoreCapacity w id cost))
    (hattempts : ¬job.Status.IsTerminal →
      ∀ n reason, φ (.updateJob job.ID (.attempts n reason)))
    (htimer : ¬job.Status.IsTerminal → ∀ delay, φ (.afterFunc job.ID delay))
    (hfailed : ∀ id, φ (.updateJob id .failed))
    (hparent : ∀ id reason, φ (.updateJob id (.failedFor reason))) :
    (handleJobError cfg w job msg).Uses φ := by
  have hfail (job : Job) := uses_handleFailJob hq hfailed hparent job msg
  have hclose (runID : String) (st : FinalRunStatus) (rt : ResultType) (out : JsonOrBytes)
      (reason : String) (code : ℤ) :
      (closeRun runID msg.JobID st rt out reason code).Uses φ :=
    uses_mono hq (quiet_closeRun _ _ _ _ _ _ _)
  unfold handleJobError
  by_cases hterm : job.Status.IsTerminal
  · rw [if_pos hterm]
    split
    · exact uses_bind _ (uses_mono hq (quiet_resolveRunID _ _)) fun _ =>
        hclose _ _ _ _ _ _
    · trivial
  rw [if_neg hterm]
  refine uses_step (hrestore _ _ _) fun _ =>
    uses_bind _ (uses_mono hq (quiet_resolveRunID _ _)) fun _ => ?_
  refine uses_bind _ (hclose _ _ _ _ _ _) fun _ =>
    uses_step (hattempts hterm _ _) fun _ => ?_
  dsimp only
  split
  · exact hfail _
  split
  · exact hfail _
  refine uses_step (hq _ trivial) fun taskDef => ?_
  split
  · exact uses_lift (htimer hterm _)
  · exact hfail _

structure New (job : Job) : Prop where
  Status : job.Status = .pending
  CompletedAt : job.CompletedAt = none
  Duration : job.Duration = none
  Attempts : job.Attempts = 0

/-- The calls by which an emission looks up what it is asked for. -/
def Looks : {β : Type} → Call β → Prop
  | _, .getTask _ => True
  | _, .listPlatforms _ _ => True
  | _, _ => False

omit hq in
lemma quiet_of_looks {c : Call β} (hc : Looks c) : Quiet c := by
  cases c <;> first | exact hc.elim | trivial

omit hq in
/-- The loop over the requested children, whatever the calls do: `I` says where it stands with the
children made so far, `F` where it gives up. -/
lemma wp_createChildren {σ : Type} {run : ∀ {β : Type}, Call β → σ → β → σ → Prop}
    {A : ∀ {β : Type}, Call β → σ → Prop} {I : List Job → σ → Prop} {F : σ → Prop}
    {Q : Except (Option String) (List Job) → σ → Prop} {parent : Job} {start : Time}
    (hlook : ∀ {β : Type} {c : Call β} {l x}, Looks c → I l x → A c x ∧ ∀ b y, run c x b y → I l y)
    (hsave : ∀ {l x}, I l x → A .ulidMake x ∧ ∀ id y, run .ulidMake x id y → ∀ child : Job,
      child.ID = id → child.ParentJobID = parent.ID → New child → A (.saveJob child) y ∧
        ∀ r z, run (.saveJob child) y r z → if r = none then I (l ++ [child]) z else F z)
    (hgive : ∀ {l x}, I l x → F x)
    (hfail : ∀ {reason x}, F x → A (.updateJobFiring parent.ID reason) x ∧
      ∀ b y, run (.updateJobFiring parent.ID reason) x b y → ∀ err, Q (.error err) y)
    {reqs : List ChildJobRequest} {children : List Job} {i : ℕ} {x : σ}
    (hok : ∀ l y, I l y → l.length = children.length + reqs.length → Q (.ok l) y)
    (h : I children x) : Prog.wp run A (createChildren cfg parent start i reqs children) Q x := by
  induction reqs generalizing i children x with
  | nil => exact hok children x h rfl
  | cons req rest ih =>
    have hgives {reason : String} {err : Option String} {y : σ} (hy : F y) : Prog.wp run A
        (failEmission parent reason err >>= fun e => pure (.error e)) Q y :=
      wp_step (hfail hy).1 fun b z hz => (hfail hy).2 b z hz _
    obtain ⟨hA, hlooked⟩ := hlook (c := .getTask req.Task) trivial h
    refine wp_step hA fun task y hy => ?_
    replace h := hlooked task y hy
    cases task with
    | none => exact hgives (hgive h)
    | some taskDef =>
      have hversion : Prog.wp run A (childVersion cfg taskDef req) (fun _ z => I children z) y := by
        unfold childVersion
        split
        · obtain ⟨hA, hlisted⟩ := hlook (c := .listPlatforms taskDef.Name req.Version) trivial h
          refine wp_step hA fun r z hz => ?_
          rcases r with err | _ | ⟨p, ps⟩ <;> exact hlisted _ z hz
        · exact h
      refine (wp_bind _ _ _ _).mpr (wp_mono hversion fun version z hz => ?_)
      cases version with
      | error e => exact hgives (hgive hz)
      | ok version =>
        obtain ⟨hA, hmade⟩ := hsave hz
        refine wp_step hA fun id u hu => wp_step (hmade id u hu _ rfl rfl ⟨rfl, rfl, rfl, rfl⟩).1
          fun r v hv => ?_
        have hv' := (hmade id u hu _ (by rfl) (by rfl) (by exact ⟨rfl, rfl, rfl, rfl⟩)).2 r v hv
        cases r with
        | some err => exact hgives (by simpa using hv')
        | none =>
          refine ih (fun l w hl hlen => hok l w hl ?_) (by simpa using hv')
          rw [hlen, List.length_append, List.length_cons, List.length_cons, List.length_nil]
          omega

omit hq in
/-- Of the quiet calls an emission only makes these four. -/
lemma uses_createChildren (htask : ∀ name, φ (.getTask name))
    (hlist : ∀ task version, φ (.listPlatforms task version)) (hid : φ .ulidMake)
    (hsave : ∀ job, New job → φ (.saveJob job))
    (hfiring : ∀ id reason, φ (.updateJobFiring id reason)) (parent : Job) (start : Time) (i : ℕ)
    (reqs : List ChildJobRequest) (children : List Job) :
    (createChildren cfg parent start i reqs children).Uses φ := by
  refine uses_of_wp (wp_createChildren cfg (I := fun _ _ => True) (F := fun _ => True)
    (fun {β c l x} hc _ => ⟨?_, fun _ _ _ => trivial⟩)
    (fun _ => ⟨hid, fun _ _ _ _ _ _ hnew => ⟨hsave _ hnew, fun _ _ _ => by simp⟩⟩) (fun _ => trivial)
    (fun _ => ⟨hfiring _ _, fun _ _ _ _ => trivial⟩) (fun _ _ _ _ => trivial) trivial)
  cases c with
  | getTask name => exact htask name
  | listPlatforms task version => exact hlist task version
  | _ => exact hc.elim

omit hq in
include hpush in
lemma uses_handleSubjobsEmitted (hnow : φ .now) (htask : ∀ name, φ (.getTask name))
    (hlist : ∀ task version, φ (.listPlatforms task version)) (hid : φ .ulidMake)
    (hsave : ∀ job, New job → φ (.saveJob job))
    (hfiring : ∀ id reason, φ (.updateJobFiring id reason))
    (hawaiting : ∀ id, φ (.updateJob id .awaitingChildren)) (parent : Job)
    (reqs : List ChildJobRequest) : (handleSubjobsEmitted cfg parent reqs).Uses φ := by
  unfold handleSubjobsEmitted
  split
  · trivial
  refine uses_step hnow fun start => uses_bind _
    (uses_createChildren cfg htask hlist hid hsave hfiring _ _ _ _ _) fun children => ?_
  cases children with
  | error err => trivial
  | ok children =>
    refine uses_step (hawaiting _) fun updated => ?_
    split_ifs
    · trivial
    · exact uses_bind _ (uses_EnqueueJobs hpush children) fun _ => trivial

include hpush in
lemma uses_handleResultMessage (hsave : ∀ job, New job → φ (.saveJob job))
    (hupdate : ∀ id m, φ (.updateJob id m)) (hfiring : ∀ id reason, φ (.updateJobFiring id reason))
    (hrestore : ∀ w id cost, φ (.restoreCapacity w id cost))
    (htimer : ∀ id delay, φ (.afterFunc id delay)) (w : ConnID) (msg : ResultMessage) :
    (handleResultMessage cfg w msg).Uses φ := by
  refine uses_step (hq _ trivial) fun job => ?_
  cases job with
  | none => exact uses_mono hq (quiet_SendError _ _ _)
  | some job =>
    dsimp only
    split
    · exact uses_handleJobError hq cfg w job msg hrestore (fun _ _ _ => hupdate _ _)
        (fun _ => htimer _) (fun _ => hupdate _ _) fun _ _ => hupdate _ _
    · refine uses_bind _ (uses_mono hq (quiet_resolveRunID _ _)) fun runID => ?_
      refine uses_bind _ (uses_handleSubjobsEmitted hpush cfg (hq _ trivial)
        (fun _ => hq _ trivial) (fun _ _ => hq _ trivial) (hq _ trivial) hsave hfiring
        (fun _ => hupdate _ _) _ _) fun err => ?_
      refine uses_step (hrestore _ _ _) fun _ => ?_
      cases err with
      | some err => exact uses_mono hq (quiet_SendError _ _ _)
      | none => exact uses_mono hq (quiet_closeRun _ _ _ _ _ _ _)
    · exact uses_handleJobCompleted hq hpush (hupdate _ _) hrestore (fun _ => hupdate _ _) w job

include hpush in
lemma uses_retryTimer {jobID : String} (hpending : φ (.updateJob jobID .pending)) :
    (retryTimer jobID).Uses φ := by
  refine uses_step (hq _ trivial) fun j => ?_
  cases j with
  | none => trivial
  | some j =>
    dsimp only
    split
    · trivial
    · exact uses_step hpending fun _ => uses_lift (hpush _)

include hpush in
lemma uses_OnJobsRequeued {ids : List String} (hrequeued : ∀ id ∈ ids, φ (.updateJob id .requeued)) :
    (OnJobsRequeued ids).Uses φ := by
  induction ids with
  | nil => trivial
  | cons id rest ih =>
    obtain ⟨hid, hrest⟩ := List.forall_mem_cons.mp hrequeued
    refine uses_step (hq _ trivial) fun runs =>
      uses_bind _ (uses_mono hq (quiet_closeActiveRuns _ _)) fun _ => ?_
    refine uses_step (hq _ trivial) fun job => ?_
    cases job with
    | none => exact ih hrest
    | some job => exact uses_step hid fun _ => uses_step (hpush _) fun _ => ih hrest

lemma uses_failJobDirect (hfail : ∀ id reason, φ (.updateJob id (.failDirect reason)))
    (job : Job) (reason : String) : (failJobDirect job reason).Uses φ :=
  uses_step (hfail _ _) fun _ => uses_mono hq (quiet_enqueue _ _ _)

omit hq in
lemma uses_precancel {id : String} (hcancel : (SendCancelToWorker id).Uses φ)
    (hadd : ∀ id, φ (.cancelledAdd id)) (job : Job) (running : Prop) [Decidable running] :
    (precancel id job running).Uses φ := by
  refine uses_bind _ ?_ fun _ => ?_
  · split_ifs
    · exact hcancel
    · trivial
  · split_ifs
    · exact uses_lift (hadd _)
    · trivial

lemma uses_cancelChildren (hadd : ∀ id, φ (.cancelledAdd id)) {l : List Job}
    (hcancelled : ∀ c ∈ l, ¬c.Status.IsTerminal → φ (.updateJob c.ID .cancelled)) :
    (cancelChildren l).Uses φ := by
  induction l with
  | nil => trivial
  | cons child rest ih =>
    obtain ⟨hchild, hrest⟩ := List.forall_mem_cons.mp hcancelled
    rw [cancelChildren_cons]
    split_ifs with hterm
    · exact ih hrest
    · exact uses_bind _ (uses_precancel (uses_mono hq (quiet_SendCancelToWorker _)) hadd _ _)
        fun _ => uses_step (hchild hterm) fun _ => ih hrest

lemma uses_cancelSelf (hadd : ∀ id, φ (.cancelledAdd id)) {jobID : String}
    (hcancelled : φ (.updateJob jobID .cancelled)) (job : Job) : (cancelSelf jobID job).Uses φ :=
  uses_bind _ (uses_precancel (uses_mono hq (quiet_SendCancelToWorker _)) hadd _ _)
    fun _ => uses_step hcancelled fun _ =>
    uses_mono hq (quiet_enqueue job eventJobCancelled .none)

lemma uses_cancelJobByID (hcancelled : ∀ id, φ (.updateJob id .cancelled))
    (hadd : ∀ id, φ (.cancelledAdd id)) (jobID : String) : (cancelJobByID jobID).Uses φ := by
  rw [cancelJobByID_eq]
  refine uses_step (hq _ trivial) fun job => ?_
  cases job with
  | none => trivial
  | some job =>
    exact uses_step (hq _ trivial) fun children =>
      uses_bind _ (uses_cancelChildren hq hadd fun _ _ _ => hcancelled _) fun _ =>
        uses_cancelSelf hq hadd (hcancelled _) job

lemma uses_tryProposeJob (job : Job) (hsend : ∀ w task art, φ (.send w (.propose job task art)))
    (hproposing : φ (.updateJob job.ID .proposing))
    (hassign : ∀ w, φ (.subtractCapacity w job.ID job.Cost)) (keys : List String) :
    (tryProposeJob cfg job keys).Uses φ := by
  refine uses_step (hq _ trivial) fun task => ?_
  cases task with
  | none => trivial
  | some taskDef =>
    split_ifs
    · trivial
    refine uses_step (hq _ trivial) fun workers => ?_
    split_ifs
    · trivial
    refine uses_step (hq _ trivial) fun selected =>
      uses_bind _ (uses_mono hq (quiet_artifactFor cfg job taskDef selected))
        fun art => ?_
    cases art with
    | error err => trivial
    | ok info =>
      refine uses_step (hsend _ _ _) fun sent => ?_
      split_ifs
      · trivial
      refine uses_step hproposing fun updated => ?_
      split_ifs
      · trivial
      refine uses_step (hassign _) fun assigned => ?_
      split_ifs
      · trivial
      · exact uses_bind _ (uses_mono hq (quiet_enqueue _ _ _)) fun _ => trivial

lemma uses_PopNextJobFromQueue (hpop : φ .popItem) (hremove : ∀ id, φ (.cancelledRemove id))
    (fuel : ℕ) : (PopNextJobFromQueue fuel).Uses φ := by
  induction fuel with
  | zero => trivial
  | succ fuel ih =>
    refine uses_step hpop fun job => ?_
    cases job with
    | none => trivial
    | some job =>
      refine uses_step (hq _ trivial) fun cancelled => ?_
      split_ifs
      · exact uses_step (hremove _) fun _ => ih
      · trivial

/-- The calls of a pass that move no job and leave the queue as it is. -/
def Idles : {β : Type} → Call β → Prop
  | _, .now => True
  | _, .ulidMake => True
  | _, .enqueueWebhook _ => True
  | _, .getTask _ => True
  | _, .listPlatforms _ _ => True
  | _, .queueSize => True
  | _, .onlinePlatformKeys => True
  | _, .cancelledHas _ => True
  | _, _ => False

omit hq in
lemma quiet_of_idles {c : Call β} (hc : Idles c) : Quiet c := by
  cases c <;> first | exact hc.elim | trivial

omit hq in
/-- A pass, whatever the calls do: `I` says where it stands with the jobs it has in hand. -/
theorem wp_pass {σ : Type} {run : ∀ {β : Type}, Call β → σ → β → σ → Prop}
    {A : ∀ {β : Type}, Call β → σ → Prop} {I : List Job → σ → Prop}
    (hidle : ∀ {β : Type} {c : Call β} {l x}, Idles c → I l x → A c x ∧ ∀ b y, run c x b y → I l y)
    (hage : ∀ {timeout l x}, I l x →
      Prog.wp run A (.lift (.applyStarvationAging timeout)) (fun _ => I l) x)
    (hpop : ∀ {l x}, I l x → Prog.wp run A (.lift .popItem) (fun o => I (o.toList ++ l)) x)
    (hremove : ∀ {job l x}, I (job :: l) x →
      Prog.wp run A (.lift (.cancelledRemove job.ID)) (fun _ => I l) x)
    (hfail : ∀ {job l x reason}, I (job :: l) x →
      Prog.wp run A (UpdateJob job.ID (.failDirect reason)) (fun _ => I l) x)
    (hpush : ∀ {job l x}, I (job :: l) x → Prog.wp run A (.lift (.pushItem job)) (fun _ => I l) x)
    (hpropose : ∀ {job l x keys}, I (job :: l) x → Prog.wp run A (tryProposeJob cfg job keys)
      (fun r => I (if r.isOk then l else job :: l)) x)
    (hperm : ∀ {l l' x}, l.Perm l' → I l x → I l' x) {x : σ} (h : I [] x) :
    Prog.wp run A (ProcessQueue cfg) (fun _ => I []) x := by
  have hidles {α : Type} {p : M α} {l : List Job} {x : σ} (hp : p.Uses Idles) (h : I l x) :
      Prog.wp run A p (fun _ => I l) x := wp_invariant (I := I l) hidle hp h fun _ _ h => h
  have hdirect {job : Job} {reason : String} {l : List Job} {x : σ} (h : I (job :: l) x) :
      Prog.wp run A (failJobDirect job reason) (fun _ => I l) x :=
    (wp_bind _ _ _ _).mpr (wp_mono (hfail h) fun _ _ h =>
      hidles (uses_enqueue trivial trivial (fun _ => trivial) _ _ _) h)
  have hturn {job : Job} {online : List String} {c : Caches} {l : List Job} {x : σ}
      (h : I (job :: l) x) : Prog.wp run A (dispatchJob cfg job online c)
        (fun r => I (if r.2 = none then l else job :: l)) x := by
    refine (wp_bind _ _ _ _).mpr (wp_mono (hidles (uses_jobPlatformKeysForDispatch
      (fun _ => trivial) (fun _ _ => trivial) cfg job online c) h) fun r y h => ?_)
    obtain ⟨c, keys, _ | d⟩ := r
    · refine (wp_bind _ _ _ _).mpr (wp_mono (hpropose h) fun e z h => ?_)
      rcases e with (_ | _ | _ | _) | _
      · exact (wp_bind _ _ _ _).mpr (hdirect h)
      all_goals exact h
    · dsimp only
      split_ifs
      · exact (wp_bind _ _ _ _).mpr (hdirect h)
      · exact h
  have hnext {l : List Job} (fuel : ℕ) {x : σ} (h : I l x) :
      Prog.wp run A (PopNextJobFromQueue fuel) (fun o => I (o.toList ++ l)) x := by
    induction fuel generalizing x with
    | zero => exact h
    | succ fuel ih =>
      refine (wp_bind _ _ _ _).mpr (wp_mono (hpop h) fun o y h => ?_)
      cases o with
      | none => exact h
      | some job =>
        refine (wp_bind _ _ _ _).mpr (wp_mono (hidles (uses_lift trivial) h) fun cancelled z h => ?_)
        split_ifs
        · exact (wp_bind _ _ _ _).mpr (wp_mono (hremove h) fun _ _ h => ih h)
        · exact h
  have hloop {online : List String} (fuel : ℕ) {c : Caches} {r : PassResult} {x : σ}
      (h : I r.deferred x) : Prog.wp run A (passLoop cfg online fuel c r)
        (fun r => I r.deferred) x := by
    induction fuel generalizing c r x with
    | zero => exact h
    | succ fuel ih =>
      refine (wp_bind _ _ _ _).mpr (wp_mono (hnext _ h) fun o y h => ?_)
      cases o with
      | none => exact h
      | some job =>
        refine (wp_bind _ _ _ _).mpr (wp_mono (hturn h) fun a z h => ?_)
        obtain ⟨c, _ | d⟩ := a
        · exact ih h
        · exact ih (hperm (List.perm_append_singleton job _).symm h)
  have hback (l : List Job) {x : σ} (h : I l x) :
      Prog.wp run A (EnqueueJobs l) (fun _ => I []) x := by
    induction l generalizing x with
    | nil => exact h
    | cons job l ih => exact (wp_bind _ _ _ _).mpr (wp_mono (hpush h) fun _ _ h => ih h)
  refine (wp_bind _ _ _ _).mpr (wp_mono (hidles (uses_lift trivial) h) fun size y h => ?_)
  split_ifs
  · exact h
  refine (wp_bind _ _ _ _).mpr (wp_mono (hage h) fun _ z h => ?_)
  refine (wp_bind _ _ _ _).mpr (wp_mono (hidles (uses_lift trivial) h) fun online u h => ?_)
  refine (wp_bind _ _ _ _).mpr (wp_mono (hloop size h) fun r v h => ?_)
  exact (wp_bind _ _ _ _).mpr (hback _ h)

include hpush in
lemma uses_ProcessQueue (hpop : φ .popItem) (hremove : ∀ id, φ (.cancelledRemove id))
    (haging : ∀ timeout, φ (.applyStarvationAging timeout))
    (hsend : ∀ w job task art, φ (.send w (.propose job task art)))
    (hproposing : ∀ id, φ (.updateJob id .proposing))
    (hassign : ∀ w id cost, φ (.subtractCapacity w id cost))
    (hfail : ∀ id reason, φ (.updateJob id (.failDirect reason))) :
    (ProcessQueue cfg).Uses φ :=
  uses_of_wp (wp_pass cfg (I := fun _ _ => True)
    (fun hc _ => ⟨hq _ (quiet_of_idles hc), fun _ _ _ => trivial⟩)
    (fun _ => ⟨haging _, fun _ _ _ => trivial⟩) (fun _ => ⟨hpop, fun _ _ _ => trivial⟩)
    (fun _ => ⟨hremove _, fun _ _ _ => trivial⟩) (fun _ => ⟨hfail _ _, fun _ _ _ => trivial⟩)
    (fun _ => ⟨hpush _, fun _ _ _ => trivial⟩)
    (fun _ => wp_true_of_uses (fun h => h) (uses_tryProposeJob hq cfg _ (fun w => hsend w _)
      (hproposing _) (fun w => hassign w _ _) _)) (fun _ _ => trivial) trivial)

end Handlers

/-! ### The programs that only update jobs

They end a job, move it along or cancel it; they make no job wait for children. -/

/-- A quiet call, an update of a job other than making it wait, or a change to a connection
that takes a job from it. -/
def Mild : {β : Type} → Call β → Prop
  | _, .updateJob _ .awaitingChildren => False
  | _, .updateJob _ _ => True
  | _, .updateJobFiring _ _ => True
  | _, .cancelledAdd _ => True
  | _, .cancelledRemove _ => True
  | _, .restoreCapacity _ _ _ => True
  | _, .putRejected _ _ => True
  | _, .updateRun _ _ => True
  | _, c => Quiet c

lemma mild_call (c : Call β) (hc : Quiet c) : Mild c := by
  cases c <;> first | exact hc.elim | exact hc | trivial

lemma mild_of_quiet {p : M α} (hp : p.Uses Quiet) : p.Uses Mild :=
  uses_mono mild_call hp

lemma mild_handleFailJob (job : Job) (msg : ResultMessage) : (handleFailJob job msg).Uses Mild :=
  uses_handleFailJob mild_call (fun _ => trivial) (fun _ _ => trivial) job msg

end Workforce.Footprints
