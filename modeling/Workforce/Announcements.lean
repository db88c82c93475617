import Workforce.QueueCopies

/-!
The webhook entries for jobs that end.

A job that asked for it is to be told of its end by one entry, with the result or the reason the
store has for it. For every program that ends jobs it is said which jobs it can have ended and
how (`Changes`), and which ends it has announced (`News`); the two are then compared.
-/

namespace Workforce.Announcements

open Tables Contract Progs Shared Calls Handlers Footprints Origins Knowledge

variable {cfg : Config} {st : Stores} {α β : Type} {s t u : World}

/-! ### Ends and their events -/

abbrev End := String × WebhookData

/-- The event and the data due for a job that has ended. -/
def ending (j : Job) : Option End :=
  match j.Status with
  | .completed => some (eventJobCompleted, .result j.Result)
  | .failed => some (eventJobFailed, .failureReason j.FailureReason)
  | .cancelled => some (eventJobCancelled, .none)
  | _ => none

def IsEnd (event : String) : Prop :=
  event = eventJobCompleted ∨ event = eventJobFailed ∨ event = eventJobCancelled

instance : DecidablePred IsEnd := fun event => by unfold IsEnd; infer_instance

variable {j job parent : Job}

lemma ending_eq_none (h : ¬j.Status.IsTerminal) : ending j = none := by
  unfold ending
  rcases hst : j.Status <;> rw [hst] at h <;> first | rfl | exact absurd h (by decide)

lemma isEnd_of_ending {e : End} (h : ending j = some e) : IsEnd e.1 := by
  unfold ending at h
  rcases hst : j.Status <;> rw [hst] at h <;> cases h
  · exact .inl rfl
  · exact .inr (.inl rfl)
  · exact .inr (.inr rfl)

/-- For every job that goes from a status in progress to a terminal one, and that asked for the
event, exactly one entry with its ID and the event has been enqueued, with the data due. -/
def Announced (s t : World) : Prop :=
  ∃ new, t.webhooks = s.webhooks ++ new ∧
    ∀ id j j' event data, s.jobs.get id = some j → ¬j.Status.IsTerminal →
      t.jobs.get id = some j' → ending j' = some (event, data) → ShouldDispatchEvent j' event →
        (new.filter fun e => e.JobID = id ∧ e.Event = event).map WebhookEvent.Data = [data]

lemma shouldDispatch_congr {j' : Job} (h : fixed j' = fixed j) (event : String) :
    ShouldDispatchEvent j' event ↔ ShouldDispatchEvent j event := by
  have hurl : j'.WebhookURL = j.WebhookURL := (congrArg Job.WebhookURL h :)
  have hevents : j'.WebhookEvents = j.WebhookEvents := (congrArg Job.WebhookEvents h :)
  unfold ShouldDispatchEvent
  rw [hurl, hevents]

/-! ### Which jobs a program ends -/

/-- Every job that is not listed in `E`, with the end it then has, has the end it had. -/
def Changes (E : Set (String × Option End)) (s t : World) : Prop :=
  ∀ id j, s.jobs.get id = some j → ∃ j', t.jobs.get id = some j' ∧ fixed j' = fixed j ∧
    (ending j' = ending j ∨ (id, ending j') ∈ E)

variable {E E' : Set (String × Option End)}

lemma Changes.of_eq (h : t.jobs = s.jobs) : Changes E s t :=
  fun _ j hj => ⟨j, h ▸ hj, rfl, .inl rfl⟩

lemma Changes.mono (h : Changes E s t) (hE : E ⊆ E') : Changes E' s t := by
  intro id j hj
  obtain ⟨j', hj', hfixed, hend⟩ := h id j hj
  exact ⟨j', hj', hfixed, hend.imp_right fun h => hE h⟩

lemma Changes.trans (h : Changes E s t) (h' : Changes E t u) : Changes E s u := by
  intro id j hj
  obtain ⟨j', hj', hfixed, hend⟩ := h id j hj
  obtain ⟨j'', hj'', hfixed', hend'⟩ := h' id j' hj'
  refine ⟨j'', hj'', hfixed'.trans hfixed, ?_⟩
  rcases hend' with hend' | hend'
  · rw [hend']
    exact hend
  · exact .inr hend'

lemma changes_modify {id : String} {m : JobMutation} {now : Time}
    (h : t.jobs = s.jobs.modify id (m.apply now))
    (hE : ∀ j, s.jobs.get id = some j → ending (m.apply now j) = ending j ∨
      (id, ending (m.apply now j)) ∈ E) : Changes E s t := by
  intro k j hj
  rw [h, get_modify _ _ _ (m.apply_ID now)]
  split_ifs with hk
  · subst hk
    exact ⟨m.apply now j, by rw [hj]; rfl, fixed_apply m now j, hE j hj⟩
  · exact ⟨j, hj, rfl, .inl rfl⟩

/-- The ends a call can give a job are listed. -/
def Within (E : Set (String × Option End)) : {β : Type} → Call β → Prop
  | _, .updateJob id m => ∀ now j, ending (m.apply now j) = ending j ∨
      (id, ending (m.apply now j)) ∈ E
  | _, .updateJobFiring id reason => (id, some (eventJobFailed, .failureReason reason)) ∈ E
  | _, _ => True

lemma within_call (c : Call β) (hc : Quiet c) : Within E c := by
  cases c <;> first | exact hc.elim | trivial

variable {c : Call β} {b : β}

lemma changes_call (h : execNew st c s b t) (hc : Within E c) : Changes E s t := by
  obtain ⟨hnew, h⟩ := h
  cases c with
  | saveJob job =>
    rcases h with ⟨-, rfl⟩ | ⟨-, rfl⟩
    · exact fun id j hj => ⟨j, get_put_of_new hnew hj, rfl, .inl rfl⟩
    · exact .of_eq rfl
  | updateJob id m =>
    obtain ⟨now, -, rfl⟩ := h
    exact changes_modify rfl fun j _ => hc now j
  | updateJobFiring id reason =>
    obtain ⟨-, -, rfl⟩ | ⟨now, issued, webhooks, -, -, -, rfl⟩ := exec_updateJobFiring h
    · exact .of_eq rfl
    · exact changes_modify (m := .failedFor reason) rfl fun j _ => .inr hc
  | _ => exact .of_eq (jobs_unchanged (by exact id) h).1

variable {p : M α} {a : α}

lemma changes_of_within (hp : p.Uses (Within E)) (h : Prog.Ends (execNew st) p s a t) :
    Changes E s t :=
  ends_of_uses (R := Changes E) (φ := Within E) (fun _ => .of_eq rfl)
    (fun _ _ _ => Changes.trans) (fun hc h => changes_call h hc) hp h

/-! ### What a program announces -/

abbrev Notice := String × String × WebhookData

def notice (e : WebhookEvent) : Notice := (e.JobID, e.Event, e.Data)

/-- The ends announced from one state to the other, in order. -/
def News (s t : World) (L : List Notice) : Prop :=
  ∃ new, t.webhooks = s.webhooks ++ new ∧
    (new.filter fun e => IsEnd e.Event).map notice = L

lemma News.of_eq (h : t.webhooks = s.webhooks) : News s t [] := ⟨[], by simp [h], rfl⟩

lemma News.trans {L L' : List Notice} (h : News s t L) (h' : News t u L') :
    News s u (L ++ L') := by
  obtain ⟨new, ht, rfl⟩ := h
  obtain ⟨new', hu, rfl⟩ := h'
  refine ⟨new ++ new', by rw [hu, ht, List.append_assoc], ?_⟩
  rw [List.filter_append, List.map_append]

/-- A call that enqueues no entry about an end. -/
def Silent : {β : Type} → Call β → Prop
  | _, .updateJobFiring _ _ => False
  | _, .enqueueWebhook e => ¬IsEnd e.Event
  | _, _ => True

lemma news_call (hc : Silent c) (h : exec st c s b t) : News s t [] := by
  cases c with
  | updateJobFiring => exact hc.elim
  | enqueueWebhook e =>
    subst h
    exact ⟨[e], rfl, by simp [show ¬IsEnd e.Event from hc]⟩
  | saveJob => rcases h with ⟨-, rfl⟩ | ⟨-, rfl⟩ <;> exact .of_eq rfl
  | updateJob =>
    obtain ⟨now, -, rfl⟩ := h
    exact .of_eq rfl
  | _ => exact .of_eq ((untouched h).webhooks nofun nofun)

/-- A program that ends only jobs listed in `E`, and announces `L`. -/
structure Moves (E : Set (String × Option End)) (L : List Notice) (s t : World) : Prop where
  changes : Changes E s t
  news : News s t L

variable {L L' : List Notice}

lemma Moves.trans (h : Moves E L s t) (h' : Moves E L' t u) : Moves E (L ++ L') s u :=
  ⟨h.changes.trans h'.changes, h.news.trans h'.news⟩

lemma Moves.mono (h : Moves E L s t) (hE : E ⊆ E') : Moves E' L s t :=
  ⟨h.changes.mono hE, h.news⟩

lemma Moves.refl (s : World) : Moves E [] s s := ⟨.of_eq rfl, .of_eq rfl⟩

/-- A call that ends only jobs listed in `E`, and announces nothing. -/
def Mute (E : Set (String × Option End)) {β : Type} (c : Call β) : Prop := Within E c ∧ Silent c

lemma moves_call (h : execNew st c s b t) (hc : Mute E c) : Moves E [] s t :=
  ⟨changes_call h hc.1, news_call hc.2 h.2⟩

lemma moves_of_mute (hp : p.Uses (Mute E)) (h : Prog.Ends (execNew st) p s a t) : Moves E [] s t :=
  ends_of_uses (R := Moves E []) (φ := Mute E) Moves.refl (fun _ _ _ => Moves.trans)
    (fun hc h => moves_call h hc) hp h

/-- Every end that is new is listed, so it is enough to compare the lists. -/
lemma announced_of_moves (h : Moves E L s t)
    (hE : ∀ id j event data, s.jobs.get id = some j → ¬j.Status.IsTerminal →
      (id, some (event, data)) ∈ E → ShouldDispatchEvent j event →
        (L.filter fun n => n.1 = id ∧ n.2.1 = event).map (fun n => n.2.2) = [data]) :
    Announced s t := by
  obtain ⟨hchanges, new, ht, rfl⟩ := h
  refine ⟨new, ht, fun id j j' event data hj hopen hj' hend hask => ?_⟩
  obtain ⟨k, hk, hfixed, hchange⟩ := hchanges id j hj
  cases hj'.symm.trans hk
  rw [hend, ending_eq_none hopen] at hchange
  have hlisted := hE id j event data hj hopen (hchange.resolve_left (Option.some_ne_none _))
    ((shouldDispatch_congr hfixed event).mp hask)
  rw [List.filter_map, List.map_map, List.filter_filter] at hlisted
  rw [← hlisted]
  -- an entry with this event announces an end
  have hfilter : (new.filter fun e => e.JobID = id ∧ e.Event = event) =
      new.filter fun e => ((fun n : Notice => decide (n.1 = id ∧ n.2.1 = event)) ∘ notice) e &&
        decide (IsEnd e.Event) := by
    refine List.filter_congr fun e _ => ?_
    simp only [Function.comp_apply, notice]
    by_cases he : e.JobID = id ∧ e.Event = event
    · simp [he, isEnd_of_ending hend]
    · simp [he]
  rw [hfilter]
  rfl

lemma announced_of_none (hE : ∀ x ∈ E, x.2 = none) (h : Changes E s t)
    (hnew : ∃ new, t.webhooks = s.webhooks ++ new) : Announced s t := by
  obtain ⟨new, ht⟩ := hnew
  refine ⟨new, ht, fun id j j' event data hj hopen hj' hend _ => ?_⟩
  obtain ⟨k, hk, -, hchange⟩ := h id j hj
  cases hj'.symm.trans hk
  rw [hend, ending_eq_none hopen] at hchange
  rcases hchange with hchange | hchange
  · cases hchange
  · cases hE _ hchange

/-! ### The parts of the handlers -/

/-- The entry a program makes for a job, if the job asked for it. -/
def told (job : Job) (event : String) (data : WebhookData) : List Notice :=
  if ShouldDispatchEvent job event then [(job.ID, event, data)] else []

lemma told_congr {j' : Job} (h : fixed j' = fixed j) (event : String) (data : WebhookData) :
    told j' event data = told j event data := by
  have hid : j'.ID = j.ID := (congrArg Job.ID h :)
  unfold told
  rw [hid]
  exact if_congr (shouldDispatch_congr h event) rfl rfl

lemma moves_enqueue {event : String} {data : WebhookData} (hend : IsEnd event)
    (h : Prog.Ends (execNew st) (enqueue job event data) s () t) :
    Moves E (told job event data) s t := by
  refine ⟨changes_of_within (uses_mono within_call (quiet_enqueue job event data)) h, ?_⟩
  unfold enqueue at h
  unfold told
  split_ifs at h ⊢ with hask
  · obtain ⟨ts, v, hnow, h⟩ := ends_step.mp h
    obtain ⟨wid, w, hulid, h⟩ := ends_step.mp h
    have hadd := (ends_lift.mp h).2
    obtain rfl := hnow.2
    obtain ⟨-, -, rfl⟩ := hulid.2
    subst hadd
    exact ⟨_, rfl, by simp [hend, notice]⟩
  · obtain ⟨-, rfl⟩ := h
    exact .of_eq rfl

lemma mute_enqueue {event : String} (hend : ¬IsEnd event) (job : Job) (data : WebhookData) :
    (enqueue job event data).Uses (Mute E) := by
  unfold enqueue
  split_ifs
  · exact uses_step ⟨trivial, trivial⟩ fun _ => uses_step ⟨trivial, trivial⟩ fun _ =>
      uses_lift ⟨trivial, hend⟩
  · trivial

lemma mute_resolveRunID (jobID msgRunID : String) :
    (resolveRunID jobID msgRunID).Uses (Mute E) := by
  unfold resolveRunID
  split_ifs
  · trivial
  · exact uses_lift ⟨trivial, trivial⟩

lemma mute_closeRun (runID jobID : String) (status : FinalRunStatus) (rt : ResultType)
    (output : JsonOrBytes) (reason : String) (exitCode : ℤ) :
    (closeRun runID jobID status rt output reason exitCode).Uses (Mute E) := by
  unfold closeRun
  split_ifs
  · trivial
  · exact uses_step ⟨trivial, trivial⟩ fun _ => uses_lift ⟨trivial, trivial⟩

lemma mute_precancel (id : String) (job : Job) (running : Prop) [Decidable running] :
    (precancel id job running).Uses (Mute E) := by
  refine uses_precancel (uses_step ⟨trivial, trivial⟩ fun w => ?_) (fun _ => ⟨trivial, trivial⟩) _ _
  cases w with
  | none => trivial
  | some w => exact uses_lift ⟨trivial, trivial⟩

lemma mute_EnqueueJobs (l : List Job) : (EnqueueJobs l).Uses (Mute E) :=
  uses_EnqueueJobs (fun _ => ⟨trivial, trivial⟩) l

/-- The guarded update of a parent gives no job another end. -/
lemma within_consolidate (id : String) : Within E (.updateJob id .consolidate) := by
  intro now j
  simp only [JobMutation.apply]
  split_ifs with hst
  · refine .inl ?_
    rw [ending_eq_none (j := j) (by rw [hst]; decide)]
    rfl
  · exact .inl rfl

lemma mute_checkSiblings (parentJobID : String) : (checkSiblings parentJobID).Uses (Mute E) :=
  uses_checkSiblings (fun _ => ⟨trivial, trivial⟩) (fun _ => ⟨trivial, trivial⟩)
    (fun _ => ⟨trivial, trivial⟩) (fun _ => ⟨within_consolidate _, trivial⟩) parentJobID

lemma same_of_ends (hp : p.Uses Quiet) (h : Prog.Ends (execNew st) p s a t) : Same s t :=
  same_of_uses hp (ends_mono h fun h => h.2)

/-! ### Completion -/

lemma updated_ne_none {id : String} {m : JobMutation} {r : Option Bool}
    (hj : s.jobs.get id = some j) (h : execNew st (.updateJob id m) s r t) : r ≠ none := by
  obtain ⟨-, now, rfl, -⟩ := h
  rw [hj]
  exact Option.some_ne_none _

variable {msg : ResultMessage}

/-- A completion is announced with the result that was stored before. -/
lemma moves_handleJobCompleted {w : ConnID} (hlanes : st.lanes = true)
    (hjob : s.jobs.get msg.JobID = some job) (hopen : ¬job.Status.IsTerminal)
    (h : Prog.Ends (execNew st) (handleJobCompleted w job msg) s () t) :
    Moves {(msg.JobID, some (eventJobCompleted, .result msg.Payload))}
      (told job eventJobCompleted (.result job.Result)) s t := by
  unfold handleJobCompleted at h
  rw [if_neg hopen] at h
  obtain ⟨updated, u1, hupdate, h⟩ := ends_step.mp h
  rw [if_neg (updated_ne_none hjob hupdate)] at h
  obtain ⟨runID, u2, hrunID, h⟩ := ends_bind.mp h
  obtain ⟨_, u3, hclose, h⟩ := ends_bind.mp h
  obtain ⟨restored, u4, hrestore, h⟩ := ends_step.mp h
  rw [(exec_restoreCapacity hlanes hrestore.2).1] at h
  obtain ⟨_, u5, hfire, hsiblings⟩ := ends_bind.mp h
  have hcompleted : Moves {(msg.JobID, some (eventJobCompleted, .result msg.Payload))} [] s u1 :=
    moves_call hupdate ⟨fun _ _ => .inr rfl, trivial⟩
  have hbefore := hcompleted.trans ((moves_of_mute (mute_resolveRunID _ _) hrunID).trans
    ((moves_of_mute (mute_closeRun _ _ _ _ _ _ _) hclose).trans
      (moves_call hrestore ⟨trivial, trivial⟩)))
  have hall := hbefore.trans ((moves_enqueue (.inl rfl) hfire).trans
    (moves_of_mute (mute_checkSiblings _) hsiblings))
  simp only [List.append_nil, List.nil_append] at hall
  exact hall

/-! ### Failure -/

/-- The ends a failure for good can give: to the job, and to the parent it names. -/
def failing (job : Job) (reason : String) : Set (String × Option End) :=
  {x | (x.1 = job.ID ∨ job.ParentJobID ≠ "" ∧ x.1 = job.ParentJobID) ∧
    x.2 = some (eventJobFailed, .failureReason reason)}

/-- Without a stored parent a failure is announced once. -/
lemma moves_handleFailJob (hj : s.jobs.get job.ID = some j) (hreason : j.FailureReason = msg.Reason)
    (h : Prog.Ends (execNew st) (handleFailJob job msg) s () t) :
    ∃ L, Moves (failing job msg.Reason) L s t ∧
      ((job.ParentJobID ≠ "" → s.jobs.get job.ParentJobID = none) →
        L = told job eventJobFailed (.failureReason msg.Reason)) := by
  obtain ⟨updated, u1, hupdate, h⟩ := ends_step.mp h
  obtain ⟨_, u2, hfire, h⟩ := ends_bind.mp h
  have hfailed : Moves (failing job msg.Reason) [] s u1 := by
    obtain ⟨-, now, -, rfl⟩ := hupdate
    refine ⟨changes_modify rfl fun k hk => .inr ⟨.inl rfl, ?_⟩, .of_eq rfl⟩
    cases hj.symm.trans hk
    rw [← hreason]
    rfl
  have htold := hfailed.trans (moves_enqueue (.inr (.inl rfl)) hfire)
  have hjobs : u2.jobs = u1.jobs := (same_of_ends (quiet_enqueue _ _ _) hfire).jobs
  split_ifs at h with hparent
  · obtain ⟨-, rfl⟩ := h
    exact ⟨_, htold, fun _ => rfl⟩
  obtain ⟨parent, u3, ⟨-, hget, rfl⟩, h⟩ := ends_step.mp h
  have hstored (hnone : s.jobs.get job.ParentJobID = none) : parent = none := by
    obtain ⟨-, now, -, rfl⟩ := hupdate
    rw [hget, hjobs]
    exact (Fresh.get_modify_eq_none _ _ _ (JobMutation.apply_ID _ now)).mpr hnone
  cases parent with
  | none =>
    obtain ⟨-, rfl⟩ := h
    exact ⟨_, htold, fun _ => rfl⟩
  | some parent =>
    have hid : parent.ID = job.ParentJobID := key_of_get hget.symm
    obtain ⟨updated, u4, hupdate', h⟩ := ends_step.mp h
    have hparent' := htold.trans
      (moves_call hupdate' ⟨fun _ _ => .inr ⟨.inr ⟨hparent, hid⟩, rfl⟩, trivial⟩)
    split_ifs at h
    · obtain ⟨-, rfl⟩ := h
      exact ⟨_, hparent', fun hno => nomatch hstored (hno hparent)⟩
    · exact ⟨_, hparent'.trans (moves_enqueue (.inr (.inl rfl)) h),
        fun hno => nomatch hstored (hno hparent)⟩

/-- A failed run ends the job for good: by its exit code, or because no attempt is left. -/
def FailsForGood (cfg : Config) (s : World) (job : Job) (msg : ResultMessage) : Prop :=
  msg.ExitCode = cfg.DefaultPanicExitCode.toNat ∨
    (cfg.DoNotRetryFrom.toNat ≤ msg.ExitCode ∧ msg.ExitCode ≤ cfg.DoNotRetryTo.toNat) ∨
      (effectivePolicy cfg (s.tasks.get job.TaskName)).MaxAttempts ≤ job.Attempts + 1

/-- **One error result** of a job that has not ended: its attempt is recorded, and it fails for good
or a timer is set. -/
lemma ends_handleJobError {run : ∀ {β : Type}, Call β → World → β → World → Prop}
    (hrun : ∀ {β : Type} {c : Call β} {s b t}, run c s b t → exec st c s b t) {w : ConnID}
    (hopen : ¬job.Status.IsTerminal) (h : Prog.Ends run (handleJobError cfg w job msg) s () t) :
    ∃ u now, u.jobs = s.jobs.modify job.ID
        ((JobMutation.attempts (job.Attempts + 1) msg.Reason).apply now) ∧
      u.timers = s.timers ∧ News s u [] ∧
      (FailsForGood cfg s job msg ∧
          Prog.Ends run (handleFailJob { job with Attempts := job.Attempts + 1 } msg) u () t ∨
        ¬FailsForGood cfg s job msg ∧ ∃ d, run (.afterFunc job.ID d) u () t) := by
  unfold handleJobError at h
  rw [if_neg hopen] at h
  obtain ⟨_, u1, hrestore, h⟩ := ends_step.mp h
  obtain ⟨runID, u2, hrunID, h⟩ := ends_bind.mp h
  obtain ⟨_, u3, hclose, h⟩ := ends_bind.mp h
  obtain ⟨_, u, hattempts, h⟩ := ends_step.mp h
  have hrestore := hrun hrestore
  have hrunID := ends_mono hrunID hrun
  have hclose := ends_mono hclose hrun
  obtain ⟨now, -, hu⟩ := hrun hattempts
  -- up to here only the attempts and the reason of the job have changed
  have hsame := (same_of_uses (quiet_resolveRunID _ _) hrunID).trans
    (same_of_uses (quiet_closeRun _ _ _ _ _ _ _) hclose)
  have hfree := untouched hrestore
  have hnews {α : Type} {p : M α} {a : α} {s t : World} (hp : p.Uses (Mute ∅))
      (h : Prog.Ends (exec st) p s a t) : News s t [] :=
    ends_of_uses (R := fun s t => News s t []) (φ := Mute ∅) (fun _ => .of_eq rfl)
      (fun _ _ _ => News.trans) (fun hc h => news_call hc.2 h) hp h
  refine ⟨u, now, by rw [hu, hsame.jobs, hfree.jobs nofun],
    by rw [hu, hsame.timers, hfree.timers nofun], ?_, ?_⟩
  · exact (news_call (c := .restoreCapacity w job.ID job.Cost) trivial hrestore).trans
      ((hnews (mute_resolveRunID _ _) hrunID).trans
        ((hnews (mute_closeRun _ _ _ _ _ _ _) hclose).trans (.of_eq (by rw [hu]))))
  split_ifs at h with hpanic hrange
  · exact .inl ⟨.inl hpanic, h⟩
  · exact .inl ⟨.inr (.inl hrange), h⟩
  obtain ⟨taskDef, u5, htask, hlast⟩ := ends_step.mp h
  obtain ⟨htask, rfl⟩ := hrun htask
  have htasks : u5.tasks = s.tasks := by rw [hu, hsame.tasks, hfree.tasks]
  dsimp only at hlast htask
  rw [htask, htasks] at hlast
  split_ifs at hlast with hretry
  · refine .inr ⟨?_, _, ends_lift.mp hlast⟩
    rintro (hcode | hcode | hlimit)
    · exact hpanic hcode
    · exact hrange hcode
    · exact absurd hretry (not_lt.mpr hlimit)
  · exact .inl ⟨.inr (.inr (not_lt.mp hretry)), hlast⟩

lemma get_attempts {u : World} {now : Time} (hjob : s.jobs.get job.ID = some job)
    (h : u.jobs = s.jobs.modify job.ID
      ((JobMutation.attempts (job.Attempts + 1) msg.Reason).apply now)) :
    u.jobs.get job.ID =
      some ((JobMutation.attempts (job.Attempts + 1) msg.Reason).apply now job) := by
  rw [h, get_modify _ _ _ (JobMutation.apply_ID _ now), if_pos rfl, hjob]
  rfl

/-- A failed run ends no job, or the job fails for good. -/
lemma moves_handleJobError {w : ConnID} (hjob : s.jobs.get job.ID = some job)
    (hopen : ¬job.Status.IsTerminal)
    (h : Prog.Ends (execNew st) (handleJobError cfg w job msg) s () t) :
    Moves ∅ [] s t ∨ FailsForGood cfg s job msg ∧
      ∃ L, Moves (failing job msg.Reason) L s t ∧
        ((job.ParentJobID ≠ "" → s.jobs.get job.ParentJobID = none) →
          L = told job eventJobFailed (.failureReason msg.Reason)) := by
  obtain ⟨u, now, hu, -, hnews, h⟩ := ends_handleJobError (fun h => h.2) hopen h
  have hmoves : Moves ∅ [] s u := by
    refine ⟨changes_modify hu fun j hj => .inl ?_, hnews⟩
    rw [hjob] at hj
    cases hj
    rw [ending_eq_none hopen]
    exact ending_eq_none hopen
  rcases h with ⟨hgood, h⟩ | ⟨-, d, h⟩
  · obtain ⟨L, hL, htold⟩ := moves_handleFailJob (get_attempts hjob hu) rfl h
    refine .inr ⟨hgood, L, (hmoves.mono (Set.empty_subset _)).trans hL, fun hno => htold ?_⟩
    intro hne
    rw [hu]
    exact (Fresh.get_modify_eq_none _ _ _ (JobMutation.apply_ID _ now)).mpr (hno hne)
  · exact .inl (hmoves.trans (moves_call h ⟨trivial, trivial⟩))

/-! ### Decomposition -/

/-- The end that a failed decomposition gives the job. -/
abbrev failure (job : Job) (reason : String) : Set (String × Option End) :=
  {(job.ID, some (eventJobFailed, .failureReason reason))}

/-- A failed decomposition is announced by the callback that records it. -/
lemma moves_failEmission {p : Job} {reason : String} {r : Option Bool}
    (hp : s.jobs.get parent.ID = some p) (hfixed : fixed p = fixed parent)
    (h : execNew st (.updateJobFiring parent.ID reason) s r t) :
    Moves (failure parent reason) (told parent eventJobFailed (.failureReason reason)) s t := by
  refine ⟨changes_call h rfl, ?_⟩
  rw [← told_congr hfixed]
  obtain ⟨-, hfire⟩ := h
  simp only [exec, hp] at hfire
  obtain ⟨-, now, hfire⟩ := hfire
  unfold told
  split_ifs at hfire ⊢
  · obtain ⟨-, wid, -, -, rfl⟩ := hfire
    exact ⟨_, rfl, by simp [IsEnd, notice]⟩
  · rw [hfire]
    exact .of_eq rfl

/-- Making the children ends no job, or fails the parent and announces it. -/
lemma moves_createChildren {start : Time} {reqs : List ChildJobRequest}
    (hp : s.jobs.get parent.ID = some parent) : Prog.wp (execNew st) (fun _ _ => True)
      (createChildren cfg parent start 0 reqs [])
      (fun r t => (∃ l, r = .ok l ∧ Moves ∅ [] s t) ∨ ∃ err reason, r = .error err ∧
        Moves (failure parent reason) (told parent eventJobFailed (.failureReason reason)) s t)
      s := by
  refine wp_createChildren cfg (F := Moves ∅ [] s) (I := fun _ => Moves ∅ [] s)
    (fun {β c l x} hc hu => ⟨trivial, fun b y hy => hu.trans (moves_call hy ?_)⟩)
    (fun hu => ⟨trivial, fun id y hy child _ _ _ => ⟨trivial, fun r z hz => ?_⟩⟩) id
    (fun {reason x} hu => ⟨trivial, fun b y hy err => .inr ⟨err, reason, rfl, ?_⟩⟩)
    (fun l y hu _ => .inl ⟨l, rfl, hu⟩) (.refl _)
  · cases c <;> first | exact hc.elim | exact ⟨trivial, trivial⟩
  · rw [ite_self]
    exact hu.trans ((moves_call hy ⟨trivial, trivial⟩).trans (moves_call hz ⟨trivial, trivial⟩))
  · obtain ⟨p, hp', hfixed, -⟩ := hu.changes _ parent hp
    exact (hu.mono (Set.empty_subset _)).trans (moves_failEmission hp' hfixed hy)

/-- The jobs that are put in progress, whichever they are. -/
def reopened : Set (String × Option End) := {x | x.2 = none}

lemma moves_handleSubjobsEmitted {reqs : List ChildJobRequest} {r : Option String}
    (hp : s.jobs.get parent.ID = some parent)
    (h : Prog.Ends (execNew st) (handleSubjobsEmitted cfg parent reqs) s r t) :
    Moves reopened [] s t ∨ ∃ reason, Moves (failure parent reason)
      (told parent eventJobFailed (.failureReason reason)) s t := by
  unfold handleSubjobsEmitted at h
  split_ifs at h
  · obtain ⟨-, rfl⟩ := h
    exact .inl (.refl _)
  obtain ⟨start, u1, hnow, h⟩ := ends_step.mp h
  obtain ⟨made, u2, hmade, h⟩ := ends_bind.mp h
  obtain rfl := hnow.2
  rcases wp_sound (moves_createChildren hp) hmade with ⟨l, rfl, hu2⟩ | ⟨err, reason, rfl, hu2⟩
  · refine .inl ((hu2.mono (Set.empty_subset _)).trans ?_)
    obtain ⟨updated, u3, hawait, h⟩ := ends_step.mp h
    have hu3 : Moves reopened [] u2 u3 := moves_call hawait ⟨fun _ _ => .inr rfl, trivial⟩
    split_ifs at h
    · obtain ⟨-, rfl⟩ := h
      exact hu3
    · obtain ⟨_, u4, hpush, -, rfl⟩ := ends_bind.mp h
      exact hu3.trans (moves_of_mute (mute_EnqueueJobs l) hpush)
  · obtain ⟨-, rfl⟩ := h
    exact .inr ⟨reason, hu2⟩

/-! ### Cancelling -/

/-- The ends a cancel can give: to the job, and to the children that are listed. -/
def cancelling (jobID : String) (children : List Job) : Set (String × Option End) :=
  {x | (x.1 = jobID ∨ ∃ child ∈ children, child.ID = x.1) ∧ x.2 = some (eventJobCancelled, .none)}

lemma mute_cancelChildren {jobID : String} {children l : List Job} (hl : l ⊆ children) :
    (cancelChildren l).Uses (Mute (cancelling jobID children)) := by
  induction l with
  | nil => trivial
  | cons child rest ih =>
    obtain ⟨hmem, hrest⟩ := List.cons_subset.mp hl
    rw [cancelChildren_cons]
    split_ifs
    · exact ih hrest
    · exact uses_bind _ (mute_precancel _ _ _) fun _ =>
        uses_step ⟨fun _ _ => .inr ⟨.inr ⟨child, hmem, rfl⟩, rfl⟩, trivial⟩ fun _ => ih hrest

/-- A cancel is announced for the job it is for, and for no other. -/
lemma moves_cancelJobByID {jobID : String} (hjob : s.jobs.get jobID = some job)
    (h : Prog.Ends (execNew st) (cancelJobByID jobID) s () t) :
    ∃ children : List Job,
      (∀ child ∈ children, s.jobs.get child.ID = some child ∧ child.ParentJobID = jobID) ∧
      Moves (cancelling jobID children) (told job eventJobCancelled .none) s t := by
  rw [cancelJobByID_eq] at h
  obtain ⟨job', u1, ⟨-, hget, hu1⟩, h1⟩ := ends_step.mp h
  rw [hjob] at hget
  subst hget hu1
  obtain ⟨children, u2, ⟨-, hperm, -, hu2⟩, h2⟩ := ends_step.mp h1
  subst hu2
  refine ⟨children, fun child hchild => ?_, ?_⟩
  · rw [hperm.mem_iff, List.mem_filter, mem_values, decide_eq_true_iff] at hchild
    exact hchild
  obtain ⟨_, u3, hchildren, h3⟩ := ends_bind.mp h2
  refine (moves_of_mute (mute_cancelChildren (List.Subset.refl children)) hchildren).trans ?_
  obtain ⟨_, u4, hnotice, h4⟩ := ends_bind.mp h3
  refine (moves_of_mute (mute_precancel _ _ _) hnotice).trans ?_
  obtain ⟨_, u5, hupdate, hfire⟩ := ends_step.mp h4
  have hcancelled : Moves (cancelling jobID children) [] u4 u5 :=
    moves_call hupdate ⟨fun _ _ => .inr ⟨.inl rfl, rfl⟩, trivial⟩
  exact hcancelled.trans (moves_enqueue (.inr (.inr rfl)) hfire)

end Workforce.Announcements
