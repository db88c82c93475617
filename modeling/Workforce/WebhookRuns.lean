import Workforce.Announcements
import Workforce.Conservation
import Workforce.Stamps

/-!
Webhooks along runs of whole operations: when every end is announced.

A completion is announced with the result the job had before, a failure that takes the parent
with it is announced twice for the child and never for the parent, a cancelled child is not
announced, and a pass announces the direct failure of a job once for each copy it pops.
-/

namespace Workforce.WebhookRuns

open Tables Contract Progs Shared Calls Handlers Dispatcher Footprints Fresh Runs Operations
open Origins QueueCopies Announcements Pass Conservation Copies Recovery Stamps Knowledge

variable {cfg : Config} {st : Stores} {α β : Type} {s t u : World}

/-! ### The condition -/

/-- The operation does not reach a place where an end is announced wrongly. -/
def Heard (cfg : Config) (s : World) : Op → Prop
  | .result _ msg => ∀ job, s.jobs.get msg.JobID = some job → ¬job.Status.IsTerminal →
    match msg.ResultType with
    | .success => ShouldDispatchEvent job eventJobCompleted → job.Result = msg.Payload
    | .error => FailsForGood cfg s job msg → job.ParentJobID ≠ "" →
      ∀ parent, s.jobs.get job.ParentJobID = some parent →
        ¬ShouldDispatchEvent job eventJobFailed ∧
          (¬parent.Status.IsTerminal → ¬ShouldDispatchEvent parent eventJobFailed)
    | .subjobs => True
  | .cancel jobID => ∀ job id child, s.jobs.get jobID = some job → s.jobs.get id = some child →
      child.ParentJobID = jobID → id ≠ jobID → ¬child.Status.IsTerminal →
        ¬ShouldDispatchEvent child eventJobCancelled
  | .processQueue => ∀ id job, s.jobs.get id = some job → ¬job.Status.IsTerminal →
      s.tasks.get job.TaskName = none → ShouldDispatchEvent job eventJobFailed →
        queued s id ≤ if id ∈ s.cancelledJobIDs then 2 else 1
  | _ => True

/-! ### Entries are only added -/

lemma appends_call {c : Call β} {b : β} (h : exec st c s b t) :
    ∃ new, t.webhooks = s.webhooks ++ new := by
  by_cases hc : Silent c
  · obtain ⟨new, hnew, -⟩ := news_call hc h
    exact ⟨new, hnew⟩
  cases c with
  | enqueueWebhook e =>
    subst h
    exact ⟨[e], rfl⟩
  | updateJobFiring id reason =>
    simp only [exec] at h
    split at h
    · obtain ⟨-, rfl⟩ := h
      exact ⟨[], (List.append_nil _).symm⟩
    · obtain ⟨-, now, h⟩ := h
      split_ifs at h
      · obtain ⟨-, wid, -, -, rfl⟩ := h
        exact ⟨_, rfl⟩
      · subst h
        exact ⟨[], (List.append_nil _).symm⟩
  | _ => exact absurd trivial hc

variable {p : M α}

lemma appends_of_ends {a : α} (h : Prog.Ends (execNew st) p s a t) :
    ∃ new, t.webhooks = s.webhooks ++ new := by
  induction p generalizing s with
  | pure b =>
    obtain ⟨-, rfl⟩ := h
    exact ⟨[], (List.append_nil _).symm⟩
  | call c k ih =>
    obtain ⟨b, u, hu, h⟩ := h
    obtain ⟨new, hnew⟩ := appends_call hu.2
    obtain ⟨new', hnew'⟩ := ih b h
    exact ⟨new ++ new', by rw [hnew', hnew, List.append_assoc]⟩

lemma announced_of_within (hp : p.Uses (Within reopened)) (h : Performs (execNew st) p s t) :
    Announced s t := by
  obtain ⟨a, ha⟩ := h
  exact announced_of_none (E := reopened) (fun _ hx => hx) (changes_of_within hp ha)
    (appends_of_ends ha)

/-! ### Results and cancels -/

variable {job : Job} {data : WebhookData}

lemma filter_told_self {event : String} {id : String} (hid : job.ID = id)
    (hask : ShouldDispatchEvent job event) :
    ((told job event data).filter fun n => n.1 = id ∧ n.2.1 = event).map (fun n => n.2.2) =
      [data] := by
  unfold told
  rw [if_pos hask]
  simp [hid]

/-- What is announced is announced for the one job that can have ended. -/
lemma announced_of_told {j : Job} {event : String} {data' : WebhookData}
    (hj : s.jobs.get job.ID = some j) (hfixed : fixed j = fixed job)
    (hdata : ShouldDispatchEvent job event → data' = data)
    (h : Moves {(job.ID, some (event, data))} (told job event data') s t) : Announced s t := by
  refine announced_of_moves h fun id k ev d hk _ hmem hask => ?_
  obtain ⟨rfl, hend⟩ := Prod.mk.inj hmem
  obtain ⟨rfl, rfl⟩ := Prod.mk.inj (Option.some.inj hend)
  cases hj.symm.trans hk
  have hask' := (shouldDispatch_congr hfixed ev).mp hask
  rw [hdata hask']
  exact filter_told_self rfl hask'

lemma announced_mute {a : α} (hp : p.Uses (Mute ∅)) (h : Prog.Ends (execNew st) p s a t) :
    Announced s t :=
  announced_of_moves (moves_of_mute hp h) fun _ _ _ _ _ _ hmem => hmem.elim

variable {w : ConnID} {msg : ResultMessage}

lemma announced_error (hjob : s.jobs.get job.ID = some job) (hopen : ¬job.Status.IsTerminal)
    (hheard : FailsForGood cfg s job msg → job.ParentJobID ≠ "" →
      ∀ parent, s.jobs.get job.ParentJobID = some parent →
        ¬ShouldDispatchEvent job eventJobFailed ∧
          (¬parent.Status.IsTerminal → ¬ShouldDispatchEvent parent eventJobFailed))
    (h : Prog.Ends (execNew st) (handleJobError cfg w job msg) s () t) : Announced s t := by
  rcases moves_handleJobError hjob hopen h with hmoves | ⟨hgood, L, hmoves, htold⟩
  · exact announced_of_moves hmoves fun _ _ _ _ _ _ hmem => hmem.elim
  refine announced_of_moves hmoves fun id j event data hj hjopen hmem hask => ?_
  obtain ⟨hid, hend⟩ := hmem
  obtain ⟨rfl, rfl⟩ := Prod.mk.inj (Option.some.inj hend)
  rcases hid with rfl | ⟨hne, rfl⟩
  · -- the job itself: it has no stored parent, so it is announced once
    cases hjob.symm.trans hj
    rw [htold fun hne => ?_]
    · exact filter_told_self rfl hask
    · by_contra hstored
      obtain ⟨parent, hparent⟩ := Option.ne_none_iff_exists'.mp hstored
      exact (hheard hgood hne parent hparent).1 hask
  · exact absurd hask ((hheard hgood hne j hj).2 hjopen)

/-- What is done after the children have been made, or not, ends no job. -/
lemma mute_afterSubjobs (w : ConnID) (runID : String) (job : Job) (msg : ResultMessage)
    (err : Option String) {E : Set (String × Option End)} :
    (restoreCapacity w job.ID job.Cost >>= fun _ =>
      match err with
      | some err => SendError w "" err
      | none => closeRun runID msg.JobID FinalRunStatus.completed msg.ResultType msg.Payload "" 0
      : M Unit).Uses (Mute E) := by
  refine uses_step ⟨trivial, trivial⟩ fun _ => ?_
  cases err with
  | some err => exact uses_step ⟨trivial, trivial⟩ fun _ => trivial
  | none => exact mute_closeRun _ _ _ _ _ _ _

lemma announced_subjobs (hjob : s.jobs.get job.ID = some job)
    (h : Prog.Ends (execNew st) (do
      let runID ← resolveRunID msg.JobID msg.RunID
      let subjobErr ← handleSubjobsEmitted cfg job msg.Jobs
      let _ ← restoreCapacity w job.ID job.Cost
      match subjobErr with
      | some err => SendError w "" err
      | none => closeRun runID msg.JobID FinalRunStatus.completed msg.ResultType msg.Payload "" 0)
      s () t) : Announced s t := by
  obtain ⟨runID, u1, hrunID, h1⟩ := ends_bind.mp h
  obtain ⟨err, u2, hsub, h2⟩ := ends_bind.mp h1
  have hjobs := (same_of_ends (quiet_resolveRunID _ _) hrunID).jobs
  rcases moves_handleSubjobsEmitted (hjobs ▸ hjob) hsub with hmoves | ⟨reason, hmoves⟩
  · have hall := (moves_of_mute (mute_resolveRunID _ _) hrunID).trans
      (hmoves.trans (moves_of_mute (mute_afterSubjobs w runID job msg err) h2))
    exact announced_of_moves hall fun _ _ _ _ _ _ hmem => nomatch hmem
  · have hall := (moves_of_mute (mute_resolveRunID _ _) hrunID).trans
      (hmoves.trans (moves_of_mute (mute_afterSubjobs w runID job msg err) h2))
    rw [List.nil_append, List.append_nil] at hall
    exact announced_of_told hjob rfl (fun _ => rfl) hall

lemma announced_result (hlanes : st.lanes = true) (hheard : Heard cfg s (.result w msg))
    (h : Prog.Ends (execNew st) (handleResultMessage cfg w msg) s () t) : Announced s t := by
  obtain ⟨stored, u1, ⟨-, hget, hu1⟩, h1⟩ := ends_step.mp h
  rw [hu1] at h1
  cases stored with
  | none =>
    refine announced_mute (p := SendError w _ _) ?_ h1
    exact uses_step ⟨trivial, trivial⟩ fun _ => trivial
  | some job =>
    have hid : job.ID = msg.JobID := key_of_get hget.symm
    have hjob : s.jobs.get job.ID = some job := by rw [hid, ← hget]
    dsimp only at h1
    split at h1
    next htype =>
      by_cases hopen : job.Status.IsTerminal
      · unfold handleJobError at h1
        refine announced_mute ?_ h1
        split_ifs
        · exact uses_bind _ (mute_resolveRunID _ _) fun _ => mute_closeRun _ _ _ _ _ _ _
        · trivial
      · have hheard := hheard job hget.symm hopen
        rw [htype] at hheard
        exact announced_error hjob hopen hheard h1
    next htype => exact announced_subjobs hjob h1
    next htype =>
      by_cases hopen : job.Status.IsTerminal
      · unfold handleJobCompleted at h1
        rw [if_pos hopen] at h1
        exact announced_mute (p := pure ()) trivial h1
      · have hheard := hheard job hget.symm hopen
        rw [htype] at hheard
        have hmoves := moves_handleJobCompleted hlanes hget.symm hopen h1
        rw [← hid] at hmoves
        exact announced_of_told hjob rfl (fun hask => congrArg _ (hheard hask)) hmoves

lemma announced_cancel (cfg : Config) {jobID : String} (hheard : Heard cfg s (.cancel jobID))
    (h : Prog.Ends (execNew st) (cancelJobByID jobID) s () t) : Announced s t := by
  rcases hget : s.jobs.get jobID with _ | job
  · obtain ⟨stored, u, ⟨-, hstored, hu⟩, h1⟩ := ends_step.mp h
    rw [hget] at hstored
    subst hstored
    rw [hu] at h1
    exact announced_mute (p := pure ()) trivial h1
  obtain ⟨children, hchildren, hmoves⟩ := moves_cancelJobByID hget h
  refine announced_of_moves hmoves fun id j event data hj hopen hmem hask => ?_
  obtain ⟨hid, hend⟩ := hmem
  obtain ⟨rfl, rfl⟩ := Prod.mk.inj (Option.some.inj hend)
  by_cases hself : id = jobID
  · subst hself
    cases hget.symm.trans hj
    exact filter_told_self (key_of_get hget) hask
  · obtain ⟨child, hchild, rfl⟩ := hid.resolve_left hself
    obtain ⟨hstored, hparent⟩ := hchildren child hchild
    have heq : child = j := Option.some.inj (hstored.symm.trans hj)
    subst heq
    exact absurd hask (hheard job _ child hget hstored hparent hself hopen)

/-! ### A pass -/

/-- Why a pass fails a job. -/
def unknownTask (job : Job) : WebhookData := .failureReason ("unknown task: " ++ job.TaskName)

lemma moves_failJobDirect {reason : String}
    (h : Prog.Ends (execNew st) (failJobDirect job reason) s () t) :
    Moves (failure job reason) (told job eventJobFailed (.failureReason reason)) s t := by
  obtain ⟨_, u, hupdate, hfire⟩ := ends_step.mp h
  have hfailed : Moves (failure job reason) [] s u :=
    moves_call hupdate ⟨fun _ _ => .inr rfl, trivial⟩
  exact hfailed.trans (moves_enqueue (.inr (.inl rfl)) hfire)

lemma mute_tryProposeJob (job : Job) (keys : List String) :
    (tryProposeJob cfg job keys).Uses (Mute reopened) := by
  refine uses_step ⟨trivial, trivial⟩ fun task => ?_
  cases task with
  | none => trivial
  | some taskDef =>
    split_ifs
    · trivial
    refine uses_step ⟨trivial, trivial⟩ fun workers => ?_
    split_ifs
    · trivial
    refine uses_step ⟨trivial, trivial⟩ fun selected =>
      uses_bind _ (uses_artifactFor (fun _ _ _ _ => ⟨trivial, trivial⟩) cfg job taskDef
        selected) fun art => ?_
    cases art with
    | error err => trivial
    | ok info =>
      refine uses_step ⟨trivial, trivial⟩ fun sent => ?_
      split_ifs
      · trivial
      refine uses_step ⟨fun _ _ => .inr rfl, trivial⟩ fun updated => ?_
      split_ifs
      · trivial
      refine uses_step ⟨trivial, trivial⟩ fun assigned => ?_
      split_ifs
      · trivial
      exact uses_bind _ (mute_enqueue (by decide) job _) fun _ => trivial

variable {c : Caches} {online : List String}

def failures (jobs : List Job) : Set (String × Option End) :=
  reopened ∪ {x | ∃ q ∈ jobs, x = (q.ID, some (eventJobFailed, unknownTask q))}

/-- **One turn.** A turn ends no job, or it fails the job it is about because its task is not
stored, and announces that. -/
lemma moves_examine {r : Caches × Outcome} (hc : ∀ name ∈ c.task, s.tasks.get name ≠ none)
    (h : Prog.Ends (execNew cfg.toStores) (examine cfg job online c) s r t) :
    (∀ name ∈ r.1.task, s.tasks.get name ≠ none) ∧
      (r.2 = .failed ∧ s.tasks.get job.TaskName = none ∧
          Moves (failures [job]) (told job eventJobFailed (unknownTask job)) s t ∨
        r.2 ≠ .failed ∧ Moves reopened [] s t) := by
  have hfails {c' : Caches} {reason : String} (hreason : reason = "unknown task: " ++ job.TaskName)
      (h : Prog.Ends (execNew cfg.toStores)
        (failJobDirect job reason >>= fun _ => pure (c', Outcome.failed)) s r t) :
      r = (c', .failed) ∧ Moves (failures [job]) (told job eventJobFailed (unknownTask job)) s t := by
    obtain ⟨_, v, hdirect, rfl, rfl⟩ := ends_bind.mp h
    subst hreason
    refine ⟨rfl, (moves_failJobDirect hdirect).mono fun x hx => .inr ⟨job, ?_, hx⟩⟩
    exact List.mem_singleton_self job
  obtain ⟨⟨c1, keys, d⟩, u, hkeys, h1⟩ := ends_bind.mp h
  obtain ⟨rfl, hc1, hfail⟩ := ends_jobPlatformKeys (fun h => h.2) hc hkeys
  cases d with
  | some d =>
    dsimp only at h1
    split_ifs at h1 with hd
    · obtain ⟨htask, hreason⟩ := hfail d rfl hd
      obtain ⟨rfl, hmoves⟩ := hfails hreason h1
      exact ⟨hc1, .inl ⟨rfl, htask, hmoves⟩⟩
    · obtain ⟨rfl, rfl⟩ := h1
      exact ⟨hc1, .inr ⟨Outcome.noConfusion, .refl _⟩⟩
  | none =>
    obtain ⟨e, v, hpropose, h2⟩ := ends_bind.mp h1
    have hmoves := moves_of_mute (mute_tryProposeJob job keys) hpropose
    rcases e with (_ | _ | _ | text) | _
    · obtain ⟨htask, rfl⟩ := ends_tryProposeJob (fun h => h.2) hpropose
      obtain ⟨rfl, hmoves⟩ := hfails rfl h2
      exact ⟨hc1, .inl ⟨rfl, htask, hmoves⟩⟩
    all_goals
      obtain ⟨rfl, rfl⟩ := h2
      exact ⟨hc1, .inr ⟨Outcome.noConfusion, hmoves⟩⟩

lemma failures_mono {l l' : List Job} (h : l ⊆ l') : failures l ⊆ failures l' := by
  rintro x (hx | ⟨q, hq, rfl⟩)
  · exact .inl hx
  · exact .inr ⟨q, h hq, rfl⟩

/-- What the failures of a pass announce. -/
def toldFailures (jobs : List Job) : List Notice :=
  jobs.flatMap fun q => told q eventJobFailed (unknownTask q)

variable {turns : List Turn}

lemma failedJobs_cons_of_ne {a : Turn} (h : a.outcome ≠ .failed) :
    failedJobs (a :: turns) = failedJobs turns := by
  unfold failedJobs
  rcases ho : a.outcome with _ | _ | _ | d <;> simp_all

/-- **All turns.** The loop of a pass fails only jobs whose task is not stored, each as often as
it is popped and not discarded, and announces every failure. -/
lemma moves_loop (h : Loop cfg (execNew cfg.toStores) online s c turns t)
    (hc : ∀ name ∈ c.task, s.tasks.get name ≠ none) :
    Moves (failures (failedJobs turns)) (toldFailures (failedJobs turns)) s t ∧
      ∀ q ∈ failedJobs turns, s.tasks.get q.TaskName = none := by
  induction h with
  | done hq => exact ⟨.refl _, fun q hq => nomatch hq⟩
  | @discard s u v t c job turns hpop hcan hremove hrest ih =>
    have htasks : v.tasks = s.tasks := by
      obtain ⟨-, -, -, rfl⟩ := hpop
      obtain ⟨-, rfl⟩ := hremove
      rfl
    rw [htasks] at ih
    obtain ⟨hmoves, hmissing⟩ := ih hc
    exact ⟨(moves_call hpop ⟨trivial, trivial⟩).trans
      ((moves_call hremove ⟨trivial, trivial⟩).trans hmoves), hmissing⟩
  | @examine s u v t c c' job outcome moments turns hpop hlive hvis hrest ih =>
    have hends := ends_of_visits hvis
    have hu : u.tasks = s.tasks := by
      obtain ⟨-, -, -, rfl⟩ := hpop
      rfl
    have hv : v.tasks = s.tasks := (stays_examine (fun h => h.2) hends).tasks.trans hu
    rw [← hu] at hc
    obtain ⟨hc', hturn⟩ := moves_examine hc hends
    rw [hv] at ih
    rw [hu] at hc' hturn
    obtain ⟨hmoves, hmissing⟩ := ih hc'
    rcases hturn with ⟨rfl, htask, hfailed⟩ | ⟨hne, hquiet⟩
    · have hcons : failedJobs (⟨job, u, .failed, moments⟩ :: turns) = job :: failedJobs turns := rfl
      refine ⟨?_, List.forall_mem_cons.mpr ⟨htask, hmissing⟩⟩
      have hall := (moves_call hpop ⟨trivial, trivial⟩).trans
        ((hfailed.mono (failures_mono fun _ hq => List.mem_singleton.mp hq ▸ List.mem_cons_self)).trans
          (hmoves.mono (failures_mono (List.subset_cons_self job _))))
      exact hall
    · rw [failedJobs_cons_of_ne hne]
      refine ⟨?_, hmissing⟩
      exact (moves_call hpop ⟨trivial, trivial⟩).trans
        ((hquiet.mono Set.subset_union_left).trans hmoves)

/-- What is announced for one job: as many entries as there are failures of its copies. -/
lemma filter_toldFailures {l : List Job} {id : String}
    (hl : ∀ q ∈ l, q.ID = id → ShouldDispatchEvent q eventJobFailed ∧ unknownTask q = data) :
    ((toldFailures l).filter fun n => n.1 = id ∧ n.2.1 = eventJobFailed).map (fun n => n.2.2) =
      List.replicate ((l.map Job.ID).count id) data := by
  induction l with
  | nil => rfl
  | cons q l ih =>
    obtain ⟨hq, hl⟩ := List.forall_mem_cons.mp hl
    have hcons : toldFailures (q :: l) =
        told q eventJobFailed (unknownTask q) ++ toldFailures l := rfl
    rw [hcons, List.filter_append, List.map_append, ih hl, List.map_cons, List.count_cons]
    by_cases hid : q.ID = id
    · obtain ⟨hask, hdata⟩ := hq hid
      rw [filter_told_self hid hask, hdata, if_pos (beq_iff_eq.mpr hid), List.replicate_succ,
        List.singleton_append]
    · have hnone : (told q eventJobFailed (unknownTask q)).filter
          (fun n => n.1 = id ∧ n.2.1 = eventJobFailed) = [] := by
        unfold told
        split_ifs <;> simp [hid]
      rw [hnone, if_neg (by simpa using hid)]
      rfl

/-- The failures of a job's copies in a pass, and the copies discarded, are copies it found. -/
lemma count_failed_le (h : Loop cfg (execNew cfg.toStores) online s c turns t) (id : String) :
    ((failedJobs turns).map Job.ID).count id +
      (if id ∈ s.cancelledJobIDs ∧ id ∈ s.queue.map Job.ID then 1 else 0) ≤ queued s id := by
  have hacc := accounted_of_loop (fun h => h.2) h
  have hperm := (hacc.jobs.trans (perm_outcomes turns)).map Job.ID
  rw [← hacc.discarded id]
  unfold queued
  rw [hperm.count_eq, List.map_append, List.map_append, List.count_append, List.count_append]
  omega

lemma announced_pass {shortage : Bool} (hf : Faithful s) (hheard : Heard cfg s .processQueue)
    (h : Prog.Ends (execNew cfg.toStores) (ProcessQueue cfg) s shortage t) : Announced s t := by
  obtain ⟨turns, hpass⟩ := passes_of_ends (fun h => h.2) h
  cases hpass with
  | idle hq =>
    exact announced_of_moves (E := ∅) (.refl s) fun _ _ _ _ _ _ hmem => hmem.elim
  | @loop u v w _ online turns hne hage honline hloop ht =>
    have hfu : Faithful u := faithful_call (F := ∅) ⟨hf, fun _ h => h.elim⟩ hage trivial
    obtain ⟨-, -, rfl⟩ := honline
    obtain ⟨hmoves, hmissing⟩ := moves_loop hloop (fun _ h => absurd h (Finset.notMem_empty _))
    have hlast : Moves (failures (failedJobs turns)) [] w t := by
      rw [ht]
      exact ⟨.of_eq rfl, .of_eq rfl⟩
    have hall := (moves_call hage ⟨trivial, trivial⟩).trans (hmoves.trans hlast)
    rw [List.nil_append, List.append_nil] at hall
    have hqueue (id : String) : queued v id = queued s id := by
      obtain ⟨-, now, rfl⟩ := hage
      unfold queued
      rw [aged_map_ID]
    have hjobs : v.jobs = s.jobs ∧ v.tasks = s.tasks ∧ v.cancelledJobIDs = s.cancelledJobIDs := by
      obtain ⟨-, now, rfl⟩ := hage
      exact ⟨rfl, rfl, rfl⟩
    have hpopped {q : Job} (hq : q ∈ failedJobs turns) : q ∈ v.queue := by
      rw [(accounted_of_loop (fun h => h.2) hloop).jobs.mem_iff, (perm_outcomes turns).mem_iff]
      exact List.mem_append_right _ (List.mem_append_left _ hq)
    refine announced_of_moves hall fun id j event data hj hopen hmem hask => ?_
    rcases hmem with hmem | ⟨q, hq, hmem⟩
    · exact nomatch hmem
    obtain ⟨rfl, hend⟩ := Prod.mk.inj hmem
    obtain ⟨rfl, rfl⟩ := Prod.mk.inj (Option.some.inj hend)
    -- every copy with this name agrees with the stored job
    have hcopy {q' : Job} (hq' : q' ∈ failedJobs turns) (hid : q'.ID = q.ID) :
        fixed q' = fixed j := by
      obtain ⟨j', hj', hfixed⟩ := (hfu q' (hpopped hq')).exists_get
      rw [hid, hjobs.1, hj] at hj'
      cases hj'
      exact hfixed.symm
    have htask {q' : Job} (hq' : q' ∈ failedJobs turns) (hid : q'.ID = q.ID) :
        q'.TaskName = j.TaskName := (congrArg Job.TaskName (hcopy hq' hid) :)
    have hsame : ∀ q' ∈ failedJobs turns, q'.ID = q.ID →
        ShouldDispatchEvent q' eventJobFailed ∧ unknownTask q' = unknownTask q := by
      intro q' hq' hid
      refine ⟨(shouldDispatch_congr (hcopy hq' hid) _).mpr hask, ?_⟩
      unfold unknownTask
      rw [htask hq' hid, htask hq rfl]
    have hone : ((failedJobs turns).map Job.ID).count q.ID = 1 := by
      have hpos : 0 < ((failedJobs turns).map Job.ID).count q.ID :=
        List.count_pos_iff.mpr (List.mem_map_of_mem hq)
      have hle := count_failed_le hloop q.ID
      have hmax := hheard q.ID j hj hopen
        (by rw [← hjobs.2.1, ← htask hq rfl]; exact hmissing q hq) hask
      rw [hqueue, hjobs.2.2] at hle
      have hmem : q.ID ∈ v.queue.map Job.ID := List.mem_map_of_mem (hpopped hq)
      simp only [hmem, and_true] at hle
      split_ifs at hle hmax <;> omega
    rw [filter_toldFailures hsame, hone]
    rfl

/-! ### Restarts -/

lemma knows_recover (pending recoverable : List Job) :
    Knows {f | ∃ j ∈ pending ++ recoverable, f = .job (fixed j)} (recover pending recoverable) := by
  have hreset (l : List Job) : (resetRecoverable l).Uses (Needs ∅) := by
    induction l with
    | nil => trivial
    | cons j l ih =>
      exact uses_step trivial fun runs => uses_bind _
        (uses_mono needless_call (quiet_closeActiveRuns _ _)) fun _ =>
          uses_step trivial fun _ => ih
  refine informed_bind (informed_of_needless (hreset recoverable) fun _ F hF =>
    informed_EnqueueJobs (fun j hj => hF ?_) trivial)
  rcases List.mem_append.mp hj with hj | hj
  · exact ⟨j, List.mem_append_left _ hj, rfl⟩
  · obtain ⟨i, hi, rfl⟩ := List.mem_map.mp hj
    exact ⟨i, List.mem_append_right _ hi, rfl⟩

/-- A restart, as the calls of its recovery. -/
lemma recover_new {st : Stores} (hs : IDsIssued s) (h : RecoverJobs st (restart s) t) :
    ∃ pending recoverable, (∀ j ∈ pending ++ recoverable, s.jobs.get j.ID = some j) ∧
      Performs (execNew st) (recover pending recoverable) (restart s) t ∧ IDsIssued t := by
  obtain ⟨pending, recoverable, hp, hr, hends⟩ := h
  have howns : Owns (recover pending recoverable) (fun _ _ => True) ∅ :=
    owns_of_informed (knows_recover pending recoverable) fun id hid => by
      obtain ⟨j, -, hj⟩ := hid
      cases hj
  refine ⟨pending, recoverable, fun j hj => ?_,
    performs_new (fun h => h) (s := restart s) hs howns ⟨(), hends⟩⟩
  rcases List.mem_append.mp hj with hj | hj
  · exact mem_values.mp (List.mem_of_mem_filter (hp.1.mem_iff.mp hj))
  · exact mem_values.mp (List.mem_of_mem_filter (hr.mem_iff.mp hj))

lemma faithful_recover {pending recoverable : List Job}
    (hl : ∀ j ∈ pending ++ recoverable, s.jobs.get j.ID = some j)
    (h : Performs (execNew st) (recover pending recoverable) (restart s) t) : Faithful t := by
  obtain ⟨a, ha⟩ := h
  refine faithful_of_knows (knows_recover pending recoverable)
    ⟨fun q hq => absurd hq List.not_mem_nil, ?_⟩ ha
  rintro f ⟨j, hj, hf⟩
  cases hf
  exact known_of_get (s := restart s) (hl j hj)

/-! ### Runs -/

/-- The identifiers in use are issued, and the heap holds copies of stored jobs. -/
def Sound (s : World) : Prop := IDsIssued s ∧ Faithful s

lemma sound_initial : Sound World.initial :=
  ⟨⟨fun _ h => absurd rfl h, fun _ h => absurd rfl h⟩, fun _ h => absurd h List.not_mem_nil⟩

/-- The condition for the next act; a restart always meets it. -/
def HeardNext (cfg : Config) (s : World) : Act → Prop
  | .op op => Heard cfg s op
  | .recover => True

lemma sound_next {a : Act} (hs : Sound s) (h : next cfg (exec cfg.toStores) s a t) : Sound t := by
  cases a with
  | op op =>
    obtain ⟨hnew, ht⟩ := stepBy_new hs.1 h
    exact ⟨ht, faithful_step hs.2 hnew⟩
  | recover =>
    obtain ⟨pending, recoverable, hl, hperforms, ht⟩ := recover_new hs.1 h
    exact ⟨ht, faithful_recover hl hperforms⟩

lemma within_of_onward {β : Type} (c : Call β) (hc : Onward c) : Within reopened c := by
  cases c with
  | updateJob id m =>
    intro now j
    rcases hc with rfl | rfl | rfl | rfl | rfl <;> exact .inr rfl
  | updateJobFiring => exact hc.elim
  | _ => trivial

/-- **One operation** that the condition holds for announces every end it brings about. -/
theorem announced_step {op : Op} (hlanes : cfg.lanes = true) (hs : Sound s)
    (hheard : Heard cfg s op) (h : step cfg s op t) : Announced s t := by
  obtain ⟨hnew, -⟩ := stepBy_new hs.1 h
  cases op with
  | submit req =>
    exact announced_of_within (uses_handleSubmitJob within_call req (fun _ _ _ => trivial)
      fun _ => trivial) hnew
  | processQueue =>
    obtain ⟨shortage, hends⟩ := hnew
    exact announced_pass hs.2 hheard hends
  | result =>
    obtain ⟨_, hends⟩ := hnew
    exact announced_result hlanes hheard hends
  | cancel =>
    obtain ⟨_, hends⟩ := hnew
    exact announced_cancel cfg hheard hends
  | _ =>
    obtain ⟨u, q, hq⟩ := serves_of_stepBy hnew
    have hu := announced_of_within (uses_mono within_of_onward (hq.onward trivial)) ⟨(), hq.ends⟩
    rwa [Announced, hq.kept.jobs, hq.kept.webhooks] at hu

lemma announced_next {a : Act} (hlanes : cfg.lanes = true) (hs : Sound s)
    (hheard : HeardNext cfg s a) (h : next cfg (exec cfg.toStores) s a t) : Announced s t := by
  cases a with
  | op op => exact announced_step hlanes hs hheard h
  | recover =>
    obtain ⟨pending, recoverable, -, hperforms, -⟩ := recover_new hs.1 h
    exact announced_of_within (s := restart s) (uses_recover within_call (fun _ => trivial)
      (fun _ _ _ => .inr rfl) pending recoverable) hperforms

/-- **Webhook completeness.** In a run of operations and restarts that all meet the condition,
each time a job that asked for it ends, one entry with its ID and the event is enqueued, with the
result or the reason the store has for it. -/
theorem announced_of_heard (cfg : Config) (hlanes : cfg.lanes = true) {tr : List (World × Act)}
    (hs : Sound s) (h : Run (next cfg (exec cfg.toStores)) s tr t) (hheard : Meets (HeardNext cfg) tr) :
    (states tr t).IsChain Announced :=
  Run.chain (G := HeardNext cfg) (fun _ _ _ hI _ hstep => sound_next hI hstep)
    (fun _ _ _ hI hG hstep => announced_next hlanes hI hG hstep) h hheard hs

/-! ### Three runs -/

/-- A job that asked for all its events. -/
def asked : List Op :=
  [.saveTask { Name := "t" }, .submit { Task := "t", Webhook := some { URL := "u" } }]

theorem announced_asked :
    ∃ tr t, Run (next .defaults (exec Config.defaults.toStores)) World.initial tr t ∧
      (states tr t).IsChain Announced ∧
      t.webhooks = [⟨"e", eventJobCancelled, "p", "", "u", [], .none, 5⟩] := by
  obtain ⟨tr, t, hrun, hheard, hnews⟩ : ∃ tr t,
      Run (next .defaults (exec Config.defaults.toStores)) World.initial tr t ∧
      Meets (HeardNext .defaults) tr ∧
      t.webhooks = [⟨"e", eventJobCancelled, "p", "", "u", [], .none, 5⟩] := by
    refine ⟨_, _, run_ops (asked ++ [.cancel "p"]) { times := [0, 5, 5], ids := ["p", "e"] } rfl,
      ?_, by decide⟩
    show Meets (HeardNext .defaults) [(_, _), (_, _), (_, _)]
    simp only [meets_cons, meets_nil, and_true]
    refine ⟨trivial, trivial, fun job id child _ hchild hparent _ => ?_⟩
    obtain rfl := List.mem_singleton.mp (mem_values_of_get hchild)
    exact absurd hparent (by decide)
  exact ⟨tr, t, hrun, announced_of_heard .defaults rfl sound_initial hrun hheard, hnews⟩

/-- **A completion is announced with a stale result, and a parent's failure not at all.** -/
theorem stale_result_silent_parent :
    (∃ tr t, Run (next .defaults (exec Config.defaults.toStores)) World.initial tr t ∧
      ¬(states tr t).IsChain Announced) ∧
    ∃ tr t, Run (next .defaults (exec Config.defaults.toStores)) World.initial tr t ∧
      ¬(states tr t).IsChain Announced := by
  refine ⟨⟨_, _, run_ops (asked ++ [.result 0
    { JobID := "p", RunID := "", ResultType := .success, Payload := some [49] }])
    { ids := ["p", "e"] } rfl, fun h => ?_⟩, _, _, run_ops (asked ++ [.result 0
    { JobID := "p", RunID := "", ResultType := .subjobs, Jobs := [{ Task := "t" }] }, .result 0
    { JobID := "c", RunID := "", ResultType := .error, Reason := "boom", ExitCode := 2 }])
    { ids := ["p", "c"] } rfl, fun h => ?_⟩
  · obtain ⟨new, hnew, hdue⟩ := List.isChain_iff_getElem.mp h 2 (by decide)
    have hone := hdue "p" _ _ eventJobCompleted (.result (some [49])) rfl (by decide) rfl rfl
      (by decide)
    rw [← show _ = new from hnew] at hone
    exact absurd hone (by decide)
  · obtain ⟨new, hnew, hdue⟩ := List.isChain_iff_getElem.mp h 3 (by decide)
    have hone := hdue "p" _ _ eventJobFailed (.failureReason "boom") rfl (by decide) rfl rfl
      (by decide)
    rw [← show _ = new from hnew] at hone
    exact absurd hone (by decide)

end Workforce.WebhookRuns
