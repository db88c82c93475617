import Workforce.Origins
import Workforce.Stranding

/-!
No parent waits in vain, as long as every end of a child that its parent is not told of
leaves the parent another open child.
-/

namespace Workforce.NoneStranded

open Tables Contract Progs Shared Calls Handlers Dispatcher Operations Footprints Consolidation
open Stranding Runs

variable {cfg : Config} {α : Type} {s t : World} {X : Set String}

/-! ### Operations that end no job -/

/-- A callback that writes one fixed status is lively when the status is. -/
lemma lively_writes {m : JobMutation} {st : JobStatus} (hm : m.writes = some st)
    (h : ¬st.IsTerminal ∧ st ≠ .awaitingChildren) : JobMutation.Lively m := by
  intro st' hst'
  rw [hm] at hst'
  cases hst'
  exact h

lemma lively_silent {m : JobMutation} (hm : m.writes = none) : JobMutation.Lively m := by
  intro st hst
  rw [hm] at hst
  cases hst

lemma kept_of_onward {β : Type} (c : Call β) (hc : Origins.Onward c) : Kept c := by
  cases c with
  | updateJob id m =>
    rcases hc with rfl | rfl | rfl | rfl | rfl <;> exact lively_writes rfl (by decide)
  | saveJob | updateJobFiring => exact hc.elim
  | _ => trivial

lemma kept_call {β : Type} (c : Call β) (hc : Quiet c) : Kept c :=
  kept_of_onward c (Origins.onward_call c hc)

lemma kept_EnqueueJobs (jobs : List Job) : (EnqueueJobs jobs).Uses Kept :=
  uses_EnqueueJobs (fun _ => trivial) jobs

lemma kept_ProcessQueue : (ProcessQueue cfg).Uses Kept :=
  uses_ProcessQueue kept_call (fun _ => trivial) cfg trivial (fun _ => trivial)
    (fun _ => trivial) (fun _ _ _ _ => trivial) (fun _ => by exact lively_writes rfl (by decide))
    (fun _ _ _ => trivial) fun _ _ => trivial

lemma kept_checkSiblings (parentJobID : String) : (checkSiblings parentJobID).Uses Kept :=
  uses_checkSiblings (fun _ => trivial) (fun _ => trivial) (fun _ => trivial)
    (fun _ => lively_silent rfl) parentJobID

lemma leaves_unwritten {p : M α} {Q : α → World → Prop} (hp : p.Uses fun c => ¬WritesJobs c)
    (hQ : ∀ a t, t.jobs = s.jobs → s.issued ⊆ t.issued → Q a t) : Leaves cfg p Q s := by
  refine wp_of_uses (R := fun s t : World => t.jobs = s.jobs ∧ s.issued ⊆ t.issued)
    (fun _ => ⟨rfl, subset_rfl⟩) (fun _ _ _ h h' => ⟨h'.1.trans h.1, h.2.trans h'.2⟩)
    (fun hc he => jobs_unchanged hc he.2) (fun _ => trivial) hp
    fun a t ht => hQ a t ht.1 ht.2

lemma not_writesJobs_of_calm {β : Type} (c : Call β) (hc : Calm c) : ¬WritesJobs c := by
  cases c with
  | saveJob | updateJob | updateJobFiring => exact hc.elim
  | _ => exact id

/-! ### Submissions -/

variable {id pid jobID : String} {job parent : Job}

lemma attended_saveNew {stores : Stores} {r : Option String} {u : World} (h : Attended X s)
    (ht : exec stores .ulidMake s id t) (hu : exec stores (.saveJob job) t r u) (hid : job.ID = id)
    (hst : job.Status = .pending) :
    Attended X u ∧ (r = none → s.jobs.get id = none ∧ u.jobs = s.jobs.put job) := by
  obtain ⟨hname, hnew, rfl⟩ := ht
  have hfree : s.jobs.get id = none := by
    by_contra hne
    exact hnew (h.issued id hne)
  have h' : Attended X { s with issued := insert id s.issued } :=
    h.of_eq rfl (Finset.subset_insert _ _)
  subst hid
  rcases hu with ⟨rfl, rfl⟩ | ⟨hr, rfl⟩
  · exact ⟨h'.save hfree hname (Finset.mem_insert_self _ _) hst rfl rfl, fun _ => ⟨hfree, rfl⟩⟩
  · exact ⟨h', fun he => absurd he hr⟩

lemma leaves_handleSubmitJob {req : submitJobRequest} (h : Attended X s) :
    Leaves cfg (handleSubmitJob req) (fun _ t => Attended X t) s := by
  unfold handleSubmitJob
  split_ifs
  · exact h
  refine leaves_step fun task t _ ht => ?_
  obtain ⟨-, rfl⟩ := ht
  cases task with
  | none => exact h
  | some taskDef =>
    refine leaves_step fun now u _ hu => ?_
    obtain rfl : u = t := hu
    refine leaves_step fun id v _ hv => leaves_step fun r w _ hw => ?_
    obtain ⟨h', -⟩ := attended_saveNew h hv hw (jobOf_fields _ _ _ _).1
      (jobOf_fields _ _ _ _).2.1
    cases r with
    | some err => exact h'
    | none => exact leaves_step fun _ x _ hx => h'.lively (by trivial) hx

/-! ### A child completes -/

/-- All siblings have completed: whatever the parent was, it does not wait any more. -/
lemma leaves_checkSiblings (h : Attended {pid} s) (hall : AllCompleted pid s) :
    Leaves cfg (checkSiblings pid) (fun _ t => Attended ∅ t) s := by
  have hdrop : ∀ {u : World}, Attended {pid} u → ¬Awaits pid u → Attended ∅ u := fun hu hw =>
    Attended.drop (by rwa [insert_empty_eq]) hw
  unfold checkSiblings
  split_ifs with hroot
  · refine hdrop h fun ⟨j, hj, _⟩ => ?_
    rw [hroot, h.named] at hj
    cases hj
  refine leaves_step fun siblings t _ ht => ?_
  have hlist := (forall_mem_listed .completed ht).mpr hall
  obtain rfl : t = s := ht.2.2
  rw [if_pos hlist]
  refine leaves_step fun parent u _ hu => ?_
  obtain ⟨hget, rfl⟩ := hu
  cases parent with
  | none =>
    refine hdrop h fun ⟨j, hj, _⟩ => ?_
    rw [← hget] at hj
    cases hj
  | some parent =>
    obtain rfl : parent.ID = pid := key_of_get hget.symm
    refine leaves_step fun scheduled v _ hv => ?_
    have h' : Attended ∅ v := by
      refine hdrop (h.lively (by exact lively_silent rfl) hv) ?_
      obtain ⟨now, -, rfl⟩ := hv
      exact not_awaits_of_consolidate rfl
    split_ifs
    · exact wp_lift trivial fun _ w hw => h'.lively (by trivial) hw.2
    · exact h'

lemma allCompleted_after {result : JsonOrBytes} {now : Time}
    (hjobs : t.jobs = s.jobs.modify id ((JobMutation.completed result).apply now))
    (hall : ∀ c, IsChild pid s c → c.ID ≠ id → c.Status = .completed) : AllCompleted pid t := by
  rintro c ⟨hc, hcp⟩
  rw [hjobs, get_modify _ _ _ (JobMutation.apply_ID _ now)] at hc
  split_ifs at hc with hid
  · obtain ⟨c₀, -, rfl⟩ := Option.map_eq_some_iff.mp hc
    rfl
  · exact hall c ⟨hc, hcp⟩ hid

variable {w : ConnID} {msg : ResultMessage}

lemma leaves_finishing {Q : Bool → World → Prop} (hlanes : cfg.lanes = true)
    (hQ : ∀ t, t.jobs = s.jobs → s.issued ⊆ t.issued → Q true t) :
    Leaves cfg (finishing w job msg) Q s := by
  refine leaves_bind (leaves_quiet (quiet_resolveRunID _ _) fun _ t ht => ?_)
  refine leaves_bind (leaves_quiet (quiet_closeRun _ _ _ _ _ _ _) fun _ u hu => ?_)
  refine leaves_step fun restored v _ hv => ?_
  obtain ⟨rfl, rfl⟩ := exec_restoreCapacity hlanes hv
  refine leaves_bind (p := FireJobCompleted _) (leaves_quiet (quiet_enqueue _ _ _) fun _ x hx => ?_)
  have hs := ht.trans hu
  exact hQ x (hx.jobs.trans hs.jobs) (hs.issued.trans hx.issued)

lemma leaves_handleJobCompleted (hlanes : cfg.lanes = true) (h : Attended ∅ s)
    (hget : s.jobs.get job.ID = some job) (hid : msg.JobID = job.ID) :
    Leaves cfg (handleJobCompleted w job msg) (fun _ t => Attended ∅ t) s := by
  by_cases hterm : job.Status.IsTerminal
  · simp only [handleJobCompleted, if_pos hterm]
    exact h
  rw [handleJobCompleted_eq hterm]
  refine leaves_step fun updated t hsp ht => ?_
  rw [hid] at hsp ht
  obtain ⟨now, rfl, hts⟩ := ht
  have hjobs : t.jobs = s.jobs.modify job.ID ((JobMutation.completed msg.Payload).apply now) := by
    rw [hts]
  have hi : s.issued ⊆ t.issued := by rw [hts]
  have hm : (JobMutation.completed msg.Payload).writes ≠ some .awaitingChildren := by
    simp [JobMutation.writes]
  rw [hget]
  have hcalm : (finishing w job msg).Uses Kept := by
    refine uses_mono (fun c hc => ?_) (calm_finishing w job msg)
    cases c with
    | saveJob | updateJob | updateJobFiring => exact hc.elim
    | _ => trivial
  rcases hsp with hd | hall
  · have h' := h.endJob hd hm hjobs hi
    refine leaves_bind (leaves_kept hcalm h' fun restored u hu => ?_)
    cases restored with
    | false => exact hu
    | true => exact leaves_kept (kept_checkSiblings _) hu fun _ v hv => hv
  · -- the job was the last open child: its parent is set aside until the siblings are checked
    have h' : Attended {job.ParentJobID} t := by
      refine (h.mono (Set.empty_subset _)).endChild (fun j hj => ?_) hm hjobs hi
      rw [hget] at hj
      cases hj
      exact rfl
    have hdone := allCompleted_after hjobs (hall job hget)
    refine leaves_bind (leaves_finishing hlanes fun u hju hiu => ?_)
    refine leaves_checkSiblings (h'.of_eq hju hiu) ?_
    simpa only [AllCompleted, IsChild, hju] using hdone

/-! ### A job fails -/

/-- The parent the handler's copy of a job names is the one the store names. -/
def SameParent (s : World) (job : Job) : Prop :=
  ∀ j, s.jobs.get job.ID = some j → j.ParentJobID = job.ParentJobID

lemma leaves_handleFailJob (h : Attended ∅ s) (hparent : SameParent s job) :
    Leaves cfg (handleFailJob job msg) (fun _ t => Attended ∅ t) s := by
  have hdrop : ∀ {u : World}, Attended {job.ParentJobID} u → ¬Awaits job.ParentJobID u →
      Attended ∅ u := fun hu hw => Attended.drop (by rwa [insert_empty_eq]) hw
  refine leaves_step fun _ t _ ht => ?_
  obtain ⟨now, -, rfl⟩ := ht
  -- the parent is set aside until it is told
  have h' : Attended {job.ParentJobID}
      { s with jobs := s.jobs.modify job.ID (JobMutation.failed.apply now) } :=
    (h.mono (Set.empty_subset _)).endChild (fun j hj => hparent j hj)
      (by simp [JobMutation.writes]) rfl subset_rfl
  refine leaves_bind (leaves_quiet (quiet_enqueue _ _ _) fun _ u hu => ?_)
  replace h' := h'.same hu
  split_ifs with hroot
  · refine hdrop h' ?_
    rintro ⟨j, hj, -⟩
    rw [hroot, h'.named] at hj
    cases hj
  refine leaves_step fun parent v _ hv => ?_
  obtain ⟨hget, rfl⟩ := hv
  cases parent with
  | none =>
    refine hdrop h' ?_
    rintro ⟨j, hj, -⟩
    rw [← hget] at hj
    cases hj
  | some parent =>
    have hid : parent.ID = job.ParentJobID := key_of_get hget.symm
    refine leaves_step fun updated w hsp hw => ?_
    obtain ⟨now', -, hws⟩ := hw
    have hjobs : w.jobs = v.jobs.modify parent.ID ((JobMutation.failedFor msg.Reason).apply now') := by
      rw [hws]
    have hend : Attended ∅ w := by
      refine hdrop (h'.endJob hsp (by simp [JobMutation.writes]) hjobs (by rw [hws])) ?_
      rw [← hid]
      exact not_awaits_of_update rfl (by decide) hjobs
    split_ifs
    · exact hend
    · exact leaves_quiet (quiet_enqueue _ _ _) fun _ x hx => hend.same hx

lemma leaves_handleJobError (h : Attended ∅ s) (hget : s.jobs.get job.ID = some job) :
    Leaves cfg (handleJobError cfg w job msg) (fun _ t => Attended ∅ t) s := by
  unfold handleJobError
  by_cases hterm : job.Status.IsTerminal
  · split_ifs
    · exact leaves_bind (leaves_quiet (quiet_resolveRunID _ _) fun _ t ht =>
        leaves_quiet (quiet_closeRun _ _ _ _ _ _ _) fun _ u hu => (h.same ht).same hu)
    · exact h
  rw [if_neg hterm]
  refine leaves_step fun _ t _ ht => ?_
  refine leaves_bind (leaves_quiet (quiet_resolveRunID _ _) fun runID u hu => ?_)
  refine leaves_bind (leaves_quiet (quiet_closeRun _ _ _ _ _ _ _) fun _ v hv => ?_)
  replace hv := hu.trans hv
  have h₁ : Attended ∅ v := (h.lively (by trivial) ht).same hv
  have hget' : v.jobs.get job.ID = some job := by
    rw [hv.jobs, (untouched ht).jobs nofun, hget]
  refine leaves_step fun _ x _ hx => ?_
  have h₂ : Attended ∅ x := h₁.lively (by exact lively_silent rfl) hx
  have hparent : SameParent x { job with Attempts := job.Attempts + 1 } := by
    obtain ⟨now, -, rfl⟩ := hx
    intro j hj
    rw [get_modify _ _ _ (JobMutation.apply_ID _ now), if_pos rfl, hget'] at hj
    cases hj
    rfl
  split_ifs
  · exact leaves_handleFailJob h₂ hparent
  · exact leaves_handleFailJob h₂ hparent
  refine leaves_step fun taskDef y _ hy => ?_
  obtain ⟨-, rfl⟩ := hy
  dsimp only
  split_ifs
  · exact wp_lift trivial fun _ z hz => h₂.lively (by trivial) hz.2
  · exact leaves_handleFailJob h₂ hparent

/-! ### A job emits children -/

/-- The job is stored and has a child, other than itself, that has not ended. -/
def Emitted (pid : String) (s : World) : Prop := ∃ c, OpenChild pid s c ∧ c.ID ≠ pid

lemma emitted_of_put (hjobs : t.jobs = s.jobs.put job) (hp : job.ParentJobID = pid)
    (hst : job.Status = .pending) (hne : job.ID ≠ pid) : Emitted pid t := by
  refine ⟨job, ⟨⟨?_, hp⟩, ?_⟩, hne⟩
  · rw [hjobs, get_put_self]
  · rw [hst]
    decide

/-- The loop keeps the waiting parents attended, and ends with an open child for the emitting
job if it made any. -/
lemma leaves_createChildren {start : Time} {reqs : List ChildJobRequest} (h : Attended ∅ s)
    (hstored : s.jobs.get parent.ID ≠ none) (hreqs : reqs ≠ []) :
    Leaves cfg (createChildren cfg parent start 0 reqs [])
      (fun r t => Attended ∅ t ∧ (r.isOk → Emitted parent.ID t)) s := by
  refine wp_createChildren cfg (F := Attended ∅) (I := fun l t => Attended ∅ t ∧
      t.jobs.get parent.ID ≠ none ∧ (l ≠ [] → Emitted parent.ID t))
    (fun hc hI => ⟨trivial, fun _ y hy => ?_⟩)
    (fun hI => ⟨trivial, fun id y hy child hid hp hnew => ⟨trivial, fun r z hz => ?_⟩⟩)
    (fun hI => hI.1)
    (fun hF => ⟨trivial, fun _ _ hy _ => ⟨hF.kept (by trivial) hy.1 hy.2, nofun⟩⟩)
    (fun l y hI hlen => ⟨hI.1, fun _ => hI.2.2 ?_⟩) ⟨h, hstored, fun hne => absurd rfl hne⟩
  · have hs := same_of_quiet (quiet_of_looks hc) hy.2
    refine ⟨hI.1.same hs, by rw [hs.jobs]; exact hI.2.1, fun hl => ?_⟩
    simpa only [Emitted, OpenChild, IsChild, hs.jobs] using hI.2.2 hl
  · obtain ⟨h', hput⟩ := attended_saveNew hI.1 hy.2 hz.2 hid hnew.Status
    split_ifs with hr
    · obtain ⟨hfree, hjobs⟩ := hput hr
      have hne : child.ID ≠ parent.ID := fun hk => hI.2.1 (hk ▸ hid ▸ hfree)
      refine ⟨h', ?_, fun _ => emitted_of_put hjobs hp hnew.Status hne⟩
      rw [hjobs, get_put, if_neg hne.symm]
      exact hI.2.1
    · exact h'
  · rintro rfl
    exact hreqs (List.length_eq_zero_iff.mp (by simpa using hlen.symm))

lemma leaves_handleSubjobsEmitted {reqs : List ChildJobRequest} (h : Attended ∅ s)
    (hget : s.jobs.get parent.ID ≠ none) (hreqs : reqs ≠ []) :
    Leaves cfg (handleSubjobsEmitted cfg parent reqs) (fun _ t => Attended ∅ t) s := by
  unfold handleSubjobsEmitted
  split_ifs
  · exact h
  refine leaves_step fun start t _ ht => ?_
  obtain rfl : t = s := ht
  refine leaves_bind (wp_mono (leaves_createChildren h hget hreqs) fun r u hu => ?_)
  obtain ⟨hu, hemitted⟩ := hu
  cases r with
  | error err => exact hu
  | ok children =>
    refine leaves_step fun updated v _ hv => ?_
    obtain ⟨now, -, hvs⟩ := hv
    have hjobs : v.jobs = u.jobs.modify parent.ID (JobMutation.awaitingChildren.apply now) := by
      rw [hvs]
    have hv' : Attended ∅ v := by
      refine hu.update (fun j _ _ hterm => ?_) (fun _ _ => hemitted rfl) hjobs
        (by rw [hvs])
      exact absurd hterm (by show ¬JobStatus.awaitingChildren.IsTerminal; decide)
    split_ifs
    · exact hv'
    · exact leaves_bind (leaves_kept (kept_EnqueueJobs _) hv' fun _ w hw => hw)

/-! ### A job is cancelled -/

lemma unwritten_precancel (id : String) (job : Job) (running : Prop) [Decidable running] :
    (precancel id job running).Uses fun c => ¬WritesJobs c :=
  uses_precancel (uses_mono (fun c hc => not_writesJobs_of_calm c (calm_of_quiet c hc))
    (quiet_SendCancelToWorker id)) (fun _ h => h) job running

lemma dispensable_of_eq (h : Dispensable s id) (hjobs : t.jobs = s.jobs) : Dispensable t id := by
  simpa only [Dispensable, Awaits, OpenChild, IsChild, hjobs] using h

/-- Cancelling a child of a job leaves what the job's own parent can rely on. -/
lemma dispensable_cancelChild {now : Time} (hd : Dispensable s jobID)
    (hid : ∀ j, s.jobs.get id = some j → j.ParentJobID = jobID)
    (hjobs : t.jobs = s.jobs.modify id (JobMutation.cancelled.apply now)) :
    Dispensable t jobID := by
  have hget : ∀ k, t.jobs.get k =
      if k = id then (s.jobs.get id).map (JobMutation.cancelled.apply now) else s.jobs.get k := by
    intro k
    rw [hjobs, get_modify _ _ _ (JobMutation.apply_ID _ now)]
  intro j hj hself hw
  -- the job itself is not the child that was cancelled: it is not its own parent
  have hne : jobID ≠ id := by
    rintro rfl
    rw [hget, if_pos rfl] at hj
    obtain ⟨j₀, hj₀, rfl⟩ := Option.map_eq_some_iff.mp hj
    exact hself (hid j₀ hj₀)
  rw [hget, if_neg hne] at hj
  have hws : Awaits j.ParentJobID s :=
    (awaits_before hjobs hw).resolve_right fun h => by cases h.2
  obtain ⟨c, ⟨⟨hc, hcp⟩, hopen⟩, hcj⟩ := hd j hj hself hws
  have hcid : c.ID ≠ id := by
    rintro rfl
    exact hself (hcp.symm.trans (hid c hc))
  exact ⟨c, ⟨⟨by rw [hget, if_neg hcid, hc], hcp⟩, hopen⟩, hcj⟩

lemma leaves_cancelChildren {l : List Job} (h : Attended {jobID} s) (hd : Dispensable s jobID)
    (hl : ∀ c ∈ l, ∀ j, s.jobs.get c.ID = some j → j.ParentJobID = jobID) :
    Leaves cfg (cancelChildren l) (fun _ t => Attended {jobID} t ∧ Dispensable t jobID) s := by
  induction l generalizing s with
  | nil => exact ⟨h, hd⟩
  | cons child rest ih =>
    rw [cancelChildren_cons]
    split_ifs
    · exact ih h hd fun c hc => hl c (List.mem_cons_of_mem _ hc)
    refine leaves_bind (leaves_unwritten (unwritten_precancel _ _ _) fun _ t hjt hit => ?_)
    have hd' : Dispensable t jobID := dispensable_of_eq hd hjt
    refine leaves_step fun _ u _ hu => ?_
    obtain ⟨now, -, hus⟩ := hu
    have hchild : ∀ j, t.jobs.get child.ID = some j → j.ParentJobID = jobID := by
      rw [hjt]
      exact hl child List.mem_cons_self
    have hjobs : u.jobs = t.jobs.modify child.ID (JobMutation.cancelled.apply now) := by rw [hus]
    refine ih ((h.of_eq hjt hit).endChild hchild (by simp [JobMutation.writes]) hjobs
      (by rw [hus])) (dispensable_cancelChild hd' hchild hjobs) ?_
    intro c hc j hj
    rw [hjobs, get_modify _ _ _ (JobMutation.apply_ID _ now), hjt] at hj
    split_ifs at hj with hid
    · obtain ⟨j₀, hj₀, rfl⟩ := Option.map_eq_some_iff.mp hj
      exact hl child List.mem_cons_self j₀ hj₀
    · exact hl c (List.mem_cons_of_mem _ hc) j hj

lemma leaves_cancelSelf (h : Attended {jobID} s) (hd : Dispensable s jobID) :
    Leaves cfg (cancelSelf jobID job) (fun _ t => Attended ∅ t) s := by
  refine leaves_bind (leaves_unwritten (unwritten_precancel _ _ _) fun _ t hjt hit => ?_)
  refine leaves_step fun _ u _ hu => ?_
  obtain ⟨now, -, hus⟩ := hu
  have hjobs : u.jobs = t.jobs.modify jobID (JobMutation.cancelled.apply now) := by rw [hus]
  have h' : Attended ∅ u := by
    refine Attended.drop (p := jobID) ?_ (not_awaits_of_update rfl (by decide) hjobs)
    rw [insert_empty_eq]
    exact (h.of_eq hjt hit).endJob (dispensable_of_eq hd hjt) (by simp [JobMutation.writes]) hjobs
      (by rw [hus])
  exact leaves_quiet (quiet_enqueue _ _ _) fun _ u hu => h'.same hu

lemma leaves_cancelJobByID (h : Attended ∅ s) (hd : Dispensable s jobID) :
    Leaves cfg (cancelJobByID jobID) (fun _ t => Attended ∅ t) s := by
  rw [cancelJobByID_eq]
  refine leaves_step fun job t _ ht => ?_
  obtain ⟨-, rfl⟩ := ht
  cases job with
  | none => exact h
  | some job =>
    refine leaves_step fun children u _ hu => ?_
    have hchildren : ∀ c ∈ children, ∀ j, t.jobs.get c.ID = some j → j.ParentJobID = jobID := by
      intro c hc j hj
      rw [hu.1.mem_iff, List.mem_filter, mem_values] at hc
      rw [hc.1] at hj
      cases hj
      simpa using hc.2
    obtain rfl : u = t := hu.2.2
    exact leaves_bind (wp_mono (leaves_cancelChildren (h.mono (Set.empty_subset _)) hd hchildren)
      fun _ v hv => leaves_cancelSelf hv.1 hv.2)

/-! ### Results -/

lemma leaves_handleResultMessage (hlanes : cfg.lanes = true) (h : Attended ∅ s)
    (hjobs : msg.ResultType = .subjobs → msg.Jobs ≠ []) :
    Leaves cfg (handleResultMessage cfg w msg) (fun _ t => Attended ∅ t) s := by
  refine leaves_step fun job t _ ht => ?_
  obtain ⟨hget, rfl⟩ := ht
  cases job with
  | none => exact leaves_quiet (quiet_SendError _ _ _) fun _ u hu => h.same hu
  | some job =>
    have hid : job.ID = msg.JobID := key_of_get hget.symm
    rw [← hid] at hget
    dsimp only
    split
    · exact leaves_handleJobError h hget.symm
    · next htype =>
      refine leaves_bind (leaves_quiet (quiet_resolveRunID _ _) fun runID u hu => ?_)
      have hstored : u.jobs.get job.ID ≠ none := by
        rw [hu.jobs, ← hget]
        simp
      refine leaves_bind (wp_mono
        (leaves_handleSubjobsEmitted (h.same hu) hstored (hjobs htype)) fun err v hv => ?_)
      refine leaves_step fun _ x _ hx => ?_
      replace hv := hv.lively (by trivial) hx
      cases err with
      | some err => exact leaves_quiet (quiet_SendError _ _ _) fun _ y hy => hv.same hy
      | none => exact leaves_quiet (quiet_closeRun _ _ _ _ _ _ _) fun _ y hy => hv.same hy
    · exact leaves_handleJobCompleted hlanes h hget.symm hid.symm

/-! ### Runs of operations -/

/-- A subjobs message carries jobs: the parser of result messages rejects one that does not. -/
def Parsed : Op → Prop
  | .result _ msg => msg.ResultType = .subjobs → msg.Jobs ≠ []
  | _ => True

/-- The operation, each of its calls meeting the condition; what is cancelled is not the last
open child of a waiting parent. -/
def careful (cfg : Config) (s : World) (op : Op) (t : World) : Prop :=
  stepBy cfg (sparing cfg.toStores) s op t ∧
    match op with
    | .cancel jobID => Dispensable s jobID
    | _ => True

/-- **One careful operation** keeps the waiting parents attended. -/
theorem attended_step {op : Op} (hlanes : cfg.lanes = true) (h : Attended ∅ s) (hop : Parsed op)
    (hs : careful cfg s op t) : Attended ∅ t := by
  obtain ⟨hs, hcancel⟩ := hs
  have hends {α : Type} {p : M α} {s : World} (hp : Leaves cfg p (fun _ t => Attended ∅ t) s)
      (hs : Performs (sparing cfg.toStores) p s t) : Attended ∅ t := by
    obtain ⟨a, ha⟩ := hs
    exact wp_sound (Q := fun _ t => Attended ∅ t) hp ha
  have hkept {α : Type} {p : M α} {s : World} (hs : Performs (sparing cfg.toStores) p s t)
      (hp : p.Uses Kept) (h : Attended ∅ s) : Attended ∅ t :=
    hends (leaves_kept hp h fun _ _ ht => ht) hs
  cases op with
  | submit req => exact hends (leaves_handleSubmitJob h) hs
  | processQueue => exact hkept hs kept_ProcessQueue h
  | result conn msg => exact hends (leaves_handleResultMessage hlanes h hop) hs
  | cancel jobID => exact hends (leaves_cancelJobByID h hcancel) hs
  | _ =>
    obtain ⟨u, q, hq⟩ := Origins.serves_of_stepBy hs
    exact hkept ⟨(), hq.ends⟩ (uses_mono kept_of_onward (hq.onward trivial))
      (h.of_eq hq.kept.jobs hq.kept.issued.ge)

/-- **No parent waits in vain.** In every state of every run of careful operations, a job that
waits for children has a child that has not ended. -/
theorem waiting_has_open_child (cfg : Config) (hlanes : cfg.lanes = true) {s : World}
    (h : Attended ∅ s) {tr : List (World × Op)} {t : World} (hrun : Run (careful cfg) s tr t)
    (hops : Meets (fun _ op => Parsed op) tr) :
    ∀ u ∈ states tr t, ∀ p, Awaits p u → ∃ c, IsChild p u c ∧ ¬c.Status.IsTerminal := by
  have hinv := hrun.invariant (fun _ _ _ h hop hs => attended_step hlanes h hop hs) hops h
  exact fun u hu p hp => (hinv u hu).openChild p (Set.notMem_empty p) hp

/-! ### A tree of three jobs -/

/-- A job waits for its only child, which waits for its own only child. -/
def tree : World :=
  { World.initial with
    jobs := (((Table.empty _).put { ID := "g", Status := .awaitingChildren }).put
      { ID := "p", ParentJobID := "g", Status := .awaitingChildren }).put
      { ID := "j", ParentJobID := "p", Status := .running }
    issued := insert "g" (insert "p" (insert "j" ∅)) }

lemma tree_attended : Attended ∅ tree := by
  refine ⟨?_, forall_get_ne_none.mpr (by decide), by decide⟩
  rintro p - ⟨j, hj, hst⟩
  obtain ⟨c, hc, hcp, hcopen⟩ := (by decide : ∀ j ∈ tree.jobs.values, j.Status = .awaitingChildren →
    ∃ c ∈ tree.jobs.values, c.ParentJobID = j.ID ∧ ¬c.Status.IsTerminal) j (mem_values_of_get hj) hst
  exact ⟨c, ⟨mem_values.mp hc, hcp.trans (key_of_get hj)⟩, hcopen⟩

/-- Of the calls there is a condition on, only a completion next to completed siblings. -/
def siblingsDone : {β : Type} → Call β → World → Bool
  | _, .updateJob id (.completed _), s => s.jobs.values.all fun c =>
    (s.jobs.get id).all fun j => c.ParentJobID ≠ j.ParentJobID ∨ c.ID = id ∨ c.Status = .completed
  | _, .updateJob _ (.failDirect _), _ => false
  | _, .updateJob _ (.failedFor _), _ => false
  | _, .updateJobFiring _ _, _ => false
  | _, _, _ => true

lemma spares_of_siblingsDone {β : Type} {c : Call β} (h : siblingsDone c s) : Spares c s := by
  cases c with
  | updateJob id m =>
    cases m with
    | completed =>
      refine .inr fun j hj c hc hne => ?_
      have hdone := List.all_eq_true.mp h c (mem_values.mpr hc.1)
      simpa [hj, hc.2, hne] using hdone
    | failDirect | failedFor => cases h
    | _ => trivial
  | updateJobFiring => cases h
  | _ => trivial

/-- The child completes, and its parent is scheduled. -/
theorem waiting_has_open_child_tree :
    ∃ tr t, Run (careful .defaults) tree tr t ∧ (t.jobs.get "p").map Job.Phase = some .consolidate ∧
      ∀ p, Awaits p t → ∃ c, IsChild p t c ∧ ¬c.Status.IsTerminal := by
  obtain ⟨t, hstep, hp⟩ : ∃ t,
      stepBy .defaults (sparing _) tree (.result 0 ⟨"j", "", .success, "", 0, [], none⟩) t ∧
        (t.jobs.get "p").map Job.Phase = some .consolidate :=
    ⟨_, stepBy_of_play (x := ({}, _)) (fun hg h => ⟨spares_of_siblingsDone hg, h⟩) rfl, by decide⟩
  have hrun : Run (careful .defaults) tree _ t := .cons ⟨hstep, trivial⟩ (.nil t)
  refine ⟨_, t, hrun, hp, waiting_has_open_child _ rfl tree_attended hrun ?_ _ Run.last_mem⟩
  rw [meets_cons]
  exact ⟨nofun, meets_nil⟩

/-- What a panic of the child leaves: it and its parent have failed. -/
def treeFailed : World :=
  { tree with
    jobs := ((tree.jobs.modify "j" ((JobMutation.attempts 1 "").apply 1)).modify "j"
      (JobMutation.failed.apply 2)).modify "p" ((JobMutation.failedFor "").apply 3) }

/-- **The parent chain is not failed.** The child of a waiting job fails because its own child
did; the waiting job, whose only child has now ended, waits for ever. -/
theorem grandparent_stranded :
    Run (step .defaults) tree [(tree, .result 0 ⟨"j", "", .error, "", 2, [], none⟩)] treeFailed ∧
      treeFailed.timers = [] ∧ Awaits "g" treeFailed ∧
      ¬∃ c, IsChild "g" treeFailed c ∧ ¬c.Status.IsTerminal := by
  refine ⟨.cons ?_ (.nil _), rfl,
    ⟨{ ID := "g", Status := .awaitingChildren }, by decide, rfl⟩, ?_⟩
  · exact ⟨(), ends_played { times := [1, 2, 3] } rfl⟩
  · have hended : ∀ c ∈ treeFailed.jobs.values, c.ParentJobID = "g" → c.Status.IsTerminal := by
      decide
    rintro ⟨c, hc, hopen⟩
    exact hopen (hended c (mem_values.mpr hc.1) hc.2)

end Workforce.NoneStranded
