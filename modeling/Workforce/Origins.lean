import Workforce.Terminal

/-!
What stays of a job through any operations.

Identifiers are made fresh, so no operation overwrites a record with a new one: a stored job
stays stored, and its payload, its parent, its task and its time of creation stay as they were
when it was submitted.
-/

namespace Workforce.Origins

open Tables Contract Progs Shared Calls Handlers Dispatcher Runs Footprints Fresh Operations
open Terminal Knowledge

variable {cfg : Config} {α β : Type} {s t : World}

/-! ### Operations overwrite nothing -/

/-- A call that overwrites no record. -/
def execNew (cfg : Stores) {β : Type} (c : Call β) (s : World) (b : β) (t : World) : Prop :=
  StoresNew c s ∧ exec cfg c s b t

section New

variable {run : ∀ {β : Type}, Call β → World → β → World → Prop} {st : Stores}
  (hrun : ∀ {β : Type} {c : Call β} {s b t}, run c s b t → exec st c s b t)

include hrun

lemma ends_new {q : M Unit} {own : Finset String} (hs : IDsIssued s) (hq : Owner own q s)
    (h : Prog.Ends run q s () t) :
    Prog.Ends (fun c s b t => StoresNew c s ∧ run c s b t) q s () t ∧ IDsIssued t := by
  induction q generalizing s own with
  | pure a =>
    obtain ⟨-, rfl⟩ := h
    exact ⟨⟨rfl, rfl⟩, hs⟩
  | call c k ih =>
    obtain ⟨b, u, hu, h⟩ := h
    obtain ⟨hIu, own', hk, -⟩ := (modular_owner st).step hs hq trivial (hrun hu)
    obtain ⟨hends, ht⟩ := ih b hIu hk h
    exact ⟨⟨b, u, ⟨hq.storesNew, hu⟩, hends⟩, ht⟩

/-- A program that makes the identifiers it stores under, run from start to end. -/
lemma performs_new {p : M α} (hs : IDsIssued s) (hp : Owns p (fun _ _ => True) ∅)
    (h : Performs run p s t) :
    Performs (fun c s b t => StoresNew c s ∧ run c s b t) p s t ∧ IDsIssued t := by
  obtain ⟨a, ha⟩ := h
  have hq : Owner ∅ (p >>= fun _ => pure ()) s :=
    ⟨(owns_bind p _ _ _).mpr hp, Finset.empty_subset _, by simp⟩
  have hends : Prog.Ends run (p >>= fun _ => (pure () : M Unit)) s () t :=
    ends_bind.mpr ⟨a, t, ha, rfl, rfl⟩
  obtain ⟨hnew, ht⟩ := ends_new hrun hs hq hends
  obtain ⟨a, u, ha, -, rfl⟩ := ends_bind.mp hnew
  exact ⟨⟨a, ha⟩, ht⟩

end New

lemma sameKeys_removeConnLocked (w : WorkerConn) (s : World) :
    SameKeys s (removeConnLocked w s) := .of_eq rfl rfl (Finset.Subset.refl _)

/-- What only programs change is the same. -/
structure Kept (s t : World) : Prop where
  jobs : t.jobs = s.jobs
  runs : t.runs = s.runs
  issued : t.issued = s.issued
  webhooks : t.webhooks = s.webhooks
  queue : t.queue = s.queue
  cancelledJobIDs : t.cancelledJobIDs = s.cancelledJobIDs

lemma kept_registers {w : WorkerConn} (h : Registers w s t) : Kept s t := by
  rw [h.eq]
  exact ⟨rfl, rfl, rfl, rfl, rfl, rfl⟩

/-- **No operation overwrites a record**, whatever else is asked of its calls. -/
theorem stepBy_newBy {run : ∀ {β : Type}, Call β → World → β → World → Prop}
    (hrun : ∀ {β : Type} {c : Call β} {s b t}, run c s b t → exec cfg.toStores c s b t) {op : Op}
    (hs : IDsIssued s) (h : stepBy cfg run s op t) :
    stepBy cfg (fun c s b t => StoresNew c s ∧ run c s b t) s op t ∧ IDsIssued t := by
  cases op with
  | submit req => exact performs_new hrun hs (owns_of_knows (knows_handleSubmitJob req)) h
  | processQueue => exact performs_new hrun hs (owns_of_knows knows_ProcessQueue) h
  | register conn id os arch capacity =>
    have hkept := kept_registers h.2.2.2.2
    exact ⟨h, (SameKeys.of_eq hkept.jobs hkept.runs hkept.issued.ge).idsIssued hs⟩
  | requeue ids =>
    obtain ⟨hmem, h⟩ := h
    obtain ⟨hnew, ht⟩ := performs_new hrun (s := { s with requeues := s.requeues.erase ids }) hs
      (owns_prog cfg (.requeue ids)) h
    exact ⟨⟨hmem, hnew⟩, ht⟩
  | unregister conn =>
    obtain ⟨w, ids, hw, hids, h⟩ := h
    obtain ⟨hnew, ht⟩ := performs_new hrun ((sameKeys_removeConnLocked w s).idsIssued hs)
      (owns_prog cfg (.requeue ids)) h
    exact ⟨⟨w, ids, hw, hids, hnew⟩, ht⟩
  | heartbeat | capacity | forget | saveTask | deleteTask =>
    cases h
    exact ⟨rfl, hs⟩
  | accept conn workerID jobID => exact performs_new hrun hs (owns_prog cfg (.accept _ _ _)) h
  | staged jobID => exact performs_new hrun hs (owns_prog cfg (.staged _)) h
  | starting workerID jobID runID => exact performs_new hrun hs (owns_prog cfg (.starting _ _ _)) h
  | reject conn jobID => exact performs_new hrun hs (owns_prog cfg (.reject _ _)) h
  | result conn msg => exact performs_new hrun hs (owns_prog cfg (.result _ _)) h
  | retry jobID =>
    obtain ⟨hmem, h⟩ := h
    obtain ⟨hnew, ht⟩ := performs_new hrun (s := { s with timers := s.timers.erase jobID }) hs
      (owns_prog cfg (.retry jobID)) h
    exact ⟨⟨hmem, hnew⟩, ht⟩
  | cancel jobID => exact performs_new hrun hs (owns_prog cfg (.cancel _)) h

theorem stepBy_new {op : Op} (hs : IDsIssued s) (h : step cfg s op t) :
    stepBy cfg (execNew cfg.toStores) s op t ∧ IDsIssued t := stepBy_newBy (fun h => h) hs h

/-! ### Relations between the stores before and after -/

section Rel

/-- A call that stores a job only as new. -/
def SavesNew : {β : Type} → Call β → Prop
  | _, .saveJob job => New job
  | _, _ => True

/-- A call of an operation that is no dispatch pass: it stores a job only as new, and takes
nothing off the queue or off the cancelled names. -/
def Handled : {β : Type} → Call β → Prop
  | _, .saveJob job => New job
  | _, .popItem => False
  | _, .cancelledRemove _ => False
  | _, _ => True

lemma handled_call (c : Call β) (hc : Quiet c) : Handled c := by
  cases c with
  | saveJob | popItem | cancelledRemove => exact hc.elim
  | _ => trivial

lemma savesNew_of_handled (c : Call β) (hc : Handled c) : SavesNew c := by
  cases c with
  | saveJob => exact hc
  | _ => trivial

lemma handled_handleSubmitJob (req : submitJobRequest) : (handleSubmitJob req).Uses Handled :=
  uses_handleSubmitJob handled_call req (fun _ _ _ => (jobOf_fields _ _ _ _).2.2.2)
    fun _ => trivial

lemma savesNew_ProcessQueue : (ProcessQueue cfg).Uses SavesNew :=
  uses_ProcessQueue (fun c hc => savesNew_of_handled c (handled_call c hc)) (fun _ => trivial) cfg
    trivial (fun _ => trivial) (fun _ => trivial) (fun _ _ _ _ => trivial) (fun _ => trivial)
    (fun _ _ _ => trivial) fun _ _ => trivial

lemma handled_prog (cfg : Config) (a : Activity) : (a.prog cfg).Uses Handled := by
  cases a with
  | accept w workerID jobID =>
    exact uses_handleAcceptMessage handled_call cfg (by trivial) (fun _ _ => trivial) _ _
  | staged jobID => exact uses_step trivial fun _ => trivial
  | starting workerID jobID runID =>
    exact uses_handleStartingMessage handled_call (fun _ => trivial) (fun _ => trivial) _ _ _
  | reject w jobID =>
    exact uses_handleRejectMessage handled_call (fun _ => trivial) (by trivial)
      (fun _ _ _ => trivial) (fun _ _ => trivial) _
  | result w msg =>
    exact uses_handleResultMessage handled_call (fun _ => trivial) cfg (fun _ h => h)
      (fun _ _ => trivial) (fun _ _ => trivial) (fun _ _ _ => trivial) (fun _ _ => trivial) _ _
  | retry jobID => exact uses_retryTimer handled_call (fun _ => trivial) trivial
  | requeue jobIDs =>
    exact uses_OnJobsRequeued handled_call (fun _ => trivial) fun _ _ => trivial
  | cancel jobID =>
    exact uses_cancelJobByID handled_call (fun _ => trivial) (fun _ => trivial) _
  | propose job keys =>
    exact uses_bind _ (uses_tryProposeJob handled_call cfg job (fun _ _ _ => trivial)
      trivial (fun _ => trivial) keys) fun _ => trivial

variable {run : ∀ {β : Type}, Call β → World → β → World → Prop} {R : World → World → Prop}

/-- An operation that makes no job and ends none. -/
def OnwardOp : Op → Prop
  | .submit _ | .processQueue | .result _ _ | .cancel _ => False
  | _ => True

/-- A call of such an operation. -/
def Onward : {β : Type} → Call β → Prop
  | _, .updateJob _ m =>
    m = .accepted ∨ m = .provisioning ∨ m = .running ∨ m = .pending ∨ m = .requeued
  | _, .createRun _ | _, .updateRun _ _ | _, .pushItem _ | _, .restoreCapacity _ _ _
  | _, .putRejected _ _ => True
  | _, c => Quiet c

lemma onward_call (c : Call β) (hc : Quiet c) : Onward c := by
  cases c with
  | updateJob => exact hc.elim
  | createRun | updateRun | pushItem | restoreCapacity | putRejected => trivial
  | _ => exact hc

/-- What the manager runs on a thread of its own. -/
inductive Served (cfg : Config) : M Unit → Prop
  | nothing : Served cfg (pure ())
  | submit (req : submitJobRequest) : Served cfg do let _ ← handleSubmitJob req
  | pass : Served cfg do let _ ← ProcessQueue cfg
  | activity {a : Activity} (ha : ∀ job keys, a ≠ .propose job keys) : Served cfg (a.prog cfg)

/-- The operation changes the pool, the tasks or the timers and then runs the program `q`. -/
structure Serves (cfg : Config) (run : ∀ {β : Type}, Call β → World → β → World → Prop) (op : Op)
    (s t u : World) (q : M Unit) : Prop where
  kept : Kept s u
  timers : (∀ jobID, op ≠ .retry jobID) → u.timers = s.timers
  served : Served cfg q
  handled : op ≠ .processQueue → q.Uses Handled
  onward : OnwardOp op → q.Uses Onward
  ends : Prog.Ends run q u () t

/-- **An operation is one program.** -/
theorem serves_of_stepBy {op : Op} (h : stepBy cfg run s op t) :
    ∃ u q, Serves cfg run op s t u q := by
  have hact (a : Activity) {u : World} (h : Performs run (a.prog cfg) u t) (hu : Kept s u)
      (ht : (∀ jobID, op ≠ .retry jobID) → u.timers = s.timers)
      (ha : ∀ job keys, a ≠ .propose job keys) (hon : OnwardOp op → (a.prog cfg).Uses Onward) :
      ∃ u q, Serves cfg run op s t u q :=
    ⟨u, _, hu, ht, .activity ha, fun _ => handled_prog cfg a, hon, h.choose_spec⟩
  have hnothing (hu : Kept s t) (ht : t.timers = s.timers) : ∃ u q, Serves cfg run op s t u q :=
    ⟨t, _, hu, fun _ => ht, .nothing, fun _ => trivial, fun _ => trivial, rfl, rfl⟩
  have hrefl : Kept s s := ⟨rfl, rfl, rfl, rfl, rfl, rfl⟩
  have hrequeue (ids : List String) : (OnJobsRequeued ids).Uses Onward :=
    uses_OnJobsRequeued onward_call (fun _ => trivial) fun _ _ => by simp [Onward]
  cases op with
  | submit req =>
    obtain ⟨a, h⟩ := h
    exact ⟨s, _, hrefl, fun _ => rfl, .submit req, fun _ => uses_bind _
      (handled_handleSubmitJob req) fun _ => trivial, fun h => h.elim,
      ends_bind.mpr ⟨a, t, h, rfl, rfl⟩⟩
  | processQueue =>
    obtain ⟨a, h⟩ := h
    exact ⟨s, _, hrefl, fun _ => rfl, .pass, fun hne => absurd rfl hne, fun h => h.elim,
      ends_bind.mpr ⟨a, t, h, rfl, rfl⟩⟩
  | register =>
    have hr := h.2.2.2.2
    exact hnothing (kept_registers hr) (by rw [hr.eq])
  | heartbeat | capacity | forget | saveTask | deleteTask =>
    refine hnothing ?_ (by rw [h])
    rw [h]
    exact ⟨rfl, rfl, rfl, rfl, rfl, rfl⟩
  | requeue ids =>
    exact hact (.requeue ids) h.2 ⟨rfl, rfl, rfl, rfl, rfl, rfl⟩ (fun _ => rfl) (by simp)
      fun _ => hrequeue ids
  | unregister =>
    obtain ⟨w, ids, -, -, h⟩ := h
    exact hact (.requeue ids) h ⟨rfl, rfl, rfl, rfl, rfl, rfl⟩ (fun _ => rfl) (by simp)
      fun _ => hrequeue ids
  | retry jobID =>
    exact hact (.retry jobID) h.2 ⟨rfl, rfl, rfl, rfl, rfl, rfl⟩ (fun h => absurd rfl (h jobID))
      (by simp) fun _ =>
        uses_retryTimer onward_call (fun _ => trivial) (by simp [Onward])
  | accept =>
    exact hact (.accept _ _ _) h hrefl (fun _ => rfl) (by simp) fun _ =>
      uses_handleAcceptMessage onward_call cfg (by simp [Onward]) (fun _ _ => trivial) _ _
  | staged =>
    exact hact (.staged _) h hrefl (fun _ => rfl) (by simp) fun _ =>
      uses_step (.inr (.inl rfl)) fun _ => trivial
  | starting =>
    exact hact (.starting _ _ _) h hrefl (fun _ => rfl) (by simp) fun _ =>
      uses_handleStartingMessage onward_call (fun _ => by simp [Onward]) (fun _ => trivial) _ _ _
  | reject =>
    exact hact (.reject _ _) h hrefl (fun _ => rfl) (by simp) fun _ => uses_handleRejectMessage
      onward_call (fun _ => trivial) (by simp [Onward]) (fun _ _ _ => trivial)
      (fun _ _ => trivial) _
  | result => exact hact (.result _ _) h hrefl (fun _ => rfl) (by simp) fun h => h.elim
  | cancel => exact hact (.cancel _) h hrefl (fun _ => rfl) (by simp) fun h => h.elim

/-- A relation that every call of a handler keeps, and that only looks at what programs change,
is kept by every operation that is no dispatch pass. -/
theorem stepBy_handled (hkept : ∀ s t : World, Kept s t → R s t)
    (htrans : ∀ s t u, R s t → R t u → R s u)
    (hcall : ∀ {β : Type} {c : Call β} {s b t}, Handled c → run c s b t → R s t) {op : Op}
    (hop : op ≠ .processQueue) (h : stepBy cfg run s op t) : R s t := by
  obtain ⟨u, q, hq⟩ := serves_of_stepBy h
  exact htrans _ _ _ (hkept s u hq.kept) (ends_of_uses (fun s => hkept s s
    ⟨rfl, rfl, rfl, rfl, rfl, rfl⟩) htrans hcall (hq.handled hop) hq.ends)

/-- A relation that every call keeps, and that only looks at the job store, is kept by every
operation. The calls store jobs only as new. -/
theorem stepBy_rel (hjobs : ∀ s t : World, t.jobs = s.jobs → R s t)
    (htrans : ∀ s t u, R s t → R t u → R s u)
    (hcall : ∀ {β : Type} {c : Call β} {s b t}, SavesNew c → run c s b t → R s t) {op : Op}
    (h : stepBy cfg run s op t) : R s t := by
  cases op with
  | processQueue =>
    obtain ⟨a, ha⟩ := h
    exact ends_of_uses (fun s => hjobs s s rfl) htrans hcall savesNew_ProcessQueue ha
  | _ =>
    exact stepBy_handled (fun s t hk => hjobs s t hk.jobs) htrans
      (fun hc => hcall (savesNew_of_handled _ hc)) (by exact Op.noConfusion) h

end Rel

/-! ### What stays -/

lemma fixed_apply (m : JobMutation) (now : Time) (j : Job) :
    fixed (m.apply now j) = fixed j := by
  cases m with
  | consolidate =>
    simp only [JobMutation.apply]
    split_ifs <;> rfl
  | _ => rfl

/-- Every stored job is still stored, with everything that is fixed of it. -/
def KeepsFixed (s t : World) : Prop :=
  ∀ id j, s.jobs.get id = some j → ∃ j', t.jobs.get id = some j' ∧ fixed j' = fixed j

lemma KeepsFixed.of_eq (h : t.jobs = s.jobs) : KeepsFixed s t :=
  fun _ j hj => ⟨j, h ▸ hj, rfl⟩

lemma KeepsFixed.trans {u : World} (h : KeepsFixed s t) (h' : KeepsFixed t u) :
    KeepsFixed s u := by
  intro id j hj
  obtain ⟨j', hj', hfixed⟩ := h id j hj
  obtain ⟨j'', hj'', hfixed'⟩ := h' id j' hj'
  exact ⟨j'', hj'', hfixed'.trans hfixed⟩

lemma keepsFixed_modify {id : String} {m : JobMutation} {now : Time}
    (h : t.jobs = s.jobs.modify id (m.apply now)) : KeepsFixed s t := by
  intro k j hj
  rw [h, get_modify _ _ _ (m.apply_ID now)]
  split_ifs with hk
  · subst hk
    exact ⟨m.apply now j, by rw [hj]; rfl, fixed_apply m now j⟩
  · exact ⟨j, hj, rfl⟩

lemma keepsFixed_call {st : Stores} {c : Call β} {b : β} (h : execNew st c s b t) :
    KeepsFixed s t := by
  obtain ⟨hnew, h⟩ := h
  cases c with
  | saveJob job =>
    rcases h with ⟨-, rfl⟩ | ⟨-, rfl⟩
    · exact fun id j hj => ⟨j, get_put_of_new hnew hj, rfl⟩
    · exact .of_eq rfl
  | updateJob id m =>
    obtain ⟨now, -, rfl⟩ := h
    exact keepsFixed_modify rfl
  | updateJobFiring id reason =>
    obtain ⟨-, -, rfl⟩ | ⟨now, issued, webhooks, -, -, -, rfl⟩ := exec_updateJobFiring h
    · exact .of_eq rfl
    · exact keepsFixed_modify rfl
  | _ => exact .of_eq (jobs_unchanged (by exact id) h).1

lemma keepsFixed_step {op : Op} (h : stepBy cfg (execNew cfg.toStores) s op t) :
    KeepsFixed s t :=
  stepBy_rel (R := KeepsFixed) (fun _ _ => KeepsFixed.of_eq) (fun _ _ _ => KeepsFixed.trans)
    (fun _ => keepsFixed_call) h

structure SameOrigin (j j' : Job) : Prop where
  ID : j'.ID = j.ID
  ParentJobID : j'.ParentJobID = j.ParentJobID
  TaskName : j'.TaskName = j.TaskName
  Payload : j'.Payload = j.Payload
  CreatedAt : j'.CreatedAt = j.CreatedAt

lemma sameOrigin_of_fixed {j j' : Job} (h : fixed j' = fixed j) : SameOrigin j j' where
  ID := (congrArg Job.ID h :)
  ParentJobID := (congrArg Job.ParentJobID h :)
  TaskName := (congrArg Job.TaskName h :)
  Payload := (congrArg Job.Payload h :)
  CreatedAt := (congrArg Job.CreatedAt h :)

/-- Every stored job is still stored, as the same job. -/
def Survive (s t : World) : Prop :=
  ∀ id j, s.jobs.get id = some j → ∃ j', t.jobs.get id = some j' ∧ SameOrigin j j'

lemma KeepsFixed.survive (h : KeepsFixed s t) : Survive s t := by
  intro id j hj
  obtain ⟨j', hj', hfixed⟩ := h id j hj
  exact ⟨j', hj', sameOrigin_of_fixed hfixed⟩

lemma keepsFixed_run {tr : List (World × Op)} (hs : IDsIssued s) (h : Run (step cfg) s tr t) :
    KeepsFixed s t ∧ IDsIssued t := by
  induction h with
  | nil s => exact ⟨.of_eq rfl, hs⟩
  | cons hstep hrun ih =>
    obtain ⟨hnew, hu⟩ := stepBy_new hs hstep
    obtain ⟨hrest, ht⟩ := ih hu
    exact ⟨(keepsFixed_step hnew).trans hrest, ht⟩

/-- **Jobs survive every run**, with the payload they were submitted with. -/
theorem survive_run {tr : List (World × Op)} (hs : IDsIssued s) (h : Run (step cfg) s tr t) :
    Survive s t ∧ IDsIssued t :=
  ⟨(keepsFixed_run hs h).1.survive, (keepsFixed_run hs h).2⟩

end Workforce.Origins
