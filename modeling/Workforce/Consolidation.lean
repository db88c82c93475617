import Workforce.Footprints

/-!
How the handlers of children's results schedule the consolidate phase of their parent.

Each handler is a thread of atomic calls. What matters of it to the others is the phase it is
in: whether it has stored its child's completion, looked at the siblings, or passed the guard
on the parent. The calls of a handler become moves between phases, and the results on waves
of children are about these moves.
-/

namespace Workforce.Consolidation

open Tables Contract Progs Shared Calls Handlers Footprints

/-- A call that changes neither a job nor the queue. -/
def Calm : {β : Type} → Call β → Prop
  | _, .restoreCapacity _ _ _ => True
  | _, c => Quiet c

/-- A call other than the guarded update of a parent; a job it saves is pending. -/
def Unscheduling : {β : Type} → Call β → Prop
  | _, .updateJob _ .consolidate => False
  | _, .saveJob job => job.Status = .pending
  | _, _ => True

variable {cfg : Stores} {s t : World} {pid : String}

lemma calm_of_quiet {β : Type} (c : Call β) (h : Quiet c) : Calm c := by
  cases c <;> first | exact h | trivial

lemma unscheduling_of_calm {β : Type} (c : Call β) (h : Calm c) : Unscheduling c := by
  cases c with
  | updateJob | saveJob => exact h.elim
  | _ => trivial

lemma unscheduling_of_quiet {β : Type} (c : Call β) (h : Quiet c) : Unscheduling c :=
  unscheduling_of_calm c (calm_of_quiet c h)

lemma unchanged_of_calm {β : Type} {c : Call β} {b : β} (hc : Calm c) (h : exec cfg c s b t) :
    t.jobs = s.jobs ∧ t.queue = s.queue := by
  by_cases hq : Quiet c
  · have hs := same_of_quiet hq h
    exact ⟨hs.jobs, hs.queue⟩
  · cases c with
    | restoreCapacity => rcases h with ⟨-, -, rfl⟩ | ⟨-, rfl⟩ <;> exact ⟨rfl, rfl⟩
    | _ => exact absurd hc hq

/-! ### Children -/

def IsChild (pid : String) (s : World) (c : Job) : Prop :=
  s.jobs.get c.ID = some c ∧ c.ParentJobID = pid

def AllCompleted (pid : String) (s : World) : Prop :=
  ∀ c, IsChild pid s c → c.Status = .completed

def Awaits (pid : String) (s : World) : Prop :=
  ∃ j, s.jobs.get pid = some j ∧ j.Status = .awaitingChildren

lemma allCompleted_iff : AllCompleted pid s ↔
    ∀ c ∈ s.jobs.values, c.ParentJobID = pid → c.Status = .completed := by
  simp only [AllCompleted, IsChild, mem_values, and_imp]

instance : Decidable (AllCompleted pid s) := decidable_of_iff' _ allCompleted_iff

lemma awaited_before {m : JobMutation} {now : Time} {j : Job}
    (h : (m.apply now j).Status = .awaitingChildren) :
    j.Status = .awaitingChildren ∨ m.writes = some .awaitingChildren := by
  rcases hw : m.writes with _ | st
  · rcases JobMutation.apply_of_not_writes hw now j with h' | ⟨h', -⟩
    · exact .inl (h'.symm.trans h)
    · exact .inl h'
  · rw [JobMutation.apply_of_writes hw] at h
    exact .inr (by rw [h])

/-- A parent that waits after an update waited before, or starts to wait with it. -/
lemma awaits_before {id : String} {m : JobMutation} {now : Time}
    (ht : t.jobs = s.jobs.modify id (m.apply now)) (h : Awaits pid t) :
    Awaits pid s ∨ id = pid ∧ m.writes = some .awaitingChildren := by
  obtain ⟨j', hj', hst'⟩ := h
  rw [ht, get_modify _ _ _ (m.apply_ID now)] at hj'
  split_ifs at hj' with hid
  · obtain ⟨j, hj, rfl⟩ := Option.map_eq_some_iff.mp hj'
    exact (awaited_before hst').imp (fun h => ⟨j, by rw [hid]; exact hj, h⟩) fun h =>
      ⟨hid.symm, h⟩
  · exact .inl ⟨j', hj', hst'⟩

lemma forall_mem_listed {l : List Job} (st : JobStatus)
    (h : exec cfg (.listChildJobs pid) s l t) :
    (∀ c ∈ l, c.Status = st) ↔ ∀ c, IsChild pid s c → c.Status = st := by
  have hmem : ∀ c, c ∈ l ↔ IsChild pid s c := by
    intro c
    rw [h.1.mem_iff, List.mem_filter, mem_values]
    simp [IsChild]
  exact forall_congr' fun c => imp_congr_left (hmem c)

/-! ### The phases of a handler -/

inductive Phase
  /-- About to read the job of a success result. -/
  | start (id : String)
  /-- Has read the job, which was not terminal. -/
  | read (job : Job)
  /-- Has stored the completion; the siblings are still to be listed. -/
  | updated (parentID : String)
  /-- Has seen all siblings completed. -/
  | decided (parentID : String)
  /-- Has read the parent to schedule. -/
  | fetched (parent : Job)
  /-- Has passed the guard. -/
  | won (parent : Job)
  /-- Handles the children another job emitted. -/
  | emitting
  /-- Has nothing more to do with jobs. -/
  | idle

/-- The program settles a completed job: its answer is `false` where a lane gave up. -/
def Finishes (cfg : Stores) : M Bool → Prop
  | .pure restored => cfg.lanes = true → restored = true
  | .call c k => Calm c ∧ ∀ s b t, exec cfg c s b t → Finishes cfg (k b)

/-- The programs a handler can have left in a phase. -/
def At (cfg : Config) : Phase → M Unit → Prop
  | .start id, p => ∃ w msg, p = handleResultMessage cfg w msg ∧ msg.ResultType = .success ∧
      msg.JobID = id
  | .read job, p => ¬job.Status.IsTerminal ∧ ∃ w msg, p = handleJobCompleted w job msg ∧
      msg.JobID = job.ID
  | .updated pid, p => pid ≠ "" ∧ ∃ q : M Bool, Finishes cfg.toStores q ∧
      p = q >>= fun restored => if !restored then pure () else checkSiblings pid
  | .decided pid, p => p = scheduleConsolidation pid
  | .fetched parent, p => p = consolidateParent parent
  | .won parent, p => p = EnqueueJob { parent with Status := .pending, Phase := .consolidate }
  | .emitting, p => p.Uses Unscheduling
  | .idle, p => p.Uses Calm

/-- What a call of a handler does to its phase and to the state; `φ` is what is known of the
calls. -/
inductive Moves (cfg : Stores) (φ : ∀ {β : Type}, Call β → World → Prop) :
    Phase → World → Phase → World → Prop
  | read {s : World} {job : Job} :
      s.jobs.get job.ID = some job → Moves cfg φ (.start job.ID) s (.read job) s
  | ignore {s : World} {id : String} : Moves cfg φ (.start id) s .idle s
  | complete {s t : World} {job : Job} {now : Time} {result : JsonOrBytes} :
      s.jobs.get job.ID ≠ none →
      t = { s with jobs := s.jobs.modify job.ID ((JobMutation.completed result).apply now) } →
      Moves cfg φ (.read job) s
        (if job.ParentJobID = "" then .idle else .updated job.ParentJobID) t
  | gone {s : World} {job : Job} : s.jobs.get job.ID = none → Moves cfg φ (.read job) s .idle s
  | calm {s t : World} {g : Phase} : t.jobs = s.jobs → t.queue = s.queue →
      (∃ pid, g = .updated pid) ∨ g = .idle → Moves cfg φ g s g t
  | decide {s : World} {pid : String} :
      AllCompleted pid s → Moves cfg φ (.updated pid) s (.decided pid) s
  | wait {s : World} {pid : String} :
      ¬AllCompleted pid s → Moves cfg φ (.updated pid) s .idle s
  | fetch {s : World} {parent : Job} : s.jobs.get parent.ID = some parent →
      Moves cfg φ (.decided parent.ID) s (.fetched parent) s
  | lost {s : World} {pid : String} :
      s.jobs.get pid = none → Moves cfg φ (.decided pid) s .idle s
  | win {s t : World} {parent j : Job} {now : Time} :
      s.jobs.get parent.ID = some j → j.Status = .awaitingChildren →
      t = { s with jobs := s.jobs.modify parent.ID (JobMutation.consolidate.apply now) } →
      Moves cfg φ (.fetched parent) s (.won parent) t
  | lose {s t : World} {parent : Job} :
      (∀ j, s.jobs.get parent.ID = some j → j.Status ≠ .awaitingChildren) →
      (∀ id, t.jobs.get id = s.jobs.get id) → t.queue = s.queue →
      Moves cfg φ (.fetched parent) s .idle t
  | push {s t : World} {parent : Job} :
      t = { s with queue :=
        s.queue ++ [{ parent with Status := .pending, Phase := .consolidate }] } →
      Moves cfg φ (.won parent) s .idle t
  | emit {s t : World} {β : Type} {c : Call β} {b : β} :
      Unscheduling c → φ c s → exec cfg c s b t → Moves cfg φ .emitting s .emitting t

/-! ### A handler's calls are moves -/

section Calls

variable {cfg : Config} {φ : ∀ {β : Type}, Call β → World → Prop} {β : Type} {c : Call β}
  {k : β → M Unit} {b : β}

lemma moves_start {id : String} (hat : At cfg (.start id) (.call c k))
    (he : exec cfg.toStores c s b t) :
    ∃ g', At cfg g' (k b) ∧ Moves cfg.toStores φ (.start id) s g' t := by
  obtain ⟨w, msg, hp, htype, rfl⟩ := hat
  unfold handleResultMessage GetJob at hp
  simp only [Prog.lift_bind, Prog.call.injEq] at hp
  obtain ⟨rfl, hc, hk⟩ := hp
  cases hc
  cases hk
  obtain ⟨rfl, rfl⟩ := he
  rcases hj : t.jobs.get msg.JobID with _ | job
  · exact ⟨.idle, uses_mono calm_of_quiet (quiet_SendError _ _ _), .ignore⟩
  · have hid : job.ID = msg.JobID := key_of_get hj
    simp only [htype]
    by_cases hterm : job.Status.IsTerminal
    · refine ⟨.idle, ?_, .ignore⟩
      simp only [handleJobCompleted, if_pos hterm]
      trivial
    · refine ⟨.read job, ⟨hterm, w, msg, rfl, hid.symm⟩, ?_⟩
      rw [← hid] at hj ⊢
      exact .read hj

/-- What a handler does between storing the completion and looking at the siblings. -/
def finishing (w : ConnID) (job : Job) (msg : ResultMessage) : M Bool := do
  let runID ← resolveRunID msg.JobID msg.RunID
  closeRun runID msg.JobID FinalRunStatus.completed msg.ResultType msg.Payload "" 0
  let restored ← restoreCapacity w job.ID job.Cost
  if !restored then return false
  FireJobCompleted { job with Status := .completed }
  return true

lemma handleJobCompleted_eq {w : ConnID} {job : Job} {msg : ResultMessage}
    (h : ¬job.Status.IsTerminal) :
    handleJobCompleted w job msg = (do
      let updated ← UpdateJob msg.JobID (.completed msg.Payload)
      if updated = none then return
      finishing w job msg >>= fun restored =>
        if !restored then pure () else checkSiblings job.ParentJobID) := by
  simp only [handleJobCompleted, if_neg h, finishing, bind_assoc]
  refine congrArg _ (funext fun updated => ?_)
  split_ifs
  · rfl
  · refine congrArg _ (funext fun _ => congrArg _ (funext fun _ => congrArg _ (funext fun b => ?_)))
    cases b <;> simp [bind_assoc]

lemma calm_finishing (w : ConnID) (job : Job) (msg : ResultMessage) :
    (finishing w job msg).Uses Calm := by
  refine uses_bind _ (uses_mono calm_of_quiet (quiet_resolveRunID _ _)) fun _ => ?_
  refine uses_bind _ (uses_mono calm_of_quiet (quiet_closeRun _ _ _ _ _ _ _)) fun _ => ?_
  refine uses_step (by trivial) fun restored => ?_
  split_ifs
  · trivial
  · exact uses_bind _ (uses_mono calm_of_quiet (quiet_enqueue _ _ _)) fun _ => trivial

lemma finishes_bind {β : Type} {q : M β} {f : β → M Bool} (hq : q.Uses Calm)
    (hf : ∀ b, Finishes cfg.toStores (f b)) : Finishes cfg.toStores (q >>= f) := by
  induction q with
  | pure b => exact hf b
  | call c k ih => exact ⟨hq.1, fun _ b _ _ => ih b (hq.2 b)⟩

lemma finishes_finishing (w : ConnID) (job : Job) (msg : ResultMessage) :
    Finishes cfg.toStores (finishing w job msg) := by
  refine finishes_bind (uses_mono calm_of_quiet (quiet_resolveRunID _ _)) fun _ => ?_
  refine finishes_bind (uses_mono calm_of_quiet (quiet_closeRun _ _ _ _ _ _ _)) fun _ => ?_
  refine ⟨by trivial, fun s restored t he => ?_⟩
  cases restored with
  | false => exact fun hlanes => (exec_restoreCapacity hlanes he).1
  | true =>
    exact finishes_bind (q := FireJobCompleted { job with Status := .completed })
      (uses_mono calm_of_quiet (quiet_enqueue _ _ _)) fun _ _ => rfl

lemma moves_read {job : Job} (hat : At cfg (.read job) (.call c k))
    (he : exec cfg.toStores c s b t) :
    ∃ g', At cfg g' (k b) ∧ Moves cfg.toStores φ (.read job) s g' t := by
  obtain ⟨hterm, w, msg, hp, hid⟩ := hat
  rw [handleJobCompleted_eq hterm] at hp
  unfold UpdateJob at hp
  simp only [Prog.lift_bind, Prog.call.injEq] at hp
  obtain ⟨rfl, hc, hk⟩ := hp
  cases hc
  cases hk
  rw [hid] at he
  obtain ⟨now, rfl, ht⟩ := he
  rcases hj : s.jobs.get job.ID with _ | j
  · refine ⟨.idle, trivial, ?_⟩
    rw [modify_of_none hj] at ht
    exact ht ▸ .gone hj
  · refine ⟨_, ?_, .complete (by rw [hj]; simp) ht⟩
    split_ifs with hroot
    · refine uses_bind _ (calm_finishing w job msg) fun restored => ?_
      simp only [checkSiblings, if_pos hroot, ite_self]
      trivial
    · exact ⟨hroot, _, finishes_finishing w job msg, rfl⟩

lemma moves_updated {pid : String} (hat : At cfg (.updated pid) (.call c k))
    (he : exec cfg.toStores c s b t) :
    ∃ g', At cfg g' (k b) ∧ Moves cfg.toStores φ (.updated pid) s g' t := by
  obtain ⟨hpid, q, hq, hp⟩ := hat
  cases q with
  | pure restored =>
    rw [Prog.pure_bind] at hp
    cases restored with
    | false => cases hp
    | true =>
    simp only [checkSiblings, if_neg hpid, ListChildJobs, Prog.lift_bind, Bool.not_true,
      Bool.false_eq_true, if_false, Prog.call.injEq] at hp
    obtain ⟨rfl, hc, hk⟩ := hp
    cases hc
    cases hk
    have hall := forall_mem_listed .completed he
    obtain rfl : t = s := he.2.2
    by_cases h : AllCompleted pid t
    · refine ⟨.decided pid, ?_, .decide h⟩
      simp only [if_pos (hall.mpr h)]
      exact rfl
    · refine ⟨.idle, ?_, .wait h⟩
      simp only [if_neg fun hl => h (hall.mp hl)]
      trivial
  | call c' k' =>
    simp only [Prog.call_bind, Prog.call.injEq] at hp
    obtain ⟨rfl, hc, hk⟩ := hp
    cases hc
    cases hk
    obtain ⟨hjobs, hqueue⟩ := unchanged_of_calm hq.1 he
    exact ⟨.updated pid, ⟨hpid, k' b, hq.2 s b t he, rfl⟩, .calm hjobs hqueue (.inl ⟨pid, rfl⟩)⟩

lemma moves_decided {pid : String} (hat : At cfg (.decided pid) (.call c k))
    (he : exec cfg.toStores c s b t) :
    ∃ g', At cfg g' (k b) ∧ Moves cfg.toStores φ (.decided pid) s g' t := by
  simp only [At, scheduleConsolidation, GetJob, Prog.lift_bind, Prog.call.injEq] at hat
  obtain ⟨rfl, hc, hk⟩ := hat
  cases hc
  cases hk
  obtain ⟨rfl, rfl⟩ := he
  rcases hj : t.jobs.get pid with _ | parent
  · exact ⟨.idle, trivial, .lost hj⟩
  · have hid : parent.ID = pid := key_of_get hj
    subst hid
    exact ⟨.fetched parent, rfl, .fetch hj⟩

lemma moves_fetched {parent : Job} (hat : At cfg (.fetched parent) (.call c k))
    (he : exec cfg.toStores c s b t) :
    ∃ g', At cfg g' (k b) ∧ Moves cfg.toStores φ (.fetched parent) s g' t := by
  simp only [At, consolidateParent, UpdateJob, Prog.lift_bind, Prog.call.injEq] at hat
  obtain ⟨rfl, hc, hk⟩ := hat
  cases hc
  cases hk
  obtain ⟨now, rfl, ht⟩ := he
  by_cases hwait : ∃ j, s.jobs.get parent.ID = some j ∧ j.Status = .awaitingChildren
  · obtain ⟨j, hj, hst⟩ := hwait
    refine ⟨.won parent, ?_, .win hj hst ht⟩
    simp [hj, hst, JobMutation.scheduled, At]
  · have hst : ∀ j, s.jobs.get parent.ID = some j → j.Status ≠ .awaitingChildren :=
      fun j hj hw => hwait ⟨j, hj, hw⟩
    refine ⟨.idle, ?_, .lose hst (fun id => ?_) (by rw [ht])⟩
    · rcases hj : s.jobs.get parent.ID with _ | j
      · simp [At]
      · simp [At, JobMutation.scheduled, hst j hj]
    · -- the guard leaves the record as it is
      rw [ht, get_modify _ _ _ (JobMutation.apply_ID _ _)]
      split_ifs with hid
      · subst hid
        rcases hj : s.jobs.get parent.ID with _ | j
        · rfl
        · simp [JobMutation.apply, hst j hj]
      · rfl

/-- **Every call of a handler is a move.** -/
theorem exists_moves {g : Phase} (hat : At cfg g (.call c k)) (hφ : φ c s)
    (he : exec cfg.toStores c s b t) :
    ∃ g', At cfg g' (k b) ∧ Moves cfg.toStores φ g s g' t := by
  cases g with
  | start id => exact moves_start hat he
  | read job => exact moves_read hat he
  | updated pid => exact moves_updated hat he
  | decided pid => exact moves_decided hat he
  | fetched parent => exact moves_fetched hat he
  | won parent =>
    simp only [At, EnqueueJob, Prog.lift, Prog.call.injEq] at hat
    obtain ⟨rfl, hc, hk⟩ := hat
    cases hc
    cases hk
    exact ⟨.idle, trivial, .push he⟩
  | emitting => exact ⟨.emitting, hat.2 b, .emit hat.1 hφ he⟩
  | idle =>
    obtain ⟨hjobs, hqueue⟩ := unchanged_of_calm hat.1 he
    exact ⟨.idle, hat.2 b, .calm hjobs hqueue (.inr rfl)⟩

/-- **Every step of the handlers is a move of one of them.** -/
theorem moves_step {p p' : Prog.Pool Call World} {i : ℕ} {gs : List Phase}
    (hgs : List.Forall₂ (At cfg) gs p.threads) (hs : Prog.Step (exec cfg.toStores) p i p')
    (hφ : Prog.NextMeets φ p i) :
    ∃ g g', gs[i]? = some g ∧ Moves cfg.toStores φ g p.st g' p'.st ∧
      List.Forall₂ (At cfg) (gs.set i g') p'.threads :=
  phases_step (T := Moves cfg.toStores φ) hgs hs hφ fun hat hc he => exists_moves hat hc he

/-- A handler that has ended has nothing more to do with the parent. -/
lemma ended {g : Phase} (hlanes : cfg.lanes = true) (hat : At cfg g (.pure ())) :
    g = .idle ∨ g = .emitting := by
  cases g with
  | start id =>
    obtain ⟨w, msg, hp, -⟩ := hat
    cases hp
  | read job =>
    obtain ⟨hterm, w, msg, hp, -⟩ := hat
    rw [handleJobCompleted_eq hterm] at hp
    cases hp
  | updated pid =>
    obtain ⟨hpid, q, hq, hp⟩ := hat
    cases q with
    | pure restored =>
      obtain rfl : restored = true := hq hlanes
      simp [checkSiblings, hpid, ListChildJobs, Prog.lift_bind] at hp
    | call c' k' => cases hp
  | decided pid => cases hat
  | fetched parent => cases hat
  | won parent => cases hat
  | emitting => exact .inr rfl
  | idle => exact .inl rfl

end Calls

/-- The handlers of the results, all about to start. -/
def handling (cfg : Config) (s : World) (results : List (ConnID × ResultMessage)) :
    Prog.Pool Call World :=
  ⟨s, results.map fun r => handleResultMessage cfg r.1 r.2⟩

end Workforce.Consolidation
