import Workforce.Playback
import Workforce.Copies

/-!
Recovery after a restart.

The manager rebuilds its dispatch heap from the stored jobs: the pending ones as they are, and
those that were in progress after closing their runs and resetting them. Which jobs count as in
progress is decided by a list of statuses of its own.
-/

namespace Workforce.Recovery

open Tables Contract Progs Shared Calls Handlers Footprints Operations Copies Runs

/-! ### The two queries and the loop -/

/-- The pending jobs, highest priority first. -/
def ListPendingJobs (s : World) (l : List Job) : Prop :=
  l.Perm (s.jobs.values.filter fun j => j.Status = .pending) ∧
    l.Pairwise fun a b => b.Priority ≤ a.Priority

/-- The jobs with one of the statuses that are taken to be in progress. -/
def ListRecoverableJobs (s : World) (l : List Job) : Prop :=
  l.Perm (s.jobs.values.filter fun j =>
    j.Status = .proposing ∨ j.Status = .provisioning ∨ j.Status = .running)

instance (s : World) (l : List Job) : Decidable (ListPendingJobs s l) := by
  unfold ListPendingJobs; infer_instance

instance (s : World) (l : List Job) : Decidable (ListRecoverableJobs s l) := by
  unfold ListRecoverableJobs; infer_instance

/-- Close the open runs of each job and reset it. -/
def resetRecoverable : List Job → M Unit
  | [] => pure ()
  | j :: rest => do
    let runs ← ListJobRuns j.ID
    closeActiveRuns "recovered: manager restarted" runs
    let _ ← UpdateJob j.ID .requeued
    resetRecoverable rest

/-- What is done once both lists have been read. -/
def recover (pending recoverable : List Job) : M Unit := do
  resetRecoverable recoverable
  EnqueueJobs (pending ++ recoverable.map fun j => { j with Status := .pending })

lemma uses_recover {φ : ∀ {β : Type}, Call β → Prop}
    (hq : ∀ {β : Type} (c : Call β), Quiet c → φ c) (hpush : ∀ job, φ (.pushItem job))
    (hrequeued : ∀ id, φ (.updateJob id .requeued)) (pending recoverable : List Job) :
    (recover pending recoverable).Uses φ := by
  have hreset (l : List Job) : (resetRecoverable l).Uses φ := by
    induction l with
    | nil => trivial
    | cons j l ih =>
      exact uses_step (hq _ trivial) fun runs =>
        uses_bind _ (uses_mono hq (quiet_closeActiveRuns _ _)) fun _ =>
          uses_step (hrequeued _) fun _ => ih
  exact uses_bind _ (hreset recoverable) fun _ => uses_EnqueueJobs hpush _

/-- `RecoverJobs`, called in state `s`, returns without an error in state `t`. -/
def RecoverJobs (cfg : Stores) (s t : World) : Prop :=
  ∃ pending recoverable, ListPendingJobs s pending ∧ ListRecoverableJobs s recoverable ∧
    Prog.Ends (exec cfg) (recover pending recoverable) s () t

/-! ### What it should do, and when it does -/

/-- The job has neither ended nor waits for children. -/
def InProgress (j : Job) : Prop := ¬j.Status.IsTerminal ∧ j.Status ≠ .awaitingChildren

/-- What recovery should leave: a job in progress is pending, in the heap once and without an
open run; a job that has ended is not in the heap. -/
structure Recovered (s t : World) : Prop where
  pending : ∀ id j, s.jobs.get id = some j → InProgress j →
    ∃ j', t.jobs.get id = some j' ∧ j'.Status = .pending
  queued : ∀ id j, s.jobs.get id = some j → InProgress j → queued t id = 1
  ended : ∀ id j, s.jobs.get id = some j → j.Status.IsTerminal → Copies.queued t id = 0
  runs : ∀ id j, s.jobs.get id = some j → InProgress j →
    ∀ rid r, t.runs.get rid = some r → r.JobID = id → r.Status.Finished

/-- No job is in the one status the query leaves out, and no pending job has an open run. -/
structure Recoverable (s : World) : Prop where
  accepted : ∀ id j, s.jobs.get id = some j → j.Status ≠ .accepted
  runs : ∀ id j, s.jobs.get id = some j → j.Status = .pending →
    ∀ rid r, s.runs.get rid = some r → r.JobID = id → r.Status.Finished

/-! ### Closing runs -/

section Close

variable {cfg : Stores} {s t u : World} {P Q : JobRun → Prop} {r r' r'' : JobRun}

lemma finished_iff (st : RunStatus) :
    st.Finished ↔ ¬(st = .provisioning ∨ st = .running) := by
  cases st <;> decide

def restarted : RunMutation := .disconnected "recovered: manager restarted"

/-- The record after the runs that `P` selects have been closed. -/
def After (P : JobRun → Prop) (r r' : JobRun) : Prop :=
  (P r ∧ ∃ now, r' = restarted.apply now r) ∨ (¬P r ∧ r' = r)

/-- The runs that `P` selects have been closed, and no other run has changed. -/
def Closes (P : JobRun → Prop) (s t : World) : Prop :=
  ∀ rid, Option.Rel (After P) (s.runs.get rid) (t.runs.get rid)

lemma After.trans (h : After P r r') (h' : After Q r' r'') :
    After (fun r => P r ∨ Q r) r r'' := by
  rcases h with ⟨hp, now, rfl⟩ | ⟨hp, rfl⟩
  · -- closing a run again only changes when it was closed
    rcases h' with ⟨-, now', rfl⟩ | ⟨-, rfl⟩
    · exact .inl ⟨.inl hp, now', rfl⟩
    · exact .inl ⟨.inl hp, now, rfl⟩
  · rcases h' with ⟨hq, now, rfl⟩ | ⟨hq, rfl⟩
    · exact .inl ⟨.inr hq, now, rfl⟩
    · exact .inr ⟨fun h => h.elim hp hq, rfl⟩

lemma Closes.trans (h : Closes P s t) (h' : Closes Q t u) :
    Closes (fun r => P r ∨ Q r) s u := by
  intro rid
  have h₁ := h rid
  have h₂ := h' rid
  rcases hs : s.runs.get rid with _ | r <;> rcases ht : t.runs.get rid with _ | r' <;>
    rcases hu : u.runs.get rid with _ | r'' <;> rw [hs, ht] at h₁ <;> rw [ht, hu] at h₂
  · exact .none
  · cases h₂
  · cases h₁
  · cases h₁
  · cases h₁
  · cases h₁
  · cases h₂
  · cases h₁ with | some h₁ => cases h₂ with | some h₂ => exact .some (h₁.trans h₂)

lemma Closes.refl (h : ∀ rid r, s.runs.get rid = some r → ¬P r) (hr : t.runs = s.runs) :
    Closes P s t := by
  intro rid
  rw [hr]
  rcases hs : s.runs.get rid with _ | r
  · exact .none
  · exact .some (.inr ⟨h rid r hs, rfl⟩)

lemma Closes.congr (h : Closes P s t) (hPQ : ∀ rid r, s.runs.get rid = some r → (P r ↔ Q r)) :
    Closes Q s t := by
  intro rid
  have h₁ := h rid
  rcases hs : s.runs.get rid with _ | r <;> rcases ht : t.runs.get rid with _ | r' <;>
    rw [hs, ht] at h₁
  · exact .none
  · cases h₁
  · cases h₁
  · cases h₁ with
    | some h₁ =>
      refine .some ?_
      unfold After at h₁ ⊢
      rwa [hPQ rid r hs] at h₁

lemma closes_update {id : String} {ok : Bool} (he : exec cfg (.updateRun id restarted) s ok t) :
    Closes (fun r => r.ID = id) s t := by
  obtain ⟨now, -, rfl⟩ := he
  intro rid
  rw [get_modify _ _ _ (RunMutation.apply_ID _ now)]
  rcases hs : s.runs.get rid with _ | r
  · split_ifs with hid
    · rw [← hid, hs]
      exact .none
    · exact .none
  · have hr : r.ID = rid := key_of_get hs
    split_ifs with hid
    · subst hid
      rw [hs]
      exact .some (.inl ⟨hr, now, rfl⟩)
    · exact .some (.inr ⟨fun h => hid (hr.symm.trans h), rfl⟩)

def OnlyRuns (s t : World) : Prop := t.jobs = s.jobs ∧ t.queue = s.queue

lemma wp_closeActiveRuns (l : List JobRun) :
    Prog.wp (exec cfg) (fun _ _ => True) (closeActiveRuns "recovered: manager restarted" l)
      (fun _ t => OnlyRuns s t ∧
        Closes (fun r => ∃ q ∈ l, q.ID = r.ID ∧ ¬q.Status.Finished) s t) s := by
  induction l generalizing s with
  | nil => exact ⟨⟨rfl, rfl⟩, .refl (fun _ _ _ ⟨q, hq, _⟩ => nomatch hq) rfl⟩
  | cons q l ih =>
    unfold closeActiveRuns
    split_ifs with hopen
    · refine wp_step trivial fun ok t ht => ?_
      have hclose : Closes (fun r => r.ID = q.ID) s t := closes_update ht
      have honly : OnlyRuns s t := by
        obtain ⟨now, -, rfl⟩ := ht
        exact ⟨rfl, rfl⟩
      refine wp_mono ih fun _ u hu => ?_
      refine ⟨⟨hu.1.1.trans honly.1, hu.1.2.trans honly.2⟩, (hclose.trans hu.2).congr ?_⟩
      intro rid r _
      simp only [List.mem_cons, exists_eq_or_imp]
      refine or_congr_left ⟨fun h => ⟨h.symm, ?_⟩, fun h => h.1.symm⟩
      rw [finished_iff]
      exact not_not.mpr hopen
    · refine wp_mono ih fun _ u hu => ⟨hu.1, hu.2.congr fun rid r _ => ?_⟩
      simp only [List.mem_cons, exists_eq_or_imp]
      refine (or_iff_right fun h => h.2 ?_).symm
      rw [finished_iff]
      exact hopen

end Close

/-! ### The loop -/

section Loop

variable {cfg : Stores} {s t u : World}

/-- What the loop does: the jobs with these names are pending, their open runs are closed, and
nothing else has changed. -/
structure Resets (ids : List String) (s t : World) : Prop where
  jobs : ∀ id, t.jobs.get id =
    if id ∈ ids then (s.jobs.get id).map fun j => { j with Status := .pending }
    else s.jobs.get id
  runs : Closes (fun r => r.JobID ∈ ids ∧ ¬r.Status.Finished) s t
  queue : t.queue = s.queue

lemma Resets.refl (s : World) : Resets [] s s :=
  ⟨fun id => by simp, .refl (fun _ _ _ h => by simp at h) rfl, rfl⟩

lemma Resets.cons {id : String} {ids : List String} (h : Resets [id] s t) (h' : Resets ids t u) :
    Resets (id :: ids) s u where
  jobs k := by
    rw [h'.jobs, h.jobs]
    simp only [List.mem_cons, List.not_mem_nil, or_false]
    by_cases hk : k = id
    · -- resetting a job twice is resetting it once
      have hor : k = id ∨ k ∈ ids := .inl hk
      rw [if_pos hk, if_pos hor, Option.map_map]
      split_ifs <;> rfl
    · simp [hk]
  runs := by
    refine (h.runs.trans h'.runs).congr fun rid r _ => ?_
    simp only [List.mem_cons, List.not_mem_nil, or_false, or_and_right]
  queue := h'.queue.trans h.queue

lemma wp_resetRecoverable (l : List Job) :
    Prog.wp (exec cfg) (fun _ _ => True) (resetRecoverable l)
      (fun _ t => Resets (l.map Job.ID) s t) s := by
  induction l generalizing s with
  | nil => exact .refl s
  | cons j l ih =>
    refine wp_step trivial fun runs t ht => ?_
    obtain ⟨hruns, rfl⟩ := ht
    refine (wp_bind _ _ _ _).mpr (wp_mono (wp_closeActiveRuns runs) fun _ u hu => ?_)
    obtain ⟨⟨hjobs, hqueue⟩, hclose⟩ := hu
    refine wp_step trivial fun _ v hv => ?_
    obtain ⟨now, -, rfl⟩ := hv
    -- the runs of the job that were listed as open are those that are open
    have hlisted : ∀ rid r, t.runs.get rid = some r →
        ((∃ q ∈ runs, q.ID = r.ID ∧ ¬q.Status.Finished) ↔
          r.JobID ∈ [j.ID] ∧ ¬r.Status.Finished) := by
      intro rid r hr
      have hmem : ∀ q, q ∈ runs ↔ t.runs.get q.ID = some q ∧ q.JobID = j.ID := fun q => by
        rw [hruns.mem_iff, List.mem_filter, mem_values, decide_eq_true_iff]
      have hid : r.ID = rid := key_of_get hr
      subst hid
      rw [List.mem_singleton]
      constructor
      · rintro ⟨q, hq, hqid, hopen⟩
        obtain ⟨hget, hjob⟩ := (hmem q).mp hq
        rw [hqid, hr] at hget
        cases hget
        exact ⟨hjob, hopen⟩
      · rintro ⟨hjob, hopen⟩
        exact ⟨r, (hmem r).mpr ⟨hr, hjob⟩, rfl, hopen⟩
    have hone : Resets [j.ID] t
        { u with jobs := u.jobs.modify j.ID (JobMutation.requeued.apply now) } := by
      refine ⟨fun id => ?_, hclose.congr hlisted, hqueue⟩
      rw [get_modify _ _ _ (JobMutation.apply_ID _ now), hjobs]
      simp only [List.mem_singleton]
      split_ifs with hid
      · rw [hid]
        rfl
      · rfl
    exact wp_mono ih fun _ x hx => hone.cons hx

end Loop

/-! ### Recovery as a whole -/

section Whole

variable {cfg : Stores} {s t : World}

/-- What recovery does, whatever it should do. -/
lemma recoverJobs_spec (h : RecoverJobs cfg s t) :
    ∃ pending recoverable, ListPendingJobs s pending ∧ ListRecoverableJobs s recoverable ∧
      (∃ u, Resets (recoverable.map Job.ID) s u ∧
        t = { u with queue := u.queue ++ (pending ++ recoverable.map fun j =>
          { j with Status := .pending }) }) := by
  obtain ⟨pending, recoverable, hp, hr, hends⟩ := h
  refine ⟨pending, recoverable, hp, hr, ?_⟩
  have hwp : Prog.wp (exec cfg) (fun _ _ => True) (recover pending recoverable)
      (fun _ t => ∃ u, Resets (recoverable.map Job.ID) s u ∧
        t = { u with queue := u.queue ++ (pending ++ recoverable.map fun j =>
          { j with Status := .pending }) }) s := by
    refine (wp_bind _ _ _ _).mpr (wp_mono (wp_resetRecoverable recoverable)
      fun _ u hu => ?_)
    exact wp_mono (wp_EnqueueJobs _) fun _ v hv => ⟨u, hu, hv⟩
  exact wp_sound hwp hends

lemma count_listed {p : Job → Prop} [DecidablePred p] {l : List Job}
    (h : l.Perm (s.jobs.values.filter p)) (id : String) :
    (l.map Job.ID).count id = if ∃ j, s.jobs.get id = some j ∧ p j then 1 else 0 := by
  have hmem : ∀ j, j ∈ l ↔ s.jobs.get j.ID = some j ∧ p j := fun j => by
    rw [h.mem_iff, List.mem_filter, mem_values, decide_eq_true_iff]
  have hnodup : (l.map Job.ID).Nodup := by
    refine List.Nodup.map_on (fun a ha b hb hab => ?_)
      (h.nodup_iff.mpr ((nodup_values s.jobs).filter _))
    have ha' := ((hmem a).mp ha).1
    rw [hab, ((hmem b).mp hb).1] at ha'
    exact (Option.some.inj ha').symm
  have hiff : id ∈ l.map Job.ID ↔ ∃ j, s.jobs.get id = some j ∧ p j := by
    rw [List.mem_map]
    constructor
    · rintro ⟨j, hj, rfl⟩
      exact ⟨j, (hmem j).mp hj⟩
    · rintro ⟨j, hj, hp⟩
      have hid : j.ID = id := key_of_get hj
      subst hid
      exact ⟨j, (hmem j).mpr ⟨hj, hp⟩, rfl⟩
  rw [List.Nodup.count hnodup]
  exact if_congr hiff rfl rfl

def Listed (st : JobStatus) : Prop := st = .proposing ∨ st = .provisioning ∨ st = .running

instance : DecidablePred Listed := fun st => by unfold Listed; infer_instance

lemma exists_status_iff {id : String} {j : Job} (hj : s.jobs.get id = some j)
    (p : JobStatus → Prop) : (∃ k, s.jobs.get id = some k ∧ p k.Status) ↔ p j.Status := by
  constructor
  · rintro ⟨k, hk, hp⟩
    cases hj.symm.trans hk
    exact hp
  · exact fun hp => ⟨j, hj, hp⟩

lemma mem_recoverable {l : List Job} (h : ListRecoverableJobs s l) {id : String} {j : Job}
    (hj : s.jobs.get id = some j) : id ∈ l.map Job.ID ↔ Listed j.Status := by
  rw [← List.count_pos_iff, count_listed h, ← exists_status_iff hj Listed]
  split_ifs with hex
  · exact ⟨fun _ => hex, fun _ => Nat.one_pos⟩
  · exact ⟨fun hlt => absurd hlt (lt_irrefl 0), fun h => absurd h hex⟩

/-- How often a stored job is in the heap after recovery. -/
lemma queued_after {pending recoverable : List Job} (hp : ListPendingJobs s pending)
    (hr : ListRecoverableJobs s recoverable) {id : String} {j : Job}
    (hj : s.jobs.get id = some j)
    (hq : t.queue = pending ++ recoverable.map fun j => { j with Status := .pending }) :
    queued t id = (if j.Status = .pending then 1 else 0) +
      if Listed j.Status then 1 else 0 := by
  have hids : (recoverable.map fun j => { j with Status := .pending }).map Job.ID =
      recoverable.map Job.ID := by
    rw [List.map_map]
    rfl
  unfold queued
  rw [hq, List.map_append, List.count_append, hids, count_listed hp.1, count_listed hr]
  congr 1
  · exact if_congr (exists_status_iff hj (· = .pending)) rfl rfl
  · exact if_congr (exists_status_iff hj Listed) rfl rfl

/-- **What recovery restores.** Started with an empty heap, recovery leaves every job in
progress pending, in the heap once and without an open run, and no job that has ended in the
heap, exactly when no stored job is accepted and no pending one has an open run. -/
theorem recovered_iff (cfg : Stores) {s t : World} (hq : s.queue = [])
    (h : RecoverJobs cfg s t) : Recovered s t ↔ Recoverable s := by
  obtain ⟨pending, recoverable, hp, hr, u, hreset, rfl⟩ := recoverJobs_spec h
  have hqueue : u.queue ++ (pending ++ recoverable.map fun j => { j with Status := .pending }) =
      pending ++ recoverable.map fun j => { j with Status := .pending } := by
    rw [hreset.queue, hq, List.nil_append]
  have hcount {id : String} {j : Job} (hj : s.jobs.get id = some j) :=
    queued_after (t := { u with queue := u.queue ++ (pending ++ recoverable.map fun j =>
      { j with Status := .pending }) }) hp hr hj hqueue
  constructor
  · intro hrec
    refine ⟨fun id j hj hst => ?_, fun id j hj hst rid r hrun hid => ?_⟩
    · -- an accepted job is in neither list
      have hone := hrec.queued id j hj (by simp [InProgress, hst, JobStatus.IsTerminal])
      rw [hcount hj, hst] at hone
      simp [Listed] at hone
    · have hin : InProgress j := by simp [InProgress, hst, JobStatus.IsTerminal]
      by_contra hopen
      have hafter := hreset.runs rid
      rw [hrun] at hafter
      rcases hu : u.runs.get rid with _ | r'
      · rw [hu] at hafter
        cases hafter
      · rw [hu] at hafter
        cases hafter with
        | some hafter =>
          rcases hafter with ⟨⟨hmem, -⟩, -⟩ | ⟨-, rfl⟩
          · rw [hid, mem_recoverable hr hj, hst] at hmem
            simp [Listed] at hmem
          · exact hopen (hrec.runs id j hj hin rid r' hu hid)
  · intro hclean
    have hcases {id : String} {j : Job} (hj : s.jobs.get id = some j) (hin : InProgress j) :
        j.Status = .pending ∧ ¬Listed j.Status ∨ j.Status ≠ .pending ∧ Listed j.Status := by
      have hacc := hclean.accepted id j hj
      revert hin hacc
      unfold InProgress Listed JobStatus.IsTerminal
      cases j.Status <;> simp
    refine ⟨fun id j hj hin => ?_, fun id j hj hin => ?_, fun id j hj hterm => ?_,
      fun id j hj hin rid r hrun hid => ?_⟩
    · have hget : u.jobs.get id = _ := hreset.jobs id
      rcases hcases hj hin with ⟨hst, hnot⟩ | ⟨-, hlisted⟩
      · rw [if_neg ((mem_recoverable hr hj).not.mpr hnot), hj] at hget
        exact ⟨j, hget, hst⟩
      · rw [if_pos ((mem_recoverable hr hj).mpr hlisted), hj] at hget
        exact ⟨_, hget, rfl⟩
    · rw [hcount hj]
      rcases hcases hj hin with ⟨hst, hnot⟩ | ⟨hst, hlisted⟩
      · rw [if_pos hst, if_neg hnot]
      · rw [if_neg hst, if_pos hlisted]
    · rw [hcount hj, if_neg, if_neg]
      · rintro (h | h | h) <;> rw [h] at hterm <;> exact absurd hterm (by decide)
      · intro h
        rw [h] at hterm
        exact absurd hterm (by decide)
    · have hafter := hreset.runs rid
      replace hrun : u.runs.get rid = some r := hrun
      rw [hrun] at hafter
      rcases hs : s.runs.get rid with _ | r₀
      · rw [hs] at hafter
        cases hafter
      · rw [hs] at hafter
        cases hafter with
        | some hafter =>
          rcases hafter with ⟨-, now, rfl⟩ | ⟨hnot, rfl⟩
          · exact .inr rfl
          · by_contra hopen
            rcases hcases hj hin with ⟨hst, -⟩ | ⟨-, hlisted⟩
            · exact hopen (hclean.runs id j hj hst rid r hs hid)
            · exact hnot ⟨hid ▸ (mem_recoverable hr hj).mpr hlisted, hopen⟩

/-! ### Two restarts -/

/-- What a new process finds: the stores, and nothing else. -/
def restart (s : World) : World :=
  { World.initial with
    jobs := s.jobs
    runs := s.runs
    tasks := s.tasks
    webhooks := s.webhooks
    issued := s.issued }

/-- The manager stops while a job runs. -/
theorem recovered_running :
    ∃ tr s t, Run (step .defaults) World.initial tr s ∧ s.jobs.values.map Job.Status = [.running] ∧
      RecoverJobs Config.defaults.toStores (restart s) t ∧ t.queue.map Job.ID = ["j"] ∧
      Recovered (restart s) t := by
  obtain ⟨tr, s, t, hrun, hst, hrec, hqueue⟩ : ∃ tr s t, Run (step .defaults) World.initial tr s ∧
      s.jobs.values.map Job.Status = [.running] ∧
      RecoverJobs Config.defaults.toStores (restart s) t ∧ t.queue.map Job.ID = ["j"] :=
    ⟨_, _, _, run_played (proposes ++ [.accept 0 "w" "j", .starting "w" "j" "r"])
      { ids := ["j", "r"] } rfl, by decide, ⟨[], _, by decide, .refl _, ends_played {} rfl⟩,
      by decide⟩
  have hrunning {id : String} {j : Job} (hj : (restart s).jobs.get id = some j) :
      j.Status = .running :=
    List.mem_singleton.mp (hst ▸ List.mem_map_of_mem (mem_values_of_get hj))
  refine ⟨tr, s, t, hrun, hst, hrec, hqueue, (recovered_iff _ rfl hrec).mpr
    ⟨fun id j hj => ?_, fun id j hj hpending => ?_⟩⟩
  · rw [hrunning hj]
    decide
  · rw [hrunning hj] at hpending
    cases hpending

/-- **An accepted job is lost by a restart.** The status a worker's acceptance writes is not
among those recovery asks for: the job is neither reset nor queued, and its run stays open. -/
theorem accepted_job_lost :
    ∃ tr s, Run (step .defaults) World.initial tr s ∧
      RecoverJobs Config.defaults.toStores (restart s) (restart s) ∧
      ¬Recovered (restart s) (restart s) := by
  refine ⟨_, _, run_played (proposes ++ [.accept 0 "w" "j"]) { ids := ["j", "r"] } rfl,
    ⟨[], [], by decide, by decide, rfl, rfl⟩, fun h => ?_⟩
  exact absurd (h.queued "j" _ rfl ⟨by decide, by decide⟩) (by decide)

end Whole

end Workforce.Recovery
