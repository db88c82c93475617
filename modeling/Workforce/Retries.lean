import Workforce.Announcements
import Workforce.Conservation

/-!
How often a job is tried.

Every error result of a job that has not ended adds one to its stored attempts. The job is tried
again, by a timer, as long as the attempts stay below the limit of its retry policy; the result
that reaches the limit fails the job, and so does one with the exit code of a panic or a code that
is not to be retried. All this rests on the job staying ended once it has: an update that brings
it back gives it attempts beyond the limit.
-/

namespace Workforce.Retries

open Tables Contract Progs Shared Calls Handlers Dispatcher Footprints Fresh Runs Operations
open Origins Announcements

variable {cfg : Config} {st : Stores} {id : String} {limit : ℤ} {α β : Type} {s t : World} {op : Op}

/-! ### Counting -/

/-- The stored attempts of a job, none before it is stored. -/
def attempts (id : String) (s : World) : ℤ := ((s.jobs.get id).map Job.Attempts).getD 0

def Open (id : String) (s : World) : Prop := ∃ job ∈ s.jobs.get id, ¬job.Status.IsTerminal

instance (id : String) (s : World) : Decidable (Open id s) := by
  unfold Open; infer_instance

/-- The operation handles an error result of the job, which has not ended. -/
def HandlesError (id : String) (s : World) : Op → Prop
  | .result _ msg => msg.JobID = id ∧ msg.ResultType = .error ∧ Open id s
  | _ => False

instance (id : String) (s : World) (op : Op) : Decidable (HandlesError id s op) := by
  cases op <;> unfold HandlesError <;> infer_instance

/-- A retry timer of the job puts it on the queue again. -/
def Reenqueues (id : String) (s : World) : Op → Prop
  | .retry jobID => jobID = id ∧ Open id s
  | _ => False

instance (id : String) (s : World) (op : Op) : Decidable (Reenqueues id s op) := by
  cases op <;> unfold Reenqueues <;> infer_instance

/-- The error results of the job that a run handles before the job has ended. -/
def errorsHandled (id : String) (tr : List (World × Op)) : ℕ :=
  tr.countP fun p => HandlesError id p.1 p.2

/-- How often the retry timer puts the job on the queue. -/
def reenqueued (id : String) (tr : List (World × Op)) : ℕ :=
  tr.countP fun p => Reenqueues id p.1 p.2

/-- The exit code ends the job, whatever its policy is. -/
def NoRetry (cfg : Config) (msg : ResultMessage) : Prop :=
  msg.ExitCode = cfg.DefaultPanicExitCode.toNat ∨
    cfg.DoNotRetryFrom.toNat ≤ msg.ExitCode ∧ msg.ExitCode ≤ cfg.DoNotRetryTo.toNat

def HasLimit (cfg : Config) (id : String) (limit : ℤ) (s : World) : Prop :=
  ∀ job, s.jobs.get id = some job →
    (effectivePolicy cfg (s.tasks.get job.TaskName)).MaxAttempts = limit

/-! ### Calls that do not count -/

/-- A call that leaves the attempts and the timers of the job alone. -/
def Steady (id : String) : {β : Type} → Call β → Prop
  | _, .saveJob job => job.Attempts = 0
  | _, .updateJob jobID (.attempts _ _) => jobID ≠ id
  | _, .afterFunc jobID _ => jobID ≠ id
  | _, _ => True

lemma steady_of_onward (c : Call β) (hc : Onward c) : Steady id c := by
  cases c with
  | updateJob => rcases hc with rfl | rfl | rfl | rfl | rfl <;> trivial
  | saveJob | afterFunc => exact hc.elim
  | _ => trivial

lemma steady_call (c : Call β) (hc : Quiet c) : Steady id c := steady_of_onward c (onward_call c hc)

/-- The same attempts and as many timers. -/
structure Steadily (id : String) (s t : World) : Prop where
  attempts : attempts id t = attempts id s
  timers : t.timers.count id = s.timers.count id

lemma Steadily.of_eq (hjobs : t.jobs = s.jobs) (htimers : t.timers = s.timers) :
    Steadily id s t := ⟨by rw [Retries.attempts, hjobs, Retries.attempts], by rw [htimers]⟩

lemma Steadily.trans {u : World} (h : Steadily id s t) (h' : Steadily id t u) :
    Steadily id s u := ⟨h'.attempts.trans h.attempts, h'.timers.trans h.timers⟩

variable {m : JobMutation}

lemma apply_Attempts (hm : ∀ n reason, m ≠ .attempts n reason) (now : Time) (job : Job) :
    (m.apply now job).Attempts = job.Attempts := by
  cases m with
  | attempts n reason => exact absurd rfl (hm n reason)
  | consolidate =>
    simp only [JobMutation.apply]
    split_ifs <;> rfl
  | _ => rfl

variable {jobID : String} {now : Time}

lemma attempts_modify (hm : jobID = id → ∀ n reason, m ≠ .attempts n reason)
    (h : t.jobs = s.jobs.modify jobID (m.apply now)) : attempts id t = attempts id s := by
  rw [attempts, attempts, h, get_modify _ _ _ (m.apply_ID now)]
  split_ifs with hid
  · subst hid
    rw [Option.map_map]
    exact congrArg (Option.getD · 0)
      (Option.map_congr fun job _ => apply_Attempts (hm rfl) now job)
  · rfl

lemma steady_updateJob (h : Steady id (.updateJob jobID m)) :
    jobID = id → ∀ n reason, m ≠ .attempts n reason := by
  rintro hid n reason rfl
  exact h hid

variable {c : Call β} {b : β}

lemma steadily_call (hc : Steady id c) (hnew : StoresNew c s) (h : exec st c s b t) :
    Steadily id s t := by
  cases c with
  | saveJob job =>
    rcases h with ⟨-, rfl⟩ | ⟨-, rfl⟩
    · refine ⟨?_, rfl⟩
      show ((((s.jobs.put job).get id).map Job.Attempts).getD 0) = _
      rw [attempts, get_put]
      split_ifs with hid
      · subst hid
        rw [show s.jobs.get job.ID = none from hnew]
        exact hc
      · rfl
    · exact .of_eq rfl rfl
  | updateJob jobID m =>
    obtain ⟨now, -, rfl⟩ := h
    exact ⟨attempts_modify (steady_updateJob hc) rfl, rfl⟩
  | updateJobFiring jobID reason =>
    obtain ⟨-, -, rfl⟩ | ⟨now, issued, webhooks, -, -, -, rfl⟩ := exec_updateJobFiring h
    · exact .of_eq rfl rfl
    · exact ⟨attempts_modify (m := .failedFor reason) (fun _ => nofun) rfl, rfl⟩
  | afterFunc jobID delay =>
    have hne : jobID ≠ id := hc
    cases h
    exact ⟨rfl, by rw [List.count_append, List.count_singleton, if_neg (by simpa using hne),
      Nat.add_zero]⟩
  | _ => exact .of_eq ((untouched h).jobs nofun) ((untouched h).timers nofun)

/-! ### Programs that do not count -/

lemma steady_handleSubmitJob (req : submitJobRequest) :
    (handleSubmitJob req).Uses (Steady id) :=
  uses_handleSubmitJob steady_call req (fun _ _ _ => (jobOf_fields _ _ _ _).2.2.2.Attempts)
    fun _ => trivial

lemma steady_ProcessQueue : (ProcessQueue cfg).Uses (Steady id) :=
  uses_ProcessQueue steady_call (fun _ => trivial) cfg trivial (fun _ => trivial)
    (fun _ => trivial) (fun _ _ _ _ => trivial) (fun _ => trivial) (fun _ _ _ => trivial)
    fun _ _ => trivial

variable {msg : ResultMessage} {job : Job}

lemma steady_handleJobError {w : ConnID} (h : job.ID = id → job.Status.IsTerminal) :
    (handleJobError cfg w job msg).Uses (Steady id) := by
  have hother (hopen : ¬job.Status.IsTerminal) : job.ID ≠ id := fun hid => hopen (h hid)
  exact uses_handleJobError steady_call cfg w job msg (fun _ _ _ => trivial)
    (fun hopen _ _ => hother hopen) (fun hopen _ => hother hopen) (fun _ => trivial)
    fun _ _ => trivial

/-- Where an operation starts from: a timer that fires is gone. -/
def before (op : Op) (s : World) : World :=
  match op with
  | .retry jobID => { s with timers := s.timers.erase jobID }
  | _ => s

/-- **Operations that do not count.** What every call that does not count keeps, an operation
keeps that handles no error result of the job. -/
theorem stepBy_steady {run : ∀ {β : Type}, Call β → World → β → World → Prop}
    {R : World → World → Prop} (hexec : ∀ {β : Type} {c : Call β} {s b t}, run c s b t →
      exec st c s b t)
    (hkept : ∀ s t : World, t.jobs = s.jobs → t.timers = s.timers → R s t)
    (htrans : ∀ s t u, R s t → R t u → R s u)
    (hcall : ∀ {β : Type} {c : Call β} {s b t}, Steady id c → run c s b t → R s t)
    (hop : ¬HandlesError id s op) (h : stepBy cfg run s op t) : R (before op s) t := by
  have hends : ∀ {α : Type} {p : M α} {s t : World}, p.Uses (Steady id) → Performs run p s t →
      R s t := fun hp ⟨_, ha⟩ =>
    ends_of_uses (fun s => hkept s s rfl rfl) htrans hcall hp ha
  cases op with
  | submit req => exact hends (steady_handleSubmitJob req) h
  | processQueue => exact hends steady_ProcessQueue h
  | retry jobID =>
    exact hends (uses_retryTimer steady_call (fun _ => trivial) (by trivial)) h.2
  | cancel =>
    exact hends (uses_cancelJobByID steady_call (fun _ => trivial) (fun _ => trivial) _) h
  | result conn msg =>
    obtain ⟨a, h⟩ := h
    obtain ⟨job, u, hget, h⟩ := ends_step.mp h
    have hread : Steady id (.getJob msg.JobID) := trivial
    refine htrans _ u _ (hcall hread hget) ?_
    obtain ⟨hjob, -⟩ := hexec hget
    cases job with
    | none => exact hends (uses_mono steady_call (quiet_SendError _ _ _)) ⟨a, h⟩
    | some job =>
      dsimp only at h
      split at h
      · next herror =>
        refine hends (steady_handleJobError fun hid => ?_) ⟨a, h⟩
        by_contra hopen
        have hkey : job.ID = msg.JobID := key_of_get hjob.symm
        exact hop ⟨hkey.symm.trans hid, herror, job, by rw [← hid, hkey]; exact hjob.symm, hopen⟩
      · refine hends (uses_bind _ (uses_mono steady_call (quiet_resolveRunID _ _))
          fun runID => ?_) ⟨a, h⟩
        refine uses_bind _ (uses_handleSubjobsEmitted (fun _ => trivial) cfg trivial
          (fun _ => trivial) (fun _ _ => trivial) trivial (fun _ h => h.Attempts) (fun _ _ => trivial)
          (fun _ => trivial) _ _) fun err => ?_
        refine uses_step trivial fun _ => ?_
        cases err with
        | some err => exact uses_mono steady_call (quiet_SendError _ _ _)
        | none => exact uses_mono steady_call (quiet_closeRun _ _ _ _ _ _ _)
      · exact hends (uses_handleJobCompleted steady_call (fun _ => trivial) (by trivial)
          (fun _ _ _ => trivial) (fun _ => trivial) _ _) ⟨a, h⟩
  | _ =>
    obtain ⟨u, q, hq⟩ := serves_of_stepBy h
    exact htrans _ u _ (hkept _ _ hq.kept.jobs (hq.timers (by simp)))
      (hends (uses_mono steady_of_onward (hq.onward trivial)) ⟨(), hq.ends⟩)

/-! ### An error result -/

/-- A call of a failure for good: it fails jobs and changes nothing else of them. -/
def Failing : {β : Type} → Call β → Prop
  | _, .updateJob _ .failed => True
  | _, .updateJob _ (.failedFor _) => True
  | _, c => Quiet c

lemma failing_call (c : Call β) (hc : Quiet c) : Failing c := by
  cases c with
  | updateJob => exact hc.elim
  | _ => exact hc

/-- A job that has failed stays so, with its attempts. -/
structure KeepsFailed (id : String) (s t : World) : Prop where
  jobs : ∀ job, s.jobs.get id = some job → job.Status = .failed →
    ∃ job', t.jobs.get id = some job' ∧ job'.Status = .failed ∧ job'.Attempts = job.Attempts
  timers : t.timers = s.timers

lemma KeepsFailed.of_same (h : Same s t) : KeepsFailed id s t :=
  ⟨fun job hj hf => ⟨job, by rw [h.jobs]; exact hj, hf, rfl⟩, h.timers⟩

lemma KeepsFailed.trans {u : World} (h : KeepsFailed id s t) (h' : KeepsFailed id t u) :
    KeepsFailed id s u := by
  refine ⟨fun job hj hf => ?_, h'.timers.trans h.timers⟩
  obtain ⟨job', hj', hf', ha⟩ := h.jobs job hj hf
  obtain ⟨job'', hj'', hf'', ha'⟩ := h'.jobs job' hj' hf'
  exact ⟨job'', hj'', hf'', ha'.trans ha⟩

/-- A callback that writes Failed, seen from any job. -/
lemma keepsFailed_modify (hm : m.writes = some .failed)
    (hjobs : t.jobs = s.jobs.modify jobID (m.apply now)) (htimers : t.timers = s.timers) :
    KeepsFailed id s t := by
  refine ⟨fun job hj hf => ?_, htimers⟩
  rw [hjobs, get_modify _ _ _ (m.apply_ID now)]
  split_ifs with hid
  · subst hid
    refine ⟨_, by rw [hj]; rfl, JobMutation.apply_of_writes hm now job, ?_⟩
    exact apply_Attempts (by rintro n reason rfl; cases hm) now job
  · exact ⟨job, hj, hf, rfl⟩

lemma keepsFailed_call (hc : Failing c) (h : exec st c s b t) : KeepsFailed id s t := by
  cases c with
  | updateJob jobID m =>
    obtain ⟨now, -, rfl⟩ := h
    cases m with
    | failed | failedFor => exact keepsFailed_modify rfl rfl rfl
    | _ => exact hc.elim
  | _ => exact .of_same (same_of_quiet (by exact hc) h)

lemma spec_handleFailJob {j : Job} (hj : s.jobs.get job.ID = some j)
    (h : Prog.Ends (exec st) (handleFailJob job msg) s () t) :
    ∃ j', t.jobs.get job.ID = some j' ∧ j'.Status = .failed ∧ j'.Attempts = j.Attempts ∧
      t.timers = s.timers := by
  have huses := uses_handleFailJob failing_call (fun _ => trivial) (fun _ _ => trivial) job msg
  obtain ⟨updated, u, ⟨now, -, rfl⟩, h⟩ := ends_step.mp h
  have hrest := ends_of_uses (R := KeepsFailed job.ID) (fun _ => .of_same (.refl _))
    (fun _ _ _ => KeepsFailed.trans) keepsFailed_call (huses.2 updated) h
  have hget : (s.jobs.modify job.ID (JobMutation.failed.apply now)).get job.ID =
      some (JobMutation.failed.apply now j) := by
    rw [get_modify _ _ _ (JobMutation.apply_ID _ now), if_pos rfl, hj]
    rfl
  obtain ⟨j', hj', hf, ha⟩ := hrest.jobs _ hget rfl
  exact ⟨j', hj', hf, ha, hrest.timers⟩

lemma spec_handleJobError {w : ConnID} (hjob : s.jobs.get job.ID = some job)
    (hopen : ¬job.Status.IsTerminal)
    (h : Prog.Ends (exec st) (handleJobError cfg w job msg) s () t) :
    ∃ job', t.jobs.get job.ID = some job' ∧ job'.Attempts = job.Attempts + 1 ∧
      (FailsForGood cfg s job msg ∧ job'.Status = .failed ∧ t.timers = s.timers ∨
        ¬FailsForGood cfg s job msg ∧ job'.Status = job.Status ∧
          t.timers = s.timers ++ [job.ID]) := by
  obtain ⟨u, now, hu, htimers, -, h⟩ := ends_handleJobError id hopen h
  have hget := get_attempts hjob hu
  rcases h with ⟨hgood, h⟩ | ⟨hgood, d, ht⟩
  · obtain ⟨job', hj', hf, ha, ht⟩ := spec_handleFailJob hget h
    exact ⟨job', hj', ha, .inl ⟨hgood, hf, ht.trans htimers⟩⟩
  · have ht : t = { u with timers := u.timers ++ [job.ID] } := ht
    have hget' : t.jobs.get job.ID = u.jobs.get job.ID := by rw [ht]
    exact ⟨_, hget'.trans hget, rfl, .inr ⟨hgood, rfl, by rw [ht, htimers]⟩⟩

lemma error_step {conn : ConnID} (hlimit : HasLimit cfg id limit s)
    (hop : HandlesError id s (.result conn msg)) (h : step cfg s (.result conn msg) t) :
    ∃ job, t.jobs.get id = some job ∧ job.Attempts = attempts id s + 1 ∧
      ((NoRetry cfg msg ∨ limit ≤ job.Attempts) ∧ job.Status = .failed ∧ t.timers = s.timers ∨
        ¬(NoRetry cfg msg ∨ limit ≤ job.Attempts) ∧ ¬job.Status.IsTerminal ∧
          t.timers = s.timers ++ [id]) := by
  obtain ⟨rfl, herror, job, hjob, hopen⟩ := hop
  obtain ⟨a, hends⟩ := h
  obtain ⟨read, u, ⟨hread, rfl⟩, h⟩ := ends_step.mp hends
  cases hread.trans hjob
  rw [herror] at h
  have hkey : job.ID = msg.JobID := key_of_get hjob
  have hattempts : attempts msg.JobID u = job.Attempts := by
    rw [attempts, show u.jobs.get msg.JobID = some job from hjob]
    rfl
  obtain ⟨job', hj', ha, hend⟩ := spec_handleJobError (hkey ▸ hjob) hopen h
  have hgood : FailsForGood cfg u job msg ↔ NoRetry cfg msg ∨ limit ≤ job'.Attempts := by
    rw [FailsForGood, hlimit job hjob, ha, NoRetry, or_assoc]
  rw [hkey] at hj' hend
  refine ⟨job', hj', by rw [ha, hattempts], ?_⟩
  rw [← hgood]
  refine hend.imp_right fun ⟨hno, hstatus, htimers⟩ => ⟨hno, by rwa [hstatus], htimers⟩

/-! ### Counting along a run -/

/-- After `n` firings: each timer, fired or waiting, stands for an attempt below the limit. -/
structure Counted (limit : ℤ) (id : String) (n : ℕ) (s : World) : Prop where
  attempts : ((n + s.timers.count id : ℕ) : ℤ) ≤ attempts id s
  limit : ((n + s.timers.count id : ℕ) : ℤ) ≤ max limit 1 - 1

lemma attempts_before : attempts id (before op s) = attempts id s := by
  cases op <;> rfl

variable (id) in
lemma count_before (h : step cfg s op t) :
    (before op s).timers.count id + (if Reenqueues id s op then 1 else 0) ≤
      s.timers.count id := by
  cases op with
  | retry jobID =>
    show (s.timers.erase jobID).count id + _ ≤ _
    rw [List.count_erase]
    by_cases hid : jobID = id
    · have hpos := List.count_pos_iff.mpr (hid ▸ h.1)
      subst hid
      rw [if_pos (by simp)]
      split_ifs <;> omega
    · rw [if_neg (by simpa using hid), if_neg fun hr => hid hr.1]
      omega
  | _ => exact (Nat.add_zero _).le

/-- **One operation** counts as it should. -/
lemma counted_step {n : ℕ} (hs : Counted limit id n s) (hissued : IDsIssued s)
    (hlimit : HasLimit cfg id limit s) (h : step cfg s op t) :
    Counted limit id (n + if Reenqueues id s op then 1 else 0) t ∧
      attempts id t = attempts id s + if HandlesError id s op then 1 else 0 := by
  by_cases hop : HandlesError id s op
  · rw [if_pos hop]
    cases op with
    | result conn msg =>
      obtain ⟨job, hjob, ha, hend⟩ := error_step hlimit hop h
      have hattempts : attempts id t = attempts id s + 1 := by
        rw [← ha, attempts, hjob]
        rfl
      have hcount := hs.attempts
      have hmax := hs.limit
      refine ⟨?_, hattempts⟩
      have hno : ¬Reenqueues id s (.result conn msg) := fun hr => hr
      rw [if_neg hno, Nat.add_zero]
      rcases hend with ⟨-, -, htimers⟩ | ⟨hno, -, htimers⟩
      · exact ⟨by rw [htimers, hattempts]; omega, by rw [htimers]; omega⟩
      · have hone : (s.timers ++ [id]).count id = s.timers.count id + 1 := by simp
        constructor
        · rw [htimers, hone, hattempts]
          omega
        · rw [htimers, hone]
          omega
    | _ => exact hop.elim
  · obtain ⟨hnew, -⟩ := stepBy_newBy (fun h => h) hissued h
    have hsteady : Steadily id (before op s) t :=
      stepBy_steady (R := Steadily id) (fun h => h.2) (fun _ _ => Steadily.of_eq)
        (fun _ _ _ => Steadily.trans) (fun hc hcall => steadily_call hc hcall.1 hcall.2) hop hnew
    have hattempts : attempts id t = attempts id s := hsteady.attempts.trans attempts_before
    have hcount := count_before id h
    rw [if_neg hop, add_zero]
    refine ⟨⟨?_, ?_⟩, hattempts⟩
    · rw [hsteady.timers, hattempts]
      refine le_trans ?_ hs.attempts
      exact_mod_cast (by omega)
    · rw [hsteady.timers]
      refine le_trans ?_ hs.limit
      exact_mod_cast (by omega)

variable {tr : List (World × Op)}

/-- **Any run** counts as it should. -/
lemma counted_run {n : ℕ} (hs : Counted limit id n s) (hissued : IDsIssued s)
    (hrun : Run (step cfg) s tr t) (hlimit : ∀ u ∈ states tr t, HasLimit cfg id limit u) :
    Counted limit id (n + reenqueued id tr) t ∧
      attempts id t = attempts id s + errorsHandled id tr := by
  induction hrun generalizing n with
  | nil s => exact ⟨hs, by simp [errorsHandled]⟩
  | @cons s u t op tr hstep hrun ih =>
    rw [states_cons, List.forall_mem_cons] at hlimit
    obtain ⟨hu, hattempts⟩ := counted_step hs hissued hlimit.1 hstep
    obtain ⟨ht, hattempts'⟩ := ih hu (stepBy_new hissued hstep).2 hlimit.2
    have hre : reenqueued id ((s, op) :: tr) =
        (if Reenqueues id s op then 1 else 0) + reenqueued id tr := by
      rw [reenqueued, List.countP_cons, Nat.add_comm]
      simp [reenqueued]
    have herr : errorsHandled id ((s, op) :: tr) =
        (if HandlesError id s op then 1 else 0) + errorsHandled id tr := by
      rw [errorsHandled, List.countP_cons, Nat.add_comm]
      simp [errorsHandled]
    refine ⟨by rw [hre, ← Nat.add_assoc]; exact ht, ?_⟩
    rw [hattempts', hattempts, herr]
    push_cast
    omega

/-! ### The limit -/

/-- The job still has an attempt left if it has not ended. -/
def Bounded (limit : ℤ) (id : String) (s : World) : Prop :=
  ∀ job, s.jobs.get id = some job → ¬job.Status.IsTerminal → job.Attempts < limit ∨ limit < 1

/-- The call does not bring the job back once it has ended with no attempt left. -/
def Spares (limit : ℤ) (id : String) : {β : Type} → Call β → World → Prop
  | _, .updateJob jobID m, s => jobID = id → ∀ job status, s.jobs.get id = some job →
      job.Status.IsTerminal → m.writes = some status → ¬status.IsTerminal →
        job.Attempts < limit ∨ limit < 1
  | _, _, _ => True

/-- A call that spares the job where it is made. -/
def sparing (st : Stores) (limit : ℤ) (id : String) {β : Type} (c : Call β) (s : World) (b : β)
    (t : World) : Prop := Spares limit id c s ∧ exec st c s b t

lemma Bounded.of_eq (hs : Bounded limit id s) (h : t.jobs = s.jobs) : Bounded limit id t := by
  intro job hj
  exact hs job (h ▸ hj)

lemma bounded_modify (hs : Bounded limit id s) (hsteady : Steady id (.updateJob jobID m))
    (hspares : Spares limit id (.updateJob jobID m) s)
    (h : t.jobs = s.jobs.modify jobID (m.apply now)) : Bounded limit id t := by
  intro job hj hopen
  rw [h, get_modify _ _ _ (m.apply_ID now)] at hj
  split_ifs at hj with hid
  swap
  · exact hs job hj hopen
  subst hid
  obtain ⟨old, hold, rfl⟩ := Option.map_eq_some_iff.mp hj
  rw [apply_Attempts (steady_updateJob hsteady rfl)]
  by_cases hterm : old.Status.IsTerminal
  · -- the job has been brought back, by a callback that looks at nothing
    rcases hw : m.writes with _ | status
    · exact absurd (JobMutation.apply_terminal hw (.inl hterm) ▸ hterm) hopen
    · rw [JobMutation.apply_of_writes hw] at hopen
      exact hspares rfl old status hold hterm hw hopen
  · exact hs old hold hterm

lemma bounded_call (hc : Steady id c) (hspares : Spares limit id c s) (h : exec st c s b t)
    (hs : Bounded limit id s) : Bounded limit id t := by
  cases c with
  | saveJob job =>
    rcases h with ⟨-, rfl⟩ | ⟨-, rfl⟩
    · intro job' hj hopen
      rw [get_put] at hj
      split_ifs at hj
      · cases hj
        rw [show job.Attempts = 0 from hc]
        omega
      · exact hs job' hj hopen
    · exact hs
  | updateJob jobID m =>
    obtain ⟨now, -, rfl⟩ := h
    exact bounded_modify hs hc hspares rfl
  | updateJobFiring jobID reason =>
    obtain ⟨-, -, rfl⟩ | ⟨now, issued, webhooks, -, -, -, rfl⟩ := exec_updateJobFiring h
    · exact hs
    · have hsteady : Steady id (.updateJob jobID (.failedFor reason)) := trivial
      refine bounded_modify hs hsteady (fun _ job status _ _ hw hopen => ?_) rfl
      cases hw
      exact absurd (by decide) hopen
  | _ => exact hs.of_eq (jobs_unchanged (by exact fun hw => hw) h).1

lemma bounded_step (hlimit : HasLimit cfg id limit s)
    (h : stepBy cfg (sparing cfg.toStores limit id) s op t) (hs : Bounded limit id s) :
    Bounded limit id t := by
  by_cases hop : HandlesError id s op
  · cases op with
    | result conn msg =>
      obtain ⟨job, hjob, -, hend⟩ := error_step hlimit hop (stepBy_mono (fun h => h.2) h)
      intro job' hj' hopen
      cases hjob.symm.trans hj'
      rcases hend with ⟨-, hfailed, -⟩ | ⟨hno, -, -⟩
      · rw [hfailed] at hopen
        exact absurd (by decide) hopen
      · exact .inl (lt_of_not_ge fun hge => hno (.inr hge))
    | _ => exact hop.elim
  · have hb : Bounded limit id (before op s) := by
      cases op <;> exact hs
    exact stepBy_steady (R := fun s t => Bounded limit id s → Bounded limit id t) (fun h => h.2)
      (fun _ _ hj _ hs => hs.of_eq hj) (fun _ _ _ h h' hs => h' (h hs))
      (fun hc hcall hs => bounded_call hc hcall.1 hcall.2 hs) hop h hb

lemma bounded_run (hs : Bounded limit id s)
    (hrun : Run (stepBy cfg (sparing cfg.toStores limit id)) s tr t)
    (hlimit : ∀ u ∈ states tr t, HasLimit cfg id limit u) : Bounded limit id t := by
  induction hrun with
  | nil s => exact hs
  | cons hstep hrun ih =>
    rw [states_cons, List.forall_mem_cons] at hlimit
    exact ih (bounded_step hlimit.1 hstep hs) hlimit.2

lemma run_of_sparing (hrun : Run (stepBy cfg (sparing cfg.toStores limit id)) s tr t) :
    Run (step cfg) s tr t := by
  induction hrun with
  | nil s => exact .nil s
  | cons hstep _ ih => exact .cons (stepBy_mono (fun h => h.2) hstep) ih

/-- **Retry bound.** From the time before a job is stored on, or before its first error, over
every run in which no update brings the job back once it has ended with no attempt left: its
stored attempts are the error results handled before it had ended; the retry timer has put it on
the queue at most as often as the limit allows; and the next error result fails it exactly if that
reaches the limit, or if the exit code says so. -/
theorem retry_bound {tr : List (World × Op)} (hissued : IDsIssued s) (hnone : attempts id s = 0)
    (htimers : id ∉ s.timers) (hrun : Run (stepBy cfg (sparing cfg.toStores limit id)) s tr t)
    (hlimit : ∀ u ∈ states tr t, HasLimit cfg id limit u) :
    attempts id t = errorsHandled id tr ∧ (reenqueued id tr : ℤ) ≤ max limit 1 - 1 ∧
      ∀ conn msg u, HandlesError id t (.result conn msg) → step cfg t (.result conn msg) u →
        ∃ job, u.jobs.get id = some job ∧ job.Attempts = attempts id t + 1 ∧
          (job.Status = .failed ↔ job.Attempts = limit ∨ limit < 1 ∨ NoRetry cfg msg) := by
  have hcount : s.timers.count id = 0 := List.count_eq_zero.mpr htimers
  have hstart : Counted limit id 0 s := by
    constructor
    · rw [hcount, hnone]
      simp
    · rw [hcount]
      have := le_max_right limit 1
      push_cast
      omega
  obtain ⟨hcounted, hattempts⟩ := counted_run hstart hissued (run_of_sparing hrun) hlimit
  refine ⟨by rw [hattempts, hnone, zero_add], ?_, fun conn msg u hop h => ?_⟩
  · have hle := hcounted.limit
    push_cast at hle
    omega
  have hbounded : Bounded limit id s := by
    intro job hj _
    have hzero : job.Attempts = 0 := by rw [← hnone, attempts, hj]; rfl
    omega
  have hb := bounded_run hbounded hrun hlimit
  obtain ⟨job, hjob, ha, hend⟩ := error_step (hlimit t Run.last_mem) hop h
  refine ⟨job, hjob, ha, ?_⟩
  obtain ⟨-, -, old, hold, hopen⟩ := hop
  have hleft := hb old hold hopen
  have hold' : attempts id t = old.Attempts := by
    rw [attempts, show t.jobs.get id = some old from hold]
    rfl
  rcases hend with ⟨hgood, hfailed, -⟩ | ⟨hno, hopen', -⟩
  · refine iff_of_true hfailed ?_
    rcases hgood with hcode | hge
    · exact .inr (.inr hcode)
    · omega
  · refine iff_of_false (fun hf => hopen' (by rw [hf]; decide)) ?_
    rintro (heq | hlt | hcode)
    · exact hno (.inr heq.ge)
    · have hpos := hcounted.attempts
      exact hno (.inr (by omega))
    · exact hno (.inl hcode)

/-! ### Two runs -/

instance (cfg : Config) (id : String) (limit : ℤ) (s : World) : Decidable (HasLimit cfg id limit s) :=
  inferInstanceAs (Decidable (∀ job ∈ s.jobs.get id, _ = limit))

/-- So many attempts for every job, and no registry. -/
def tries (n : ℤ) : Config :=
  { Config.defaults with hasRegistry := false, DefaultRetryPolicy := { MaxAttempts := n } }

def failure (runID : String) : ResultMessage where
  JobID := "j"
  RunID := runID
  ResultType := .error
  Reason := "exit status 1"
  ExitCode := 1

/-- Only jobs that have not ended are updated. -/
def onlyOpen : {β : Type} → Call β → World → Bool
  | _, .updateJob id _, s => (s.jobs.get id).all fun job => !job.Status.IsTerminal
  | _, _, _ => true

lemma spares_of_onlyOpen {β : Type} {c : Call β} (h : onlyOpen c s) : Spares limit id c s := by
  cases c with
  | updateJob jobID m =>
    rintro rfl job status hj hend - -
    simp [onlyOpen, hj, hend] at h
  | _ => trivial

/-- The job fails, is tried again, and the second failure is its last. -/
theorem retry_bound_retried :
    ∃ tr t, Run (stepBy (tries 2) (sparing (tries 2).toStores 2 "j")) World.initial tr t ∧
      errorsHandled "j" tr = 1 ∧ reenqueued "j" tr = 1 ∧
      HandlesError "j" t (.result 0 (failure "r2")) ∧
      ∀ u, step (tries 2) t (.result 0 (failure "r2")) u →
        ∃ job, u.jobs.get "j" = some job ∧ job.Attempts = 2 ∧ job.Status = .failed := by
  obtain ⟨tr, t, hrun, hlimit, herror, hre, hop⟩ : ∃ tr t,
      Run (stepBy (tries 2) (sparing (tries 2).toStores 2 "j")) World.initial tr t ∧
      (∀ u ∈ states tr t, HasLimit (tries 2) "j" 2 u) ∧ errorsHandled "j" tr = 1 ∧
      reenqueued "j" tr = 1 ∧ HandlesError "j" t (.result 0 (failure "r2")) :=
    ⟨_, _, run_guarded (g := onlyOpen) (fun hopen h => ⟨spares_of_onlyOpen hopen, h⟩)
      { ids := ["j", "r1", "r2"] } (rfl : playOps _ _
        (proposes ++ [.accept 0 "w" "j", .result 0 (failure "r1"), .retry "j", .processQueue,
          .accept 0 "w" "j"]) _ = _),
      by decide, by decide, by decide, by decide⟩
  obtain ⟨hattempts, -, hnext⟩ := retry_bound (by decide) (by decide) (by decide) hrun hlimit
  refine ⟨tr, t, hrun, herror, hre, hop, fun u hu => ?_⟩
  obtain ⟨job, hjob, ha, hiff⟩ := hnext 0 (failure "r2") u hop hu
  rw [hattempts, herror] at ha
  exact ⟨job, hjob, ha, hiff.mpr (.inl ha)⟩

def resultOf (id : String) : Op → Option (ConnID × String)
  | .result conn msg => if msg.JobID = id then some (conn, msg.RunID) else none
  | _ => none

def dispatchOf (id : String) : ConnID × Frame → Option (ConnID × String)
  | (conn, .dispatch job runID _) => if job.ID = id then some (conn, runID) else none
  | _ => none

/-- Each result of the job answers a dispatch of its own, sent over the same connection before. -/
def OneResultEach (id : String) (tr : List (World × Op)) : Prop :=
  (tr.filterMap fun p => (resultOf id p.2).map Prod.snd).Nodup ∧
    ∀ p ∈ tr, ∀ r ∈ resultOf id p.2, r ∈ p.1.sent.filterMap (dispatchOf id)

instance (id : String) (tr : List (World × Op)) : Decidable (OneResultEach id tr) := by
  unfold OneResultEach; infer_instance

/-- **Two attempts of one.** A worker that connects again starts a re-queue of its jobs. The result
of the job comes in first and fails it, with its only attempt used up; the re-queue then puts the
failed job back on the queue, and it is tried, and fails, a second time. -/
theorem tried_beyond_limit :
    ∃ tr t u, Run (step (tries 1)) World.initial tr t ∧
      (∀ v ∈ states tr t, HasLimit (tries 1) "j" 1 v) ∧
      OneResultEach "j" (tr ++ [(t, .result 1 (failure "r2"))]) ∧
      HandlesError "j" t (.result 1 (failure "r2")) ∧ ¬NoRetry (tries 1) (failure "r2") ∧
      step (tries 1) t (.result 1 (failure "r2")) u ∧
      (u.jobs.get "j").map (fun job => (job.Attempts, job.Status)) = some (2, .failed) := by
  refine ⟨_, _, _, run_played (proposes ++ [.accept 0 "w" "j", connects 1,
    .result 0 (failure "r1"), .requeue ["j"], .processQueue, .accept 1 "w" "j"])
    { ids := ["j", "r1", "r2"] } rfl, by decide, by decide, by decide, by unfold NoRetry; decide,
    ⟨(), ends_played {} rfl⟩, by decide⟩

end Workforce.Retries
