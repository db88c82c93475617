import Workforce.Emission

/-!
The mutex of the store.

Each operation of the store takes its mutex and gives it back. `UpdateJob` holds it while its
callback runs, and a callback that fires an event comes back to the store the webhooks are kept in.
The mutex cannot be taken twice: a thread that holds it and asks for it waits for itself.
-/

namespace Workforce.StoreLock

open Tables Contract Progs Shared Calls Handlers Registry Footprints Emission

inductive MutexOp
  | lock | unlock
  deriving DecidableEq

/-- Whether the thread holds the mutex after the operations; none if one of them never returns. -/
def hold : Bool → List MutexOp → Option Bool
  | held, [] => some held
  | false, .lock :: rest => hold true rest
  | true, .unlock :: rest => hold false rest
  | true, .lock :: _ => none
  | false, .unlock :: _ => none

/-- The body runs with the mutex held. -/
def locked (body : List MutexOp) : List MutexOp := .lock :: body ++ [.unlock]

/-- `EnqueueWebhook`, seen from the mutex of the job store. -/
def enqueueWebhookOps (st : Stores) : List MutexOp := if st.same then locked [] else []

def fireOps (st : Stores) (j : Job) (event : String) : List MutexOp :=
  if ShouldDispatchEvent j event then enqueueWebhookOps st else []

/-- What a call does with the mutex of the job store. -/
def mutexOps (st : Stores) : {β : Type} → Call β → World → List MutexOp
  | _, .saveJob _, _ => locked []
  | _, .getJob _, _ => locked []
  -- the callbacks of `updateJob` only assign to the record
  | _, .updateJob _ _, _ => locked []
  | _, .updateJobFiring id _, s =>
    match s.jobs.get id with
    | none => locked []
    | some j => locked (fireOps st j eventJobFailed)
  | _, .listChildJobs _, _ => locked []
  | _, .getTask _, _ => locked []
  | _, .createRun _, _ => locked []
  | _, .updateRun _ _, _ => locked []
  | _, .listJobRuns _, _ => locked []
  | _, .enqueueWebhook _, _ => enqueueWebhookOps st
  | _, _, _ => []

/-- The call gets through with the mutex, and gives it back. -/
def GetsThrough (st : Stores) {β : Type} (c : Call β) (s : World) : Prop :=
  hold false (mutexOps st c s) = some false

variable {st : Stores} {s : World} {cfg : Config} {reg : Artifacts} {saves : ℕ → Option String}

/-- The one call with an event fired from the callback. -/
def Firing : {β : Type} → Call β → Prop
  | _, .updateJobFiring _ _ => True
  | _, _ => False

lemma getsThrough_of_not_firing {β : Type} {c : Call β} (hc : ¬Firing c) : GetsThrough st c s := by
  have hwebhook : hold false (enqueueWebhookOps st) = some false := by
    unfold enqueueWebhookOps
    split <;> rfl
  cases c with
  | updateJobFiring id reason => exact absurd trivial hc
  | enqueueWebhook e => exact hwebhook
  | _ => rfl

lemma getsThrough_updateJobFiring {id reason : String} {stored : Option Job}
    (hstored : s.jobs.get id = stored) :
    GetsThrough st (.updateJobFiring id reason) s ↔ ¬Rings st stored := by
  unfold GetsThrough Rings
  simp only [mutexOps]
  rw [hstored]
  rcases stored with _ | p
  · simp [locked, hold]
  · by_cases hfires : ShouldDispatchEvent p eventJobFailed <;> by_cases hsame : st.same = true <;>
      simp [fireOps, enqueueWebhookOps, hfires, hsame, locked, hold]

/-- No call of the program waits for a mutex its own thread holds. -/
def NeverWaits (cfg : Config) (reg : Artifacts) (saves : ℕ → Option String) {α : Type}
    (p : Prog Call α) (s : World) : Prop :=
  Prog.wp (scripted cfg.toStores reg saves) (fun c x => GetsThrough cfg.toStores c x.1) p
    (fun _ _ => True) (s, 0)

lemma neverWaits_of_uses {α : Type} {p : Prog Call α} (hp : p.Uses fun c => ¬Firing c) :
    NeverWaits cfg reg saves p s :=
  wp_true_of_uses (φ := fun c => ¬Firing c) getsThrough_of_not_firing hp

lemma not_firing_of_quiet {β : Type} (c : Call β) (hc : Quiet c) : ¬Firing c := by
  cases c <;> first | exact not_false | exact hc.elim

/-- **The store's mutex is taken twice exactly when an emission is refused for a job that asks for
`job.failed`.** Completions, errors and cancels fire their events after the update. -/
theorem never_waits_iff (cfg : Config) (reg : Artifacts) (saves : ℕ → Option String) (s : World) :
    (∀ (parent : Job) (reqs : List ChildJobRequest), parent.ID ∈ s.issued →
      (NeverWaits cfg reg saves (handleSubjobsEmitted cfg parent reqs) s ↔
        ¬(¬parent.Status.IsTerminal ∧ SomeRefused cfg reg saves s.tasks 0 reqs ∧
          Rings cfg.toStores (s.jobs.get parent.ID)))) ∧
    (∀ w job msg, NeverWaits cfg reg saves (handleJobCompleted w job msg) s) ∧
    (∀ w job msg, NeverWaits cfg reg saves (handleJobError cfg w job msg) s) ∧
    ∀ id, NeverWaits cfg reg saves (cancelJobByID id) s := by
  have hq := @not_firing_of_quiet
  refine ⟨fun parent reqs hissued => ?_, fun w job msg => ?_, fun w job msg => ?_, fun id => ?_⟩
  · refine (wp_handleSubjobsEmitted_iff (fun c x hc => getsThrough_of_not_firing ?_)
      (fun reason x => getsThrough_updateJobFiring) hissued rfl).trans (by tauto)
    cases c <;> first | exact not_false | exact hc.elim
  · exact neverWaits_of_uses (uses_handleJobCompleted hq (fun _ => not_false)
      (by exact not_false) (fun _ _ _ => not_false) (fun _ => not_false) w job)
  · exact neverWaits_of_uses (uses_handleJobError hq cfg w job msg (fun _ _ _ => not_false)
      (fun _ _ _ => not_false) (fun _ _ => not_false) (fun _ => not_false)
      fun _ _ => not_false)
  · exact neverWaits_of_uses (uses_cancelJobByID hq (fun _ => not_false)
      (fun _ => not_false) id)

def announced : Job := { decomposing with WebhookURL := "http://hook" }

def announcing : World := { decomposed with jobs := (Table.empty _).put announced }

theorem known_child_never_waits :
    announced.ID ∈ announcing.issued ∧
    NeverWaits .defaults released (fun _ => none)
      (handleSubjobsEmitted .defaults announced [{ Task := "t" }]) announcing := by
  refine ⟨by decide, ((never_waits_iff .defaults released (fun _ => none) announcing).1 announced
    [{ Task := "t" }] (by decide)).mpr ?_⟩
  rintro ⟨-, href, -⟩
  rw [someRefused_cons] at href
  rcases href with href | ⟨k, q, hq, -⟩
  · exact absurd href (by decide)
  · simp at hq

/-- **A request for an unknown task stops the manager.** The job asks to hear of its failure; the
call that marks it failed takes the mutex twice, and so the handler never returns. -/
theorem unknown_child_waits :
    hold false (mutexOps Config.defaults.toStores
      (.updateJobFiring "p" "child job targets unknown task: u") announcing) = none ∧
    ¬NeverWaits .defaults released (fun _ => none)
      (handleSubjobsEmitted .defaults announced [{ Task := "u" }]) announcing ∧
    ¬∃ err y, Prog.Ends (scripted Config.defaults.toStores released fun _ => none)
      (handleSubjobsEmitted .defaults announced [{ Task := "u" }]) (announcing, 0) err y := by
  refine ⟨by decide, fun h => ?_, ?_⟩
  · have hfire := ((h.2 0 (announcing, 0) ⟨rfl, trivial, rfl⟩).2 none (announcing, 0)
      ⟨⟨by decide, rfl⟩, trivial, rfl⟩).1
    exact absurd hfire (by unfold GetsThrough; decide)
  · rintro ⟨err, y, h⟩
    have href : SomeRefused .defaults released (fun _ => none) announcing.tasks 0 [{ Task := "u" }] :=
      ⟨0, { Task := "u" }, rfl, by decide⟩
    exact not_rings_of_ends (by decide) (by decide) href h ⟨rfl, announced, by decide, by decide⟩

end Workforce.StoreLock
