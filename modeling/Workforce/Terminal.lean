import Workforce.Playback
import Workforce.Fresh

/-!
Terminal statuses under concurrent handlers.

A status, once terminal, is meant to stay. Most of the calls that assign a status do not look at
the stored one, and those that look do so some calls earlier. What they write is right as long as
an activity starts on a job in progress and no other one is about the same job meanwhile.
-/

namespace Workforce.Terminal

open Tables Contract Progs Shared Calls Handlers Dispatcher Runs Footprints Fresh Knowledge

/-- The concurrent activities of the manager, one goroutine each. -/
inductive Activity
  | accept (w : ConnID) (workerID jobID : String)
  | staged (jobID : String)
  | starting (workerID jobID runID : String)
  | reject (w : ConnID) (jobID : String)
  | result (w : ConnID) (msg : ResultMessage)
  | retry (jobID : String)
  | requeue (jobIDs : List String)
  | cancel (jobID : String)
  | propose (job : Job) (platformKeys : List String)

variable (cfg : Config)

def Activity.prog : Activity → M Unit
  | .accept w workerID jobID => handleAcceptMessage cfg w workerID jobID
  | .staged jobID => handleStagedMessage jobID
  | .starting workerID jobID runID => handleStartingMessage workerID jobID runID
  | .reject w jobID => handleRejectMessage w jobID
  | .result w msg => handleResultMessage cfg w msg
  | .retry jobID => retryTimer jobID
  | .requeue jobIDs => OnJobsRequeued jobIDs
  | .cancel jobID => cancelJobByID jobID
  | .propose job platformKeys => do
    let _ ← tryProposeJob cfg job platformKeys

lemma owns_prog (a : Activity) : Owns (a.prog cfg) (fun _ _ => True) ∅ := by
  cases a with
  | accept => exact owns_of_knows (knows_handleAcceptMessage _ _ _)
  | staged => exact owns_of_knows (knows_handleStagedMessage _)
  | starting => exact owns_of_knows (knows_handleStartingMessage _ _ _)
  | reject => exact owns_of_knows (knows_handleRejectMessage _ _)
  | result => exact owns_of_knows (knows_handleResultMessage _ _)
  | retry => exact owns_of_knows (knows_retryTimer _)
  | requeue => exact owns_of_knows (knows_OnJobsRequeued _)
  | cancel => exact owns_of_knows (knows_cancelJobByID _)
  | propose job keys =>
    -- the job is one the dispatcher has popped
    refine owns_of_informed (F := {.job (fixed job)}) (Q := fun _ _ => True)
      (informed_bind (informed_tryProposeJob rfl fun _ _ _ => ?_)) fun id hid => ?_
    · trivial
    · cases hid

/-! ### The law -/

/-- No terminal job has another status, no finished run is in progress again. -/
structure Keeps (s t : World) : Prop where
  job : ∀ id j, s.jobs.get id = some j → j.Status.IsTerminal →
    ∃ j', t.jobs.get id = some j' ∧ j'.Status = j.Status
  run : ∀ id r, s.runs.get id = some r → r.Status.Finished →
    ∃ r', t.runs.get id = some r' ∧ r'.Status.Finished

lemma Keeps.refl (s : World) : Keeps s s :=
  ⟨fun _ j h _ => ⟨j, h, rfl⟩, fun _ r h hr => ⟨r, h, hr⟩⟩

lemma Keeps.trans {a b c : World} (h : Keeps a b) (h' : Keeps b c) : Keeps a c := by
  refine ⟨fun id j hj ht => ?_, fun id r hr hf => ?_⟩
  · obtain ⟨j1, h1, e1⟩ := h.job id j hj ht
    obtain ⟨j2, h2, e2⟩ := h'.job id j1 h1 (e1 ▸ ht)
    exact ⟨j2, h2, e2.trans e1⟩
  · obtain ⟨r1, h1, f1⟩ := h.run id r hr hf
    exact h'.run id r1 h1 f1

/-! ### Activities that start and make calls -/

def InProgress (s : World) (id : String) : Prop :=
  ∀ j, s.jobs.get id = some j → ¬j.Status.IsTerminal

/-- The job is in progress, or has ended with this status. -/
def Takes (s : World) (id : String) (st : JobStatus) : Prop :=
  ∀ j, s.jobs.get id = some j → j.Status.IsTerminal → j.Status = st

/-- The jobs an activity is about: the one it names, with the children a cancel ends and the
parent a failure ends. -/
def Activity.jobs (s : World) : Activity → Set String
  | .accept _ _ jobID | .staged jobID | .starting _ jobID _ | .reject _ jobID | .retry jobID =>
    {jobID}
  | .requeue jobIDs => {id | id ∈ jobIDs}
  | .propose job _ => {job.ID}
  | .cancel jobID => {id | id = jobID ∨ ∃ j, s.jobs.get id = some j ∧ j.ParentJobID = jobID}
  | .result _ msg => {id | id = msg.JobID ∨ msg.ResultType = .error ∧ id ≠ "" ∧
      ∃ j, s.jobs.get msg.JobID = some j ∧ j.ParentJobID = id}

/-- The activity comes in time: a message, a re-queue, a proposal or a cancel while its job is in
progress, and while the run is that a message says is starting. A result may come late, and so may
a timer; the error of a job in progress must find its parent waiting, or failed already. -/
def Activity.InTime (s : World) : Activity → Prop
  | .accept _ _ jobID | .staged jobID | .reject _ jobID | .cancel jobID => InProgress s jobID
  | .starting _ jobID runID => InProgress s jobID ∧ runID ≠ "" ∧
      ∃ r, s.runs.get runID = some r ∧ r.JobID = jobID ∧ ¬r.Status.Finished
  | .requeue jobIDs => ∀ id ∈ jobIDs, InProgress s id
  | .propose job _ => InProgress s job.ID
  | .result _ msg => msg.ResultType = .error → ∃ j, s.jobs.get msg.JobID = some j ∧
      (j.Status.IsTerminal ∨ j.ParentJobID = "" ∨ Takes s j.ParentJobID .failed)
  | .retry _ => True

/-- The store, and for each activity begun so far the jobs it was about and the calls it still has
to make. -/
structure System where
  st : World
  begun : List (Set String × M Unit)

inductive Event
  | start (a : Activity)
  | call (i : ℕ)

/-- An activity starts, or one that has started makes its next call. -/
inductive Goes : System → Event → System → Prop
  | start {s : World} {l : List (Set String × M Unit)} (a : Activity) :
      Goes ⟨s, l⟩ (.start a) ⟨s, l ++ [(a.jobs s, a.prog cfg)]⟩
  | call {s t : World} {l : List (Set String × M Unit)} {i : ℕ} {F : Set String} {β : Type}
      {c : Call β} {k : β → M Unit} {b : β} :
      l[i]? = some (F, .call c k) → exec cfg.toStores c s b t →
        Goes ⟨s, l⟩ (.call i) ⟨t, l.set i (F, k b)⟩

/-- A run that is written is one of these jobs. -/
def OwnRun (F : Set String) : {β : Type} → Call β → World → Prop
  | _, .updateRun id _, s => ∀ r, s.runs.get id = some r → r.JobID ∈ F
  | _, _, _ => True

/-- Activities start in time, and not on a job that another one is still about; an activity writes
runs of its own jobs only. -/
def Proper (q : System) : Event → Prop
  | .start a => a.InTime q.st ∧ ∀ x ∈ q.begun, x.2 = .pure () ∨ ∀ id ∈ x.1, id ∉ a.jobs q.st
  | .call i => ∀ (F : Set String) (β : Type) (c : Call β) (k : β → M Unit),
      q.begun[i]? = some (F, .call c k) → OwnRun F c q.st

/-! ### What others do

An activity relies on what the others leave of its own jobs, and in turn writes only to those. -/

/-- A run goes on: it stays finished, and if it is one of the jobs `F`, in progress. -/
structure Continues (F : Set String) (r r' : JobRun) : Prop where
  JobID : r'.JobID = r.JobID
  finished : r.Status.Finished → r'.Status.Finished
  goes : r.JobID ∈ F → ¬r.Status.Finished → ¬r'.Status.Finished

/-- As seen from the jobs `F`: none of them ends or gets a child, none of their runs finishes. -/
structure Apart (F : Set String) (s t : World) : Prop where
  old : ∀ id j, s.jobs.get id = some j → ∃ j', t.jobs.get id = some j' ∧
    j'.ParentJobID = j.ParentJobID ∧ (j.Status.IsTerminal → j'.Status = j.Status)
  new : ∀ id j', t.jobs.get id = some j' → id ∈ F ∧ j'.Status.IsTerminal ∨ j'.ParentJobID ∈ F →
    ∃ j, s.jobs.get id = some j ∧ j.ParentJobID = j'.ParentJobID ∧
      (id ∈ F → j'.Status.IsTerminal → j.Status = j'.Status)
  runs : ∀ id r, s.runs.get id = some r → ∃ r', t.runs.get id = some r' ∧ Continues F r r'

section Apart

variable {F F' : Set String} {s t u : World} {id : String} {σ : JobStatus}

lemma InProgress.takes (h : InProgress s id) : Takes s id σ := fun j hj ht => absurd ht (h j hj)

lemma Takes.inProgress (h : Takes s id σ) (hst : ¬σ.IsTerminal) : InProgress s id :=
  fun j hj ht => hst (h j hj ht ▸ ht)

lemma Apart.keeps (h : Apart F s t) : Keeps s t := by
  refine ⟨fun id j hj ht => ?_, fun id r hr hf => ?_⟩
  · obtain ⟨j', hj', -, hst⟩ := h.old id j hj
    exact ⟨j', hj', hst ht⟩
  · obtain ⟨r', hr', hgoes⟩ := h.runs id r hr
    exact ⟨r', hr', hgoes.finished hf⟩

lemma Continues.refl (r : JobRun) : Continues F r r := ⟨rfl, id, fun _ h => h⟩

lemma Apart.of_jobs (hj : t.jobs = s.jobs)
    (hr : ∀ id r, s.runs.get id = some r → ∃ r', t.runs.get id = some r' ∧ Continues F r r') :
    Apart F s t where
  old _ j h := ⟨j, hj ▸ h, rfl, fun _ => rfl⟩
  new _ j h _ := ⟨j, hj ▸ h, rfl, fun _ _ => rfl⟩
  runs := hr

lemma Apart.of_eq (hj : t.jobs = s.jobs) (hr : t.runs = s.runs) : Apart F s t :=
  .of_jobs hj fun _ r h => ⟨r, hr ▸ h, .refl r⟩

lemma Apart.trans (h : Apart F s t) (h' : Apart F t u) : Apart F s u where
  old := by
    intro id j hj
    obtain ⟨j1, h1, p1, e1⟩ := h.old id j hj
    obtain ⟨j2, h2, p2, e2⟩ := h'.old id j1 h1
    exact ⟨j2, h2, p2.trans p1, fun ht => (e2 (e1 ht ▸ ht)).trans (e1 ht)⟩
  new := by
    intro id j hj hF
    obtain ⟨j1, h1, p1, e1⟩ := h'.new id j hj hF
    have hF' : id ∈ F ∧ j1.Status.IsTerminal ∨ j1.ParentJobID ∈ F := by
      rcases hF with ⟨hid, ht⟩ | hp
      · exact .inl ⟨hid, (e1 hid ht).symm ▸ ht⟩
      · exact .inr (p1.symm ▸ hp)
    obtain ⟨j2, h2, p2, e2⟩ := h.new id j1 h1 hF'
    exact ⟨j2, h2, p2.trans p1, fun hid ht => (e2 hid (e1 hid ht ▸ ht)).trans (e1 hid ht)⟩
  runs := by
    intro id r hr
    obtain ⟨r1, h1, e1⟩ := h.runs id r hr
    obtain ⟨r2, h2, e2⟩ := h'.runs id r1 h1
    exact ⟨r2, h2, e2.JobID.trans e1.JobID, fun hf => e2.finished (e1.finished hf),
      fun hF hf => e2.goes (e1.JobID ▸ hF) (e1.goes hF hf)⟩

lemma Apart.takes (h : Apart F s t) (hid : id ∈ F) (hs : Takes s id σ) : Takes t id σ := by
  intro j hj ht
  obtain ⟨j', hj', -, e⟩ := h.new id j hj (.inl ⟨hid, ht⟩)
  exact e hid ht ▸ hs j' hj' (e hid ht ▸ ht)

lemma Apart.inProgress (h : Apart F s t) (hid : id ∈ F) (hs : InProgress s id) :
    InProgress t id := (h.takes hid (hs.takes (σ := .pending))).inProgress (by decide)

/-- What a call may do on behalf of the jobs `F`: it assigns a status to one of them only, and not
to one that has ended with another; it sets no finished run running. -/
def Fine (F : Set String) : {β : Type} → Call β → World → Prop
  | _, .updateJob id m, s => ∀ σ, m.writes = some σ → id ∈ F ∧ Takes s id σ
  | _, .updateJobFiring id _, s => id ∈ F ∧ Takes s id .failed
  | _, .saveJob job, _ => ¬job.Status.IsTerminal ∧ job.ParentJobID ∈ F
  | _, .updateRun id .running, s => ∀ r, s.runs.get id = some r → ¬r.Status.Finished
  | _, _, _ => True

lemma apart_update {m : JobMutation} {now : Time} (hr : t.runs = s.runs)
    (hj : t.jobs = s.jobs.modify id (m.apply now))
    (hm : ∀ σ, m.writes = some σ → id ∉ F ∧ Takes s id σ) : Apart F s t := by
  have hget (x : String) : t.jobs.get x = if x = id then (s.jobs.get id).map (m.apply now)
      else s.jobs.get x := hj ▸ get_modify _ _ _ (m.apply_ID now)
  refine ⟨fun x j hx => ?_, fun x j' hx _ => ?_, fun _ r h => ⟨r, hr ▸ h, .refl r⟩⟩
  · rw [hget]
    split_ifs with he
    · subst he
      refine ⟨m.apply now j, by rw [hx]; rfl, m.apply_ParentJobID now j, fun ht => ?_⟩
      rcases hw : m.writes with _ | σ
      · exact JobMutation.apply_terminal hw (.inl ht)
      · rw [JobMutation.apply_of_writes hw, (hm σ hw).2 j hx ht]
    · exact ⟨j, hx, rfl, fun _ => rfl⟩
  · rw [hget] at hx
    split_ifs at hx with he
    · subst he
      obtain ⟨j, hj, rfl⟩ := Option.map_eq_some_iff.mp hx
      refine ⟨j, hj, (m.apply_ParentJobID now j).symm, fun hF ht => ?_⟩
      rcases hw : m.writes with _ | σ
      · exact (JobMutation.apply_terminal hw (.inr ht)).symm
      · exact absurd hF (hm σ hw).1
    · exact ⟨j', hx, rfl, fun _ _ => rfl⟩

lemma apart_save {job : Job} (hnew : s.jobs.get job.ID = none) (hst : ¬job.Status.IsTerminal)
    (hF : job.ParentJobID ∉ F) : Apart F s { s with jobs := s.jobs.put job } := by
  refine ⟨fun id j hj => ⟨j, get_put_of_new hnew hj, rfl, fun _ => rfl⟩, fun id j hj h => ?_,
    fun _ r hr => ⟨r, hr, .refl r⟩⟩
  rw [get_put] at hj
  split_ifs at hj
  · cases hj
    exact (h.elim (fun h => hst h.2) hF).elim
  · exact ⟨j, hj, rfl, fun _ _ => rfl⟩

lemma apart_run {m : RunMutation} {now : Time}
    (hF : ∀ r, s.runs.get id = some r → r.JobID ∉ F)
    (hm : m = .running → ∀ r, s.runs.get id = some r → ¬r.Status.Finished) :
    Apart F s { s with runs := s.runs.modify id (m.apply now) } := by
  refine .of_jobs rfl fun x r hr => ?_
  rw [get_modify _ _ _ (m.apply_ID now)]
  split_ifs with he
  · subst he
    refine ⟨m.apply now r, by rw [hr]; rfl, ?_, fun hf => ?_, fun h => absurd h (hF r hr)⟩ <;>
      cases m with
      | running => first | rfl | exact absurd hf (hm rfl r hr)
      | close st rt out reason code => first | rfl | exact st.2
      | disconnected reason => first | rfl | exact Or.inr rfl
  · exact ⟨r, hr, .refl r⟩

/-- **One call.** What is done on behalf of some jobs keeps the law, and leaves all others be. -/
theorem apart_of_fine {cfg : Stores} {β : Type} {c : Call β} {b : β} (hc : Fine F c s)
    (hr : OwnRun F c s) (hn : StoresNew c s) (hd : ∀ id ∈ F, id ∉ F') (h : exec cfg c s b t) :
    Apart F' s t := by
  cases c with
  | updateJob id m =>
    obtain ⟨now, -, ht⟩ := h
    refine apart_update (by rw [ht]) (congrArg World.jobs ht) fun σ hst => ?_
    exact ⟨hd _ (hc σ hst).1, (hc σ hst).2⟩
  | updateJobFiring id reason =>
    obtain ⟨-, -, rfl⟩ | ⟨now, issued, webhooks, -, -, -, ht⟩ := exec_updateJobFiring h
    · exact .of_eq rfl rfl
    · refine apart_update (by rw [ht]) (congrArg World.jobs ht) ?_
      rintro σ ⟨⟩
      exact ⟨hd _ hc.1, hc.2⟩
  | updateRun id m =>
    obtain ⟨now, -, rfl⟩ := h
    refine apart_run (fun r hr' => hd _ (hr r hr')) ?_
    rintro rfl
    exact hc
  | saveJob job =>
    rcases h with ⟨-, rfl⟩ | ⟨-, rfl⟩
    · exact apart_save hn hc.1 (hd _ hc.2)
    · exact .of_eq rfl rfl
  | createRun run =>
    rcases h with ⟨-, rfl⟩ | ⟨-, rfl⟩
    · exact .of_jobs rfl fun _ r hr => ⟨r, get_put_of_new hn hr, .refl r⟩
    · exact .of_eq rfl rfl
  | _ => exact .of_eq ((untouched h).jobs nofun) ((untouched h).runs nofun)

end Apart

/-! ### Activities that may be interrupted -/

section Safe

variable {cfg : Config} {F J : Set String} {α γ : Type} {s t : World} {σ : JobStatus}

/-- Whatever the others do to other jobs before each of its calls, the program makes only fine
calls, and ends as `Q` says. -/
abbrev Safe (cfg : Config) (F : Set String) (p : M α) (Q : α → World → Prop) (s : World) : Prop :=
  Prog.wp (fun c s b t => ∃ u, Apart F s u ∧ exec cfg.toStores c u b t)
    (fun c s => ∀ u, Apart F s u → Fine F c u) p Q s

lemma Safe.apart {p : M Unit} (h : Safe cfg F p (fun _ _ => True) s) (hs : Apart F s t) :
    Safe cfg F p (fun _ _ => True) t := by
  cases p with
  | pure a => trivial
  | call c k =>
    refine ⟨fun u hu => h.1 u (hs.trans hu), ?_⟩
    rintro b v ⟨u, hu, hv⟩
    exact h.2 b v ⟨u, hs.trans hu, hv⟩

lemma safe_step {β : Type} {c : Call β} {f : β → M α} {Q : α → World → Prop}
    (hf : ∀ u, Apart F s u → Fine F c u ∧
      ∀ b t, exec cfg.toStores c u b t → Safe cfg F (f b) Q t) :
    Safe cfg F (Prog.lift c >>= f) Q s := by
  refine wp_step (fun u hu => (hf u hu).1) ?_
  rintro b t ⟨u, hu, ht⟩
  exact (hf u hu).2 b t ht

/-- A job is read. -/
lemma safe_GetJob {id : String} {f : Option Job → M α} {Q : α → World → Prop}
    (hf : ∀ u, Apart F s u → Safe cfg F (f (u.jobs.get id)) Q u) :
    Safe cfg F (GetJob id >>= f) Q s := by
  refine safe_step fun u hu => ⟨trivial, ?_⟩
  rintro b t ⟨rfl, rfl⟩
  exact hf _ hu

/-- The jobs `J` are some of `F`, and can take the status. -/
structure Can (F J : Set String) (σ : JobStatus) (s : World) : Prop where
  sub : J ⊆ F
  takes : ∀ id ∈ J, Takes s id σ

/-- The only status the call assigns is this one, to one of these jobs; it saves no job and sets
no run running. -/
def Onto (J : Set String) (σ : JobStatus) : {β : Type} → Call β → Prop
  | _, .updateJob id m => ∀ st', m.writes = some st' → id ∈ J ∧ st' = σ
  | _, .updateJobFiring _ _ => False
  | _, .saveJob _ => False
  | _, .updateRun _ .running => False
  | _, _ => True

lemma onto_call {β : Type} (c : Call β) (hc : Quiet c) : Onto J σ c := by
  cases c with
  | updateJob | updateJobFiring | saveJob => exact hc.elim
  | updateRun id m => cases m <;> first | exact hc.elim | trivial
  | _ => trivial

lemma onto_update {id : String} {m : JobMutation} (hid : id ∈ J) (hm : m.writes = some σ) :
    Onto J σ (.updateJob id m) :=
  fun _ h => ⟨hid, Option.some.inj (h.symm.trans hm)⟩

lemma onto_named {id : String} {m : JobMutation} (hm : m.writes = some σ) :
    Onto {id} σ (.updateJob id m) := onto_update (Set.mem_singleton id) hm

lemma onto_unwritten {id : String} {m : JobMutation} (hm : m.writes = none) :
    Onto J σ (.updateJob id m) :=
  fun _ h => absurd (h.symm.trans hm) nofun

lemma Can.apart (h : Can F J σ s) (hu : Apart F s t) : Can F J σ t :=
  ⟨h.sub, fun id hid => hu.takes (h.sub hid) (h.takes id hid)⟩

lemma takes_of_onto {β : Type} {c : Call β} {b : β} (hc : Onto J σ c)
    (hs : ∀ id ∈ J, Takes s id σ) (h : exec cfg.toStores c s b t) : ∀ id ∈ J, Takes t id σ := by
  cases c with
  | updateJob id m =>
    obtain ⟨now, -, rfl⟩ := h
    intro x hx j hj ht
    rw [get_modify _ _ _ (m.apply_ID now)] at hj
    split_ifs at hj with he
    · subst he
      obtain ⟨j, hj', rfl⟩ := Option.map_eq_some_iff.mp hj
      rcases hw : m.writes with _ | st'
      · have hsame := JobMutation.apply_terminal hw (.inr ht)
        rw [hsame] at ht ⊢
        exact hs x hx j hj' ht
      · rw [JobMutation.apply_of_writes hw, (hc st' hw).2]
    · exact hs x hx j hj ht
  | updateJobFiring | saveJob => exact hc.elim
  | _ =>
    intro x hx j hj
    exact hs x hx j ((untouched h).jobs nofun ▸ hj)

lemma fine_of_onto {β : Type} {c : Call β} (hc : Onto J σ c) (hs : Can F J σ s) :
    Fine F c s := by
  cases c with
  | updateJob id m =>
    intro st' hw
    obtain ⟨hid, rfl⟩ := hc st' hw
    exact ⟨hs.sub hid, hs.takes id hid⟩
  | updateJobFiring | saveJob => exact hc.elim
  | updateRun id m => cases m <;> first | exact hc.elim | trivial
  | _ => trivial

/-- A program that assigns one status, to jobs that can take it. -/
lemma safe_onto {p : M α} {Q : α → World → Prop} (hp : p.Uses (Onto J σ)) (hs : Can F J σ s)
    (hQ : ∀ a t, Can F J σ t → Q a t) : Safe cfg F p Q s := by
  refine wp_invariant (φ := Onto J σ) (I := Can F J σ) ?_ hp hs hQ
  intro β c s hc hs
  refine ⟨fun u hu => fine_of_onto hc (hs.apart hu), ?_⟩
  rintro b t ⟨u, hu, ht⟩
  exact ⟨hs.sub, takes_of_onto hc (hs.apart hu).takes ht⟩

lemma safe_onto_bind {p : M α} {f : α → M γ} {Q : γ → World → Prop} (hp : p.Uses (Onto J σ))
    (hs : Can F J σ s) (hf : ∀ a t, Can F J σ t → Safe cfg F (f a) Q t) :
    Safe cfg F (p >>= f) Q s :=
  (wp_bind p f Q s).mpr (safe_onto hp hs hf)

/-- A program that assigns no status. -/
lemma safe_quiet {p : M α} (hp : p.Uses (Onto ∅ .pending)) : Safe cfg F p (fun _ _ => True) s :=
  safe_onto hp ⟨Set.empty_subset _, fun _ h => h.elim⟩ fun _ _ _ => trivial

lemma safe_of_quiet {p : M α} (hp : p.Uses Quiet) : Safe cfg F p (fun _ _ => True) s :=
  safe_quiet (uses_mono onto_call hp)

/-! ### The handlers -/

lemma can_named {id : String} (hs : InProgress s id) (hF : id ∈ F) : Can F {id} σ s := by
  refine ⟨Set.singleton_subset_iff.mpr hF, ?_⟩
  rintro _ rfl
  exact hs.takes

lemma safe_named {p : M α} {id : String} (hp : p.Uses (Onto {id} σ)) (hs : InProgress s id)
    (hF : id ∈ F) : Safe cfg F p (fun _ _ => True) s :=
  safe_onto hp (can_named hs hF) fun _ _ _ => trivial

lemma safe_handleStartingMessage {workerID jobID runID : String} (hF : jobID ∈ F)
    (hs : InProgress s jobID) (hne : runID ≠ "")
    (hr : ∃ r, s.runs.get runID = some r ∧ r.JobID ∈ F ∧ ¬r.Status.Finished) :
    Safe cfg F (handleStartingMessage workerID jobID runID) (fun _ _ => True) s := by
  have hgoes {s u : World} (hu : Apart F s u)
      (hr : ∃ r, s.runs.get runID = some r ∧ r.JobID ∈ F ∧ ¬r.Status.Finished) :
      ∃ r, u.runs.get runID = some r ∧ r.JobID ∈ F ∧ ¬r.Status.Finished := by
    obtain ⟨r, hr, hF, hf⟩ := hr
    obtain ⟨r', hr', h⟩ := hu.runs _ _ hr
    exact ⟨r', hr', h.JobID ▸ hF, h.goes hF hf⟩
  refine safe_GetJob fun u hu => ?_
  rcases hj : u.jobs.get jobID with _ | job
  · trivial
  obtain rfl : job.ID = jobID := key_of_get hj
  refine safe_step fun v hv => ⟨?_, ?_⟩
  · rintro σ ⟨⟩
    exact ⟨hF, (hv.inProgress hF (hu.inProgress hF hs)).takes⟩
  rintro b w ⟨now, -, rfl⟩
  rw [resolveRunID, if_pos hne]
  refine wp_bind _ _ _ _ |>.mpr ?_
  simp only [Prog.wp, if_pos hne, Pure.pure]
  have hgoing := hgoes hv (hgoes hu hr)
  refine safe_step fun x hx => ⟨fun r hr => ?_, fun _ _ _ => safe_of_quiet (quiet_enqueue _ _ _)⟩
  obtain ⟨r', hr', -, hf⟩ := hgoes (s := { v with jobs := _ }) hx hgoing
  cases hr.symm.trans hr'
  exact hf

/-- A failure ends its job, and the parent with it. -/
lemma safe_handleFailJob {job : Job} {msg : ResultMessage} (hs : Can F J .failed s)
    (hjob : job.ID ∈ J) (hparent : job.ParentJobID ≠ "" → job.ParentJobID ∈ J) :
    Safe cfg F (handleFailJob job msg) (fun _ _ => True) s := by
  refine safe_onto_bind (p := UpdateJob _ _) (uses_lift (onto_update hjob rfl)) hs fun _ t ht => ?_
  refine safe_onto_bind (p := FireJobFailed _ _) (uses_mono onto_call (quiet_enqueue _ _ _)) ht
    fun _ t ht => ?_
  split_ifs with hne
  · trivial
  refine safe_GetJob fun u hu => ?_
  rcases hp : u.jobs.get job.ParentJobID with _ | parent
  · trivial
  have hid : parent.ID ∈ J := (key_of_get hp : parent.ID = job.ParentJobID) ▸ hparent hne
  refine safe_onto (uses_step (onto_update hid rfl) fun updated => ?_) (ht.apart hu)
    fun _ _ _ => trivial
  split_ifs
  · trivial
  · exact uses_mono onto_call (quiet_enqueue _ _ _)

lemma safe_handleJobError {w : ConnID} {job : Job} {msg : ResultMessage}
    (hs : ¬job.Status.IsTerminal → InProgress s job.ID) (hjob : job.ID ∈ F)
    (hparent : ¬job.Status.IsTerminal → job.ParentJobID ≠ "" →
      job.ParentJobID ∈ F ∧ Takes s job.ParentJobID .failed) :
    Safe cfg F (handleJobError cfg w job msg) (fun _ _ => True) s := by
  unfold handleJobError
  by_cases hterm : job.Status.IsTerminal
  · rw [if_pos hterm]
    split_ifs
    · exact safe_of_quiet (uses_bind _ (quiet_resolveRunID _ _) fun _ =>
        quiet_closeRun _ _ _ _ _ _ _)
    · trivial
  rw [if_neg hterm]
  let J : Set String := {id | id = job.ID ∨ job.ParentJobID ≠ "" ∧ id = job.ParentJobID}
  have hs : Can F J .failed s := by
    constructor <;> rintro id (rfl | ⟨hne, rfl⟩)
    · exact hjob
    · exact (hparent hterm hne).1
    · exact (hs hterm).takes
    · exact (hparent hterm hne).2
  have hfail {job' : Job} (hid : job'.ID = job.ID) (hp : job'.ParentJobID = job.ParentJobID)
      {t : World} (ht : Can F J .failed t) : Safe cfg F (handleFailJob job' msg) (fun _ _ => True) t :=
    safe_handleFailJob ht (.inl hid) fun hne => .inr ⟨hp ▸ hne, hp⟩
  refine safe_onto_bind (p := restoreCapacity _ _ _) (uses_lift (by trivial)) hs fun _ t ht => ?_
  refine safe_onto_bind (uses_mono onto_call (quiet_resolveRunID _ _)) ht fun _ t ht => ?_
  refine safe_onto_bind (uses_mono onto_call (quiet_closeRun _ _ _ _ _ _ _)) ht fun _ t ht => ?_
  refine safe_onto_bind (p := UpdateJob _ _) (uses_lift (onto_unwritten rfl)) ht
    fun _ t ht => ?_
  dsimp only
  split
  · exact hfail rfl rfl ht
  split
  · exact hfail rfl rfl ht
  refine safe_onto_bind (p := GetTask _) (uses_lift (by trivial)) ht fun taskDef t ht => ?_
  split
  · exact safe_quiet (uses_lift (by trivial))
  · exact hfail rfl rfl ht

/-- An emission leaves its job in progress, or fails it. -/
lemma safe_handleSubjobsEmitted {parent : Job} {reqs : List ChildJobRequest}
    (hs : ¬parent.Status.IsTerminal → InProgress s parent.ID) (hF : parent.ID ∈ F) :
    Safe cfg F (handleSubjobsEmitted cfg parent reqs) (fun _ _ => True) s := by
  unfold handleSubjobsEmitted
  split_ifs with hterm
  · trivial
  refine safe_step fun u hu => ⟨trivial, ?_⟩
  rintro start _ rfl
  refine (wp_bind _ _ _ _).mpr (wp_createChildren cfg (I := fun _ x => InProgress x parent.ID)
    (F := fun x => InProgress x parent.ID) ?_ ?_ (fun h => h) ?_ ?_
    (hu.inProgress hF (hs hterm)))
  · intro β c l x hc hx
    refine ⟨fun v _ => ?_, ?_⟩
    · cases c <;> first | exact hc.elim | trivial
    · rintro b y ⟨v, hv, hy⟩
      have hjobs := (same_of_quiet (quiet_of_looks hc) hy).jobs
      exact fun j hj => hv.inProgress hF hx j (hjobs ▸ hj)
  · intro l x hx
    refine ⟨fun v _ => trivial, ?_⟩
    rintro id y ⟨v, hv, -, -, rfl⟩ child - hparent hnew
    have hpending : ¬child.Status.IsTerminal := by rw [hnew.Status]; decide
    refine ⟨fun v' _ => ⟨hpending, hparent ▸ hF⟩, ?_⟩
    rintro r z ⟨v', hv', hz⟩
    have hv' : InProgress v' parent.ID :=
      hv'.inProgress hF fun j hj => hv.inProgress hF hx j hj
    have hz' : InProgress z parent.ID := by
      rcases hz with ⟨-, rfl⟩ | ⟨-, rfl⟩
      · intro j hj
        rw [get_put] at hj
        split_ifs at hj
        · cases hj
          exact hpending
        · exact hv' j hj
      · exact hv'
    split_ifs <;> exact hz'
  · intro reason x hx
    exact ⟨fun v hv => ⟨hF, (hv.inProgress hF hx).takes⟩, fun _ _ _ _ => trivial⟩
  · intro children x hx _
    refine safe_named (σ := .awaitingChildren) (uses_step (onto_named rfl) fun updated => ?_) hx hF
    split_ifs
    · trivial
    · exact uses_bind _ (uses_EnqueueJobs (fun _ => trivial) _) fun _ => trivial

lemma safe_handleResultMessage {w : ConnID} {msg : ResultMessage} (hF : msg.JobID ∈ F)
    (hs : msg.ResultType = .error → ∃ j, s.jobs.get msg.JobID = some j ∧ (j.Status.IsTerminal ∨
      j.ParentJobID = "" ∨ j.ParentJobID ∈ F ∧ Takes s j.ParentJobID .failed)) :
    Safe cfg F (handleResultMessage cfg w msg) (fun _ _ => True) s := by
  refine safe_GetJob fun u hu => ?_
  rcases hj : u.jobs.get msg.JobID with _ | job
  · exact safe_of_quiet (quiet_SendError _ _ _)
  have hid : job.ID = msg.JobID := key_of_get hj
  have hopen : ¬job.Status.IsTerminal → InProgress u msg.JobID := by
    intro hterm j hj'
    cases hj.symm.trans hj'
    exact hterm
  dsimp only
  split
  next herr =>
    obtain ⟨j, hj', h⟩ := hs herr
    refine safe_handleJobError (hid ▸ hopen) (hid ▸ hF) fun hterm hne => ?_
    obtain ⟨j', hj'', hp, hst⟩ := hu.old _ _ hj'
    cases hj.symm.trans hj''
    rcases h with ht | h | ⟨hmem, ht⟩
    · exact absurd (hst ht ▸ ht) hterm
    · exact absurd (hp.trans h) hne
    · rw [hp]
      exact ⟨hmem, hu.takes hmem ht⟩
  next =>
    by_cases hterm : job.Status.IsTerminal
    · refine safe_quiet (uses_bind _ (uses_mono onto_call (quiet_resolveRunID _ _)) fun _ => ?_)
      rw [handleSubjobsEmitted, if_pos hterm]
      exact uses_step trivial fun _ => uses_mono onto_call (quiet_closeRun _ _ _ _ _ _ _)
    refine safe_onto_bind (uses_mono onto_call (quiet_resolveRunID _ _))
      (can_named (σ := .pending) (hopen hterm) hF) fun runID t ht => ?_
    refine (wp_bind _ _ _ _).mpr (wp_mono (safe_handleSubjobsEmitted (fun _ => ?_) (hid ▸ hF))
      fun err t _ => safe_quiet (uses_step trivial fun _ => ?_))
    · exact hid ▸ (ht.takes _ rfl).inProgress (by decide)
    · cases err with
      | some err => exact uses_mono onto_call (quiet_SendError _ _ _)
      | none => exact uses_mono onto_call (quiet_closeRun _ _ _ _ _ _ _)
  next =>
    by_cases hterm : job.Status.IsTerminal
    · rw [handleJobCompleted, if_pos hterm]
      trivial
    · exact safe_named (σ := .completed) (uses_handleJobCompleted onto_call (fun _ => trivial)
        (onto_named rfl) (fun _ _ _ => trivial) (fun _ => onto_unwritten rfl) w job)
        (hopen hterm) hF

lemma safe_cancelJobByID {jobID : String} (hF : jobID ∈ F) (hs : InProgress s jobID)
    (hchild : ∀ id j, s.jobs.get id = some j → j.ParentJobID = jobID → id ∈ F) :
    Safe cfg F (cancelJobByID jobID) (fun _ _ => True) s := by
  rw [cancelJobByID_eq]
  refine safe_GetJob fun u hu => ?_
  rcases u.jobs.get jobID with _ | job
  · trivial
  refine safe_step fun v hv => ⟨trivial, ?_⟩
  rintro children t ⟨hperm, -, ht⟩
  subst t
  -- the jobs to cancel, none of which has ended when the children are listed
  let J : Set String :=
    {id | id = jobID ∨ ∃ c ∈ children, ¬c.Status.IsTerminal ∧ c.ID = id}
  have hlisted : ∀ c ∈ children, v.jobs.get c.ID = some c ∧ c.ParentJobID = jobID := by
    intro c hc
    rw [hperm.mem_iff, List.mem_filter, mem_values] at hc
    simpa using hc
  have hJ : J ⊆ F := by
    rintro id (rfl | ⟨c, hc, -, rfl⟩)
    · exact hF
    · obtain ⟨hget, hp⟩ := hlisted c hc
      obtain ⟨j, hj, e, -⟩ := (hu.trans hv).new _ _ hget (.inr (hp ▸ hF))
      exact hchild _ j hj (e.trans hp)
  have htakes : ∀ id ∈ J, Takes v id .cancelled := by
    rintro id (rfl | ⟨c, hc, hterm, rfl⟩)
    · exact ((hu.trans hv).inProgress hF hs).takes
    · intro j hj ht
      cases (hlisted c hc).1.symm.trans hj
      exact absurd ht hterm
  refine safe_onto (uses_bind _ (uses_cancelChildren onto_call (fun _ => trivial) ?_) fun _ => ?_)
    ⟨hJ, htakes⟩ fun _ _ _ => trivial
  · exact fun c hc hterm => onto_update (.inr ⟨c, hc, hterm, rfl⟩) rfl
  · exact uses_cancelSelf onto_call (fun _ => trivial) (onto_update (.inl rfl) rfl) job

lemma safe_retryTimer {jobID : String} (hF : jobID ∈ F) :
    Safe cfg F (retryTimer jobID) (fun _ _ => True) s := by
  refine safe_GetJob fun u hu => ?_
  rcases hj : u.jobs.get jobID with _ | job
  · trivial
  dsimp only
  split_ifs with hterm
  · trivial
  refine safe_named (σ := .pending) (uses_step (onto_named rfl) fun _ =>
    uses_lift (by trivial)) (fun j hj' => ?_) hF
  cases hj.symm.trans hj'
  exact hterm

/-- An activity that starts in time may be interrupted. -/
theorem safe_prog {a : Activity} (h : a.InTime s) :
    Safe cfg (a.jobs s) (a.prog cfg) (fun _ _ => True) s := by
  cases a with
  | accept w workerID jobID =>
    exact safe_named (uses_handleAcceptMessage onto_call cfg (onto_named rfl)
      (fun _ _ => trivial) w workerID) h rfl
  | staged jobID => exact safe_named (uses_step (onto_named rfl) fun _ => trivial) h rfl
  | starting workerID jobID runID =>
    obtain ⟨hs, hne, r, hr, hjob, hf⟩ := h
    exact safe_handleStartingMessage rfl hs hne ⟨r, hr, hjob, hf⟩
  | reject w jobID =>
    exact safe_named (uses_handleRejectMessage onto_call (fun _ => trivial) (onto_named rfl)
      (fun _ _ _ => trivial) (fun _ _ => trivial) w) h rfl
  | result w msg =>
    refine safe_handleResultMessage (.inl rfl) fun herr => ?_
    obtain ⟨j, hj, hterm | hne | ht⟩ := h herr
    · exact ⟨j, hj, .inl hterm⟩
    · exact ⟨j, hj, .inr (.inl hne)⟩
    · by_cases hne : j.ParentJobID = ""
      · exact ⟨j, hj, .inr (.inl hne)⟩
      · exact ⟨j, hj, .inr (.inr ⟨.inr ⟨herr, hne, j, hj, rfl⟩, ht⟩)⟩
  | retry jobID => exact safe_retryTimer rfl
  | requeue jobIDs =>
    exact safe_onto (uses_OnJobsRequeued onto_call (fun _ => trivial)
      fun id hid => onto_update hid rfl) ⟨subset_rfl, fun id hid => (h id hid).takes⟩
      fun _ _ _ => trivial
  | cancel jobID => exact safe_cancelJobByID (.inl rfl) h fun _ j hj hp => .inr ⟨j, hj, hp⟩
  | propose job keys =>
    exact safe_named (uses_bind _ (uses_tryProposeJob onto_call cfg job (fun _ _ _ => trivial)
      (onto_named rfl) (fun _ => trivial) keys) fun _ => trivial) h rfl

end Safe

/-! ### Runs -/

def Compatible (x y : Set String × M Unit) : Prop :=
  x.2 = .pure () ∨ y.2 = .pure () ∨ ∀ id ∈ x.1, id ∉ y.1

lemma Compatible.symm {x y : Set String × M Unit} (h : Compatible x y) : Compatible y x := by
  rcases h with h | h | h
  · exact .inr (.inl h)
  · exact .inl h
  · exact .inr (.inr fun id hy hx => h id hx hy)

/-- The activities that go on are about different jobs, and may be interrupted by each other. -/
structure Coexist (q : System) : Prop where
  owned : Owned ⟨q.st, q.begun.map Prod.snd⟩
  safe : ∀ x ∈ q.begun, Safe cfg x.1 x.2 (fun _ _ => True) q.st
  compatible : q.begun.Pairwise Compatible

variable {cfg} {q q' : System}

/-- **One event.** -/
theorem coexist_goes {e : Event} (hq : Coexist cfg q) (he : Proper q e) (h : Goes cfg q e q') :
    Coexist cfg q' ∧ Keeps q.st q'.st := by
  cases h with
  | @start s l a =>
    refine ⟨⟨?_, fun x hx => ?_, ?_⟩, .refl s⟩
    · rw [List.map_append]
      exact hq.owned.spawn ⟨owns_prog cfg a, Finset.empty_subset _, by simp⟩
        fun _ => disjoint_bot_right
    · rcases List.mem_append.mp hx with hx | hx
      · exact hq.safe x hx
      · obtain rfl := List.mem_singleton.mp hx
        exact safe_prog he.1
    · refine List.pairwise_append.mpr ⟨hq.compatible, List.pairwise_singleton _ _, fun x hx y hy => ?_⟩
      obtain rfl := List.mem_singleton.mp hy
      exact (he.2 x hx).imp_right .inr
  | @call s t l i F β c k b hi hexec =>
    have hthread : (l.map Prod.snd)[i]? = some (.call c k) := by simp [hi]
    have hnew := (nextMeets_iff hthread).mp (storesNew_of_owned (i := i) hq.owned)
    obtain ⟨hfine, hnext⟩ := hq.safe _ (List.mem_of_getElem? hi)
    have hrefl (F : Set String) : Apart F s s := .of_eq rfl rfl
    have hapart {F' : Set String} (hd : ∀ id ∈ F, id ∉ F') : Apart F' s t :=
      apart_of_fine (hfine s (hrefl F)) (he F β c k hi) hnew hd hexec
    have hother : ∀ j y, j ≠ i → l[j]? = some y → y.2 = .pure () ∨ ∀ id ∈ F, id ∉ y.1 := by
      intro j y hj hy
      exact (pairwise_get Compatible.symm hq.compatible hi hy hj).resolve_left nofun
    refine ⟨⟨?_, fun x hx => ?_, ?_⟩, (hapart fun id _ => Set.notMem_empty id).keeps⟩
    · rw [List.map_set]
      exact owned_step hq.owned (.mk hthread hexec)
    · obtain ⟨j, hj⟩ := List.mem_iff_getElem?.mp hx
      by_cases hji : j = i
      · subst hji
        obtain ⟨hlt, -⟩ := List.getElem?_eq_some_iff.mp hi
        rw [List.getElem?_set_self hlt, Option.some.injEq] at hj
        subst hj
        exact hnext b t ⟨s, hrefl F, hexec⟩
      · rw [List.getElem?_set_ne (Ne.symm hji)] at hj
        have hsafe := hq.safe x (List.mem_of_getElem? hj)
        rcases hother j x hji hj with hdone | hd
        · rw [hdone]
          trivial
        · exact hsafe.apart (hapart hd)
    · exact pairwise_set Compatible.symm hq.compatible fun j y hj hy => .inr (hother j y hj hy)

lemma coexist_none {s : World} (hs : IDsIssued s) : Coexist cfg ⟨s, []⟩ :=
  ⟨owned_start hs (by simp), by simp, .nil⟩

/-- **Terminal statuses along a run.** Over any store, if the activities start in time, none on a
job that another one is about, no state of the run breaks the law with respect to an earlier one. -/
theorem terminal_kept {s : World} (hs : IDsIssued s) {tr : List (System × Event)}
    (h : Run (Goes cfg) ⟨s, []⟩ tr q) (hproper : Meets Proper tr) :
    (states tr q).Pairwise fun q q' => Keeps q.st q'.st :=
  h.pairwise (I := Coexist cfg) (G := Proper) Keeps.trans
    (fun _ _ _ hq he hg => (coexist_goes hq he hg).1)
    (fun _ _ _ hq he hg => (coexist_goes hq he hg).2) hproper (coexist_none hs)

/-- A job that a connected worker is provisioning, and one that has completed. -/
def provisioning : World :=
  { Operations.addConn
      { Operations.NewWorkerConn 0 "w" "linux" "amd64" 4 with inFlight := {"j"} } World.initial with
    jobs := ((Table.empty _).put { ID := "d", Status := .completed }).put
      { ID := "j", Status := .provisioning }
    runs := (Table.empty _).put { ID := "r", JobID := "d", Status := .completed }
    issued := {"d", "j", "r"} }

/-- The result of the completed job, sent twice. -/
def again : Activity := .result 0 { JobID := "d", RunID := "r", ResultType := .success }

lemma proper_call {s : World} {l : List (Set String × M Unit)} {i : ℕ} {F : Set String} {β : Type}
    {c : Call β} {k : β → M Unit} (hi : l[i]? = some (F, .call c k)) (h : OwnRun F c s) :
    Proper ⟨s, l⟩ (.call i) := by
  intro F' β' c' k' hi'
  simp only [hi, Option.some.injEq, Prod.mk.injEq, Prog.call.injEq] at hi'
  obtain ⟨rfl, rfl, h1, -⟩ := hi'
  cases h1
  exact h

/-- While the result that comes late is looked at, the other job is staged. -/
theorem terminal_kept_staged : (provisioning.jobs.get "d").map Job.Status = some .completed ∧
    ∃ tr q, Run (Goes .defaults) ⟨provisioning, []⟩ tr q ∧ Meets Proper tr ∧
      (q.st.jobs.get "j").map Job.UpdatedAt = some 1 ∧
      (states tr q).Pairwise fun q q' => Keeps q.st q'.st := by
  obtain ⟨tr, q, hrun, hproper, hj⟩ : ∃ tr q, Run (Goes .defaults) ⟨provisioning, []⟩ tr q ∧
      Meets Proper tr ∧ (q.st.jobs.get "j").map Job.UpdatedAt = some 1 := by
    refine ⟨_, _, .cons (.start again) <| .cons (.start (.staged "j")) <|
      .cons (.call (i := 0) rfl ⟨rfl, rfl⟩) <| .cons (.call (i := 1) rfl ⟨1, rfl, rfl⟩) (.nil _),
      ?_, by decide⟩
    simp only [meets_cons, meets_nil, and_true]
    refine ⟨⟨by rintro ⟨⟩, by simp⟩, ⟨fun j hj => ?_, ?_⟩, proper_call rfl trivial,
      proper_call rfl trivial⟩
    · obtain rfl := Option.some.inj (show some _ = some j from hj)
      decide
    · rintro x hx
      obtain rfl := List.mem_singleton.mp hx
      exact .inr (by simp [again, Activity.jobs])
  exact ⟨by decide, tr, q, hrun, hproper, hj, terminal_kept (by decide) hrun hproper⟩

/-- **A late staged message revives a cancelled job.** The cancel runs to its end, then the
message the worker sent before it is handled. -/
theorem staged_after_cancel :
    ∃ tr q, Run (Goes .defaults) ⟨provisioning, []⟩ tr q ∧
      ¬(states tr q).Pairwise fun q q' => Keeps q.st q'.st := by
  -- the job, its children, its worker, the frame, the update; then the message
  refine ⟨_, _, .cons (.start (.cancel "j")) <| .cons (.call (i := 0) rfl ⟨rfl, rfl⟩) <|
    .cons (.call (i := 0) (b := []) rfl ⟨by decide, by decide, rfl⟩) <|
    .cons (.call (i := 0) (b := some 0) rfl ⟨⟨_, List.mem_singleton_self _, rfl, by decide⟩, rfl⟩) <|
    .cons (.call (i := 0) rfl (.inl ⟨rfl, rfl⟩)) <| .cons (.call (i := 0) rfl ⟨1, rfl, rfl⟩) <|
    .cons (.start (.staged "j")) <| .cons (.call (i := 1) rfl ⟨2, rfl, rfl⟩) (.nil _), fun hp => ?_⟩
  have hk := List.pairwise_iff_getElem.mp hp 6 8 (by decide) (by decide) (by decide)
  obtain ⟨j', hj', hst⟩ := hk.job "j" _ rfl (by decide)
  obtain rfl := Option.some.inj (show some _ = some j' from hj')
  exact absurd hst (by decide)

end Workforce.Terminal
