import Workforce.Operations

/-!
What a program knows when it makes a call.

A handler queues, books and takes off only jobs that it has read, popped or saved before, and
stores new records only under identifiers that it has made. This can be read off the program
alone, whatever the stores answer. What it means for the stores is said where it is used.
-/

namespace Workforce.Knowledge

open Contract Progs Shared Calls Handlers Dispatcher Footprints Operations

/-- What no update changes of a job. -/
def fixed (j : Job) : Job :=
  { j with
    Status := .pending
    Phase := .run
    Priority := 0
    Attempts := 0
    Result := none
    FailureReason := ""
    UpdatedAt := 0
    CompletedAt := none
    Duration := none }

inductive Fact
  /-- A job with these fixed fields is stored. -/
  | job (f : Job)
  /-- The identifier has been made, and nothing is stored under it yet. -/
  | own (id : String)
  /-- A worker has been found for a job of this cost. -/
  | payable (cost : ℤ)

variable {α β : Type} {F : Set Fact}

/-- What must be known for a call. -/
def Needs (F : Set Fact) : {β : Type} → Call β → Prop
  | _, .pushItem job => .job (fixed job) ∈ F
  | _, .restoreCapacity _ id cost => ∃ f, .job f ∈ F ∧ f.ID = id ∧ f.Cost = cost
  | _, .subtractCapacity _ id cost =>
    (∃ f, .job f ∈ F ∧ f.ID = id ∧ f.Cost = cost) ∧ .payable cost ∈ F
  | _, .saveJob job => .own job.ID ∈ F ∧
    (job.ParentJobID = "" ∨ ∃ f, .job f ∈ F ∧ f.ID = job.ParentJobID)
  | _, .createRun run => .own run.ID ∈ F
  | _, _ => True

def learns (F : Set Fact) : {β : Type} → Call β → β → Set Fact
  | _, .getJob _, r => F ∪ {f | ∃ j, r = some j ∧ f = .job (fixed j)}
  | _, .popItem, r => F ∪ {f | ∃ j, r = some j ∧ f = .job (fixed j)}
  | _, .eligibleWorkers _ cost _, r => F ∪ {f | r ≠ [] ∧ f = .payable cost}
  | _, .ulidMake, id => insert (.own id) F
  | _, .saveJob job, err => F \ {.own job.ID} ∪ {f | err = none ∧ f = .job (fixed job)}
  | _, .createRun run, _ => F \ {.own run.ID}
  | _, _, _ => F

/-- Whatever the answers are, every call of the program has what it needs, and the program ends
with a result and knowledge that satisfy `Q`. -/
abbrev Informed (p : M α) (Q : α → Set Fact → Prop) (F : Set Fact) : Prop :=
  Prog.wp (fun c F b F' => F' = learns F c b) (fun c F => Needs F c) p Q F

/-- Everything known of jobs stays known; identifiers are used up. -/
def Recalls (F F' : Set Fact) : Prop := ∀ f, .job f ∈ F → .job f ∈ F'

lemma Recalls.trans {F' F'' : Set Fact} (h : Recalls F F') (h' : Recalls F' F'') : Recalls F F'' :=
  fun f hf => h' f (h f hf)

/-- Saving a job uses up the identifier made for it, and nothing else. -/
lemma recalls_saveNew {F' : Set Fact} {id : String} {job : Job} {saved : Option String}
    (h : F ⊆ F') : Recalls F (learns (learns F' .ulidMake id) (.saveJob job) saved) :=
  fun _ hf => .inl ⟨.inr (h hf), Fact.noConfusion⟩

/-! ### Rules -/

variable {Q : α → Set Fact → Prop} {p : M α}

lemma informed_step {c : Call β} {f : β → M α} (hc : Needs F c)
    (hf : ∀ b, Informed (f b) Q (learns F c b)) : Informed (Prog.lift c >>= f) Q F :=
  wp_step hc fun b _ hu => hu ▸ hf b

lemma informed_bind {f : α → M β} {Q : β → Set Fact → Prop}
    (h : Informed p (fun a F => Informed (f a) Q F) F) : Informed (p >>= f) Q F :=
  (wp_bind p f Q F).mpr h

lemma informed_of_needless (hp : p.Uses (Needs ∅)) (hQ : ∀ a F', F ⊆ F' → Q a F') :
    Informed p Q F := by
  refine wp_of_uses (R := (· ⊆ ·)) (fun _ => subset_rfl) (fun _ _ _ => Set.Subset.trans) ?_ ?_ hp hQ
  · rintro β c F b _ hc rfl
    cases c with
    | getJob | popItem | eligibleWorkers => exact Set.subset_union_left
    | ulidMake => exact Set.subset_insert _ _
    | saveJob => exact hc.1.elim
    | createRun => exact hc.elim
    | _ => exact subset_rfl
  · intro β c F hc
    cases c with
    | pushItem | createRun => exact hc.elim
    | saveJob => exact hc.1.elim
    | restoreCapacity => exact hc.choose_spec.1.elim
    | subtractCapacity => exact hc.2.elim
    | _ => trivial

lemma needless_call (c : Call β) (hc : Quiet c) : Needs ∅ c := by
  cases c with
  | pushItem | restoreCapacity | subtractCapacity | saveJob | createRun => exact hc.elim
  | _ => trivial

lemma informed_quiet (hp : p.Uses Quiet) (hQ : ∀ a F', F ⊆ F' → Q a F') : Informed p Q F :=
  informed_of_needless (uses_mono needless_call hp) hQ

lemma informed_quiet_bind {f : α → M β} {Q : β → Set Fact → Prop} (hp : p.Uses Quiet)
    (hf : ∀ a F', F ⊆ F' → Informed (f a) Q F') : Informed (p >>= f) Q F :=
  informed_bind (informed_quiet hp hf)

lemma informed_EnqueueJobs {l : List Job} {Q : Unit → Set Fact → Prop}
    (hl : ∀ j ∈ l, .job (fixed j) ∈ F) (hQ : Q () F) : Informed (EnqueueJobs l) Q F := by
  induction l with
  | nil => exact hQ
  | cons job l ih =>
    obtain ⟨hjob, hl⟩ := List.forall_mem_cons.mp hl
    exact informed_step hjob fun _ => ih hl

/-- A program that gets by with what it knows from the start. -/
abbrev Knows (F : Set Fact) (p : M α) : Prop := Informed p (fun _ _ => True) F

variable {cfg : Config} {job : Job}

lemma knows_quiet (hp : p.Uses Quiet) : Knows F p := informed_quiet hp fun _ _ _ => trivial

lemma knows_needless (hp : p.Uses (Needs ∅)) : Knows F p :=
  informed_of_needless hp fun _ _ _ => trivial

/-- What each call keeps of the stores and of what is known, given what it needs, a whole program
keeps. -/
theorem knows_sound {run : ∀ {β : Type}, Call β → World → β → World → Prop}
    {R : World → Set Fact → Prop} (hstep : ∀ {β : Type} {c : Call β} {s F b t},
      R s F → Needs F c → run c s b t → R t (learns F c b))
    {s t : World} {a : α} (hp : Knows F p) (hs : R s F) (h : Prog.Ends run p s a t) :
    ∃ F', R t F' := by
  obtain ⟨F', -, ht⟩ := wp_simulates (R := R) hp hs h fun hF hc he => ⟨_, rfl, hstep hF hc he⟩
  exact ⟨F', ht⟩

/-! ### Submissions and the dispatcher's pass -/

lemma knows_handleSubmitJob (req : submitJobRequest) : Knows F (handleSubmitJob req) := by
  unfold handleSubmitJob
  split_ifs
  · trivial
  refine informed_step trivial fun task => ?_
  cases task with
  | none => trivial
  | some taskDef =>
    refine informed_step trivial fun ts => informed_step trivial fun id =>
      informed_step ?_ fun saved => ?_
    · obtain ⟨hid, -, hparent, -⟩ := jobOf_fields req taskDef id ts
      exact ⟨.inl (congrArg Fact.own hid), .inl hparent⟩
    cases saved with
    | some err => trivial
    | none => exact informed_step (.inr ⟨rfl, rfl⟩) fun _ => trivial

lemma informed_tryProposeJob {keys : List String}
    {Q : Except DispatchError Unit → Set Fact → Prop} (hjob : .job (fixed job) ∈ F)
    (hQ : ∀ a F', F ⊆ F' → Q a F') : Informed (tryProposeJob cfg job keys) Q F := by
  refine informed_step trivial fun task => ?_
  cases task with
  | none => exact hQ _ _ subset_rfl
  | some taskDef =>
    split_ifs
    · exact hQ _ _ subset_rfl
    refine informed_step trivial fun workers => ?_
    split_ifs with hnone
    · exact hQ _ _ Set.subset_union_left
    refine informed_step trivial fun selected =>
      informed_quiet_bind (quiet_artifactFor cfg job taskDef selected) fun art F' hF => ?_
    have hsub : F ⊆ F' := Set.subset_union_left.trans hF
    cases art with
    | error err => exact hQ _ _ hsub
    | ok info =>
      refine informed_step trivial fun sent => ?_
      split_ifs
      · exact hQ _ _ hsub
      refine informed_step trivial fun updated => ?_
      split_ifs
      · exact hQ _ _ hsub
      have hneeds : Needs F' (.subtractCapacity selected.conn job.ID job.Cost) :=
        ⟨⟨fixed job, hsub hjob, rfl, rfl⟩, hF (.inr ⟨hnone, rfl⟩)⟩
      refine informed_step hneeds fun assigned => ?_
      split_ifs
      · exact hQ _ _ hsub
      · exact informed_quiet_bind (quiet_enqueue _ _ _) fun _ F'' h => hQ _ _ (hsub.trans h)

lemma knows_ProcessQueue : Knows F (ProcessQueue cfg) := by
  have hneedless {α : Type} {p : M α} {l l' : List Job} {F : Set Fact} (hp : p.Uses (Needs ∅))
      (hl : l' ⊆ l) (h : ∀ j ∈ l, .job (fixed j) ∈ F) :
      Informed p (fun _ F => ∀ j ∈ l', .job (fixed j) ∈ F) F :=
    informed_of_needless hp fun _ _ hF j hj => hF (h j (hl hj))
  refine wp_mono (wp_pass cfg (I := fun l F => ∀ j ∈ l, .job (fixed j) ∈ F)
    (fun hc => hneedless (uses_lift (needless_call _ (quiet_of_idles hc))) (List.Subset.refl _))
    (hneedless (uses_lift (by trivial)) (List.Subset.refl _)) (fun {l F} h => ⟨trivial, ?_⟩)
    (hneedless (uses_lift (by trivial)) (List.subset_cons_self _ _))
    (hneedless (uses_lift (by trivial)) (List.subset_cons_self _ _))
    (fun {job l F} h => ⟨h job List.mem_cons_self, ?_⟩)
    (fun {job l F keys} h => informed_tryProposeJob (h job List.mem_cons_self) fun r F' hF j hj => ?_)
    (fun hp h j hj => h j (hp.mem_iff.mpr hj)) (by simp)) fun _ _ _ => trivial
  · rintro o _ rfl j hj
    rcases List.mem_append.mp hj with hj | hj
    · exact .inr ⟨j, Option.mem_toList.mp hj, rfl⟩
    · exact .inl (h j hj)
  · rintro _ _ rfl j hj
    exact h j (List.mem_cons_of_mem _ hj)
  · refine hF (h j ?_)
    split_ifs at hj
    · exact List.mem_cons_of_mem _ hj
    · exact hj

/-! ### Messages and timers -/

lemma knows_handleAcceptMessage (w : ConnID) (workerID jobID : String) :
    Knows F (handleAcceptMessage cfg w workerID jobID) := by
  refine informed_step trivial fun updated => ?_
  split_ifs
  · trivial
  refine informed_step trivial fun job => ?_
  cases job with
  | none => trivial
  | some job =>
    refine informed_quiet_bind (quiet_resolveDispatchPayload cfg job) fun payload F' _ => ?_
    cases payload with
    | none => trivial
    | some payload =>
      -- the run is stored under the identifier just made
      exact informed_step trivial fun id => informed_step (.inl rfl) fun _ =>
        informed_step trivial fun _ => informed_step trivial fun _ => trivial

lemma knows_handleStagedMessage (jobID : String) : Knows F (handleStagedMessage jobID) :=
  informed_step trivial fun _ => trivial

lemma knows_handleStartingMessage (workerID jobID runID : String) :
    Knows F (handleStartingMessage workerID jobID runID) :=
  knows_needless (uses_handleStartingMessage needless_call (fun _ => trivial) (fun _ => trivial) _ _ _)

lemma knows_cancelJobByID (jobID : String) : Knows F (cancelJobByID jobID) :=
  knows_needless (uses_cancelJobByID needless_call (fun _ => trivial) (fun _ => trivial) _)

lemma knows_handleRejectMessage (w : ConnID) (jobID : String) :
    Knows F (handleRejectMessage w jobID) := by
  refine informed_step trivial fun job => ?_
  cases job with
  | none => exact knows_quiet (quiet_SendError _ _ _)
  | some job =>
    refine informed_step trivial fun updated => ?_
    split_ifs
    · trivial
    have hjob : .job (fixed job) ∈ learns F (.getJob jobID) (some job) := .inr ⟨job, rfl, rfl⟩
    exact informed_step ⟨fixed job, hjob, rfl, rfl⟩ fun _ => informed_step trivial fun _ =>
      wp_lift hjob fun _ _ _ => trivial

lemma knows_retryTimer (jobID : String) : Knows F (retryTimer jobID) := by
  refine informed_step trivial fun job => ?_
  cases job with
  | none => trivial
  | some job =>
    dsimp only
    split_ifs
    · trivial
    · exact informed_step trivial fun _ => wp_lift (.inr ⟨job, rfl, rfl⟩) fun _ _ _ => trivial

lemma knows_OnJobsRequeued (ids : List String) : Knows F (OnJobsRequeued ids) := by
  induction ids generalizing F with
  | nil => trivial
  | cons id rest ih =>
    refine informed_step trivial fun runs =>
      informed_quiet_bind (quiet_closeActiveRuns _ _) fun _ F _ => ?_
    refine informed_step trivial fun job => ?_
    cases job with
    | none => exact ih
    | some job =>
      exact informed_step trivial fun _ => informed_step (.inr ⟨job, rfl, rfl⟩) fun _ => ih

lemma knows_checkSiblings (parentJobID : String) : Knows F (checkSiblings parentJobID) := by
  unfold checkSiblings
  split_ifs
  · trivial
  refine informed_step trivial fun siblings => ?_
  split_ifs
  · refine informed_step trivial fun parent => ?_
    cases parent with
    | none => trivial
    | some parent =>
      refine informed_step trivial fun scheduled => ?_
      split_ifs
      · exact wp_lift (.inr ⟨parent, rfl, rfl⟩) fun _ _ _ => trivial
      · trivial
  · trivial

/-! ### Results -/

variable {msg : ResultMessage} {w : ConnID}

lemma knows_handleJobCompleted (hjob : .job (fixed job) ∈ F) :
    Knows F (handleJobCompleted w job msg) := by
  unfold handleJobCompleted
  split_ifs
  · trivial
  refine informed_step trivial fun updated => ?_
  split_ifs
  · trivial
  refine informed_quiet_bind (quiet_resolveRunID _ _) fun runID F₁ h₁ =>
    informed_quiet_bind (quiet_closeRun _ _ _ _ _ _ _) fun _ F₂ h₂ =>
      informed_step ⟨fixed job, h₂ (h₁ hjob), rfl, rfl⟩ fun restored => ?_
  split_ifs
  · trivial
  exact informed_quiet_bind (quiet_enqueue _ _ _) fun _ _ _ => knows_checkSiblings _

lemma knows_handleJobError (hjob : .job (fixed job) ∈ F) :
    Knows F (handleJobError cfg w job msg) := by
  have hfail {F : Set Fact} (job' : Job) : Knows F (handleFailJob job' msg) :=
    knows_needless (uses_handleFailJob needless_call (fun _ => trivial) (fun _ _ => trivial) _ _)
  unfold handleJobError
  split
  · split_ifs
    · exact informed_quiet_bind (quiet_resolveRunID _ _) fun _ _ _ =>
        knows_quiet (quiet_closeRun _ _ _ _ _ _ _)
    · trivial
  refine informed_step ⟨fixed job, hjob, rfl, rfl⟩ fun _ =>
    informed_quiet_bind (quiet_resolveRunID _ _) fun runID _ _ =>
      informed_quiet_bind (quiet_closeRun _ _ _ _ _ _ _) fun _ _ _ =>
        informed_step trivial fun _ => ?_
  split_ifs
  · exact hfail _
  · exact hfail _
  refine informed_step trivial fun taskDef => ?_
  dsimp only
  split_ifs
  · exact wp_lift trivial fun _ _ _ => trivial
  · exact hfail _

/-- The children that are made are known once they are saved. -/
lemma informed_createChildren {start : Time} {reqs : List ChildJobRequest}
    {Q : Except (Option String) (List Job) → Set Fact → Prop} (hjob : .job (fixed job) ∈ F)
    (herr : ∀ e F', Recalls F F' → Q (.error e) F')
    (hok : ∀ l F', Recalls F F' → (∀ j ∈ l, .job (fixed j) ∈ F') → Q (.ok l) F') :
    Informed (createChildren cfg job start 0 reqs []) Q F := by
  refine wp_createChildren cfg (F := Recalls F)
    (I := fun l F' => Recalls F F' ∧ ∀ j ∈ l, .job (fixed j) ∈ F')
    (fun {β c l x} hc hI => ⟨?_, fun b y hy => ?_⟩)
    (fun {l x} hI => ⟨trivial, fun id y hy child hid hparent _ => ⟨?_, fun r z hz => ?_⟩⟩)
    (fun hI => hI.1) (fun hF => ⟨trivial, fun _ y hy _ => ?_⟩)
    (fun l y hI _ => hok l y hI.1 hI.2) ⟨fun _ h => h, fun _ h => (nomatch h)⟩
  · cases c <;> first | exact hc.elim | trivial
  · subst hy
    cases c <;> first | exact hc.elim | exact hI
  · subst hy
    exact ⟨hid ▸ .inl rfl, .inr ⟨_, .inr (hI.1 _ hjob), hparent.symm⟩⟩
  · subst hy hz hid
    have hkept : Recalls x (learns (learns x .ulidMake child.ID) (.saveJob child) r) :=
      recalls_saveNew subset_rfl
    split_ifs with hr
    · refine ⟨hI.1.trans hkept, fun j hj => ?_⟩
      rcases List.mem_append.mp hj with hj | hj
      · exact hkept _ (hI.2 j hj)
      · exact .inr ⟨hr, congrArg (Fact.job <| fixed ·) (List.mem_singleton.mp hj)⟩
    · exact hI.1.trans hkept
  · subst hy
    exact herr _ _ hF

lemma informed_handleSubjobsEmitted {reqs : List ChildJobRequest}
    {Q : Option String → Set Fact → Prop} (hjob : .job (fixed job) ∈ F)
    (hQ : ∀ a F', Recalls F F' → Q a F') :
    Informed (handleSubjobsEmitted cfg job reqs) Q F := by
  unfold handleSubjobsEmitted
  split_ifs
  · exact hQ _ _ fun _ h => h
  refine informed_step trivial fun start => informed_bind
    (informed_createChildren hjob (fun e F' h => hQ _ _ h) fun l F' h hl => ?_)
  refine informed_step trivial fun updated => ?_
  split_ifs
  · exact hQ _ _ h
  · exact informed_bind (informed_EnqueueJobs hl (hQ _ _ h))

lemma knows_handleResultMessage (w : ConnID) (msg : ResultMessage) :
    Knows F (handleResultMessage cfg w msg) := by
  refine informed_step trivial fun job => ?_
  cases job with
  | none => exact knows_quiet (quiet_SendError _ _ _)
  | some job =>
    have hjob : .job (fixed job) ∈ learns F (.getJob msg.JobID) (some job) :=
      .inr ⟨job, rfl, rfl⟩
    dsimp only
    split
    · exact knows_handleJobError hjob
    · refine informed_quiet_bind (quiet_resolveRunID _ _) fun runID F₁ h₁ =>
        informed_bind (informed_handleSubjobsEmitted (h₁ hjob) fun err F₂ h₂ =>
          informed_step ⟨fixed job, h₂ _ (h₁ hjob), rfl, rfl⟩ fun _ => ?_)
      cases err with
      | some err => exact knows_quiet (quiet_SendError _ _ _)
      | none => exact knows_quiet (quiet_closeRun _ _ _ _ _ _ _)
    · exact knows_handleJobCompleted hjob

end Workforce.Knowledge
