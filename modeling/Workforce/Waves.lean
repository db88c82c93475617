import Workforce.OneWave

/-!
Waves of children, one after another.

A handler that has seen all children of a parent completed acts on what it saw: the guard of
its update only asks whether the parent waits for children, not for which. While such a
handler is on its way, the parent must not be left waiting for a child that has not completed.
-/

namespace Workforce.Waves

open Tables Contract Progs Shared Calls Handlers Runs Footprints Consolidation OneWave

variable {cfg : Config} {s t : World} {pid : String}

/-- A guarded update of a parent that would go through finds all its children completed. -/
def SchedulesCompleted : {β : Type} → Call β → World → Prop
  | _, .updateJob id .consolidate, s => Awaits id s → AllCompleted id s
  | _, _, _ => True

/-- The handler has seen all children of the parent completed and not made its update yet. -/
def Deciding (pid : String) (q : M Unit) : Prop :=
  q = scheduleConsolidation pid ∨ ∃ parent, parent.ID = pid ∧ q = consolidateParent parent

/-- The call does not leave the parent waiting for a child that has not completed: it saves no
child of a waiting parent and takes no completed child of a waiting parent back, and it lets
the parent wait only if its children are all completed. -/
def Undisturbed (pid : String) : {β : Type} → Call β → World → Prop
  | _, .saveJob job, s => job.ParentJobID = pid → ¬Awaits pid s
  | _, .updateJob id m, s =>
    (∀ j st, s.jobs.get id = some j → j.ParentJobID = pid → j.Status = .completed →
      m.writes = some st → st ≠ .completed → ¬Awaits pid s) ∧
    (id = pid → m.writes = some .awaitingChildren →
      ∀ c, IsChild pid s c → c.Status = .completed ∧ c.ID ≠ pid)
  | _, .updateJobFiring id _, s =>
    ∀ j, s.jobs.get id = some j → j.ParentJobID = pid → j.Status = .completed → ¬Awaits pid s
  | _, _, _ => True

/-- The next call of thread `i` leaves alone every parent some handler is deciding about. -/
def NoLateDecision (p : Prog.Pool Call World) (i : ℕ) : Prop :=
  ∀ pid, (∃ q ∈ p.threads, Deciding pid q) → Prog.NextMeets (Undisturbed pid) p i

/-! ### What undisturbed calls keep -/

/-- If the parent waits, its children are all completed. -/
def Settled (pid : String) (s : World) : Prop := Awaits pid s → AllCompleted pid s

lemma Settled.of_eq (h : Settled pid s) (hjobs : ∀ id, t.jobs.get id = s.jobs.get id) :
    Settled pid t := by
  simpa only [Settled, Awaits, AllCompleted, IsChild, hjobs] using h

lemma completed_after {m : JobMutation} {now : Time} {j : Job} (hj : j.Status = .completed)
    (hm : ∀ st, m.writes = some st → st = .completed) :
    (m.apply now j).Status = .completed := by
  rcases hw : m.writes with _ | st
  · exact (JobMutation.apply_terminal hw (.inl (by rw [hj]; decide))).trans hj
  · rw [JobMutation.apply_of_writes hw, hm st hw]

lemma Settled.modify {id : String} {m : JobMutation} {now : Time} (h : Settled pid s)
    (hm : Undisturbed pid (.updateJob id m) s)
    (ht : t.jobs = s.jobs.modify id (m.apply now)) : Settled pid t := by
  have hget : ∀ k, t.jobs.get k =
      if k = id then (s.jobs.get id).map (m.apply now) else s.jobs.get k := by
    intro k
    rw [ht, get_modify _ _ _ (m.apply_ID now)]
  rintro ⟨j', hj', hst'⟩ c ⟨hc, hcp⟩
  have hbefore := awaits_before ht ⟨j', hj', hst'⟩
  rw [hget] at hc
  split_ifs at hc with hid
  · obtain ⟨c₀, hc₀, rfl⟩ := Option.map_eq_some_iff.mp hc
    rw [JobMutation.apply_ParentJobID] at hcp
    have hkey : c₀.ID = id := key_of_get hc₀
    have hchild : IsChild pid s c₀ := ⟨by rw [hkey]; exact hc₀, hcp⟩
    rcases hbefore with hw | ⟨rfl, hw⟩
    · have hdone := h hw c₀ hchild
      refine completed_after hdone fun st hst => ?_
      by_contra hne
      exact hm.1 c₀ st hc₀ hcp hdone hst hne hw
    · exact absurd hkey (hm.2 rfl hw c₀ hchild).2
  · rcases hbefore with hw | ⟨rfl, hw⟩
    · exact h hw c ⟨hc, hcp⟩
    · exact (hm.2 rfl hw c ⟨hc, hcp⟩).1

lemma Settled.put {job : Job} (h : Settled pid s) (hp : job.Status = .pending)
    (hm : job.ParentJobID = pid → ¬Awaits pid s) (ht : t.jobs = s.jobs.put job) :
    Settled pid t := by
  rintro ⟨j', hj', hst'⟩ c ⟨hc, hcp⟩
  rw [ht, get_put] at hj' hc
  have hw : Awaits pid s := by
    split_ifs at hj' with hid
    · cases hj'
      rw [hp] at hst'
      cases hst'
    · exact ⟨j', hj', hst'⟩
  split_ifs at hc with hid
  · cases hc
    exact absurd hw (hm hcp)
  · exact h hw c ⟨hc, hcp⟩

lemma Settled.exec {β : Type} {c : Call β} {b : β} (h : Settled pid s) (hc : Unscheduling c)
    (hm : Undisturbed pid c s) (he : exec cfg.toStores c s b t) : Settled pid t := by
  cases c with
  | saveJob job =>
    rcases he with ⟨-, rfl⟩ | ⟨-, rfl⟩
    · exact h.put hc hm rfl
    · exact h
  | updateJob id m =>
    obtain ⟨now, -, rfl⟩ := he
    exact h.modify hm rfl
  | updateJobFiring id reason =>
    rcases exec_updateJobFiring he with ⟨-, -, rfl⟩ | ⟨now, issued, hooks, -, -, -, rfl⟩
    · exact h
    · have hfail : Undisturbed pid (.updateJob id (.failedFor reason)) s :=
        ⟨fun j _ hj hp hst _ _ => hm j hj hp hst, fun _ hw => by cases hw⟩
      exact h.modify hfail rfl
  | _ =>
    have hjobs := jobs_unchanged (by exact id) he
    exact h.of_eq fun id => by rw [hjobs.1]

/-! ### The invariant of the handlers -/

/-- The phases between a handler's decision about the parent and its guarded update. -/
def Phase.About (pid : String) : Phase → Prop
  | .decided p => p = pid
  | .fetched parent => parent.ID = pid
  | _ => False

variable {g g' : Phase}

lemma deciding_of_about {q : M Unit} (h : Phase.About pid g) (hat : At cfg g q) :
    Deciding pid q := by
  cases g with
  | decided p =>
    obtain rfl : p = pid := h
    exact .inl hat
  | fetched parent => exact .inr ⟨parent, h, hat⟩
  | _ => exact h.elim

/-- The parent the next call of the program is a guarded update of, if it is one. -/
def guards : M Unit → Option String
  | .call (.updateJob id .consolidate) _ => some id
  | _ => none

/-- Only a handler that has read its parent is about to make a guarded update. -/
lemma about_of_guards {id : String} {q : M Unit} (hat : At cfg g q) (hq : guards q = some id) :
    Phase.About id g := by
  have hun : ∀ {p : M Unit}, p.Uses Unscheduling → guards p ≠ some id := by
    intro p hp he
    unfold guards at he
    split at he
    · exact hp.1.elim
    · cases he
  cases g with
  | start i =>
    obtain ⟨w, msg, rfl, -⟩ := hat
    cases hq
  | read job =>
    obtain ⟨hterm, w, msg, rfl, -⟩ := hat
    rw [handleJobCompleted_eq hterm] at hq
    cases hq
  | updated p =>
    obtain ⟨hpid, q, hu, rfl⟩ := hat
    cases q with
    | pure restored =>
      rw [Prog.pure_bind, checkSiblings, if_neg hpid] at hq
      cases restored <;> cases hq
    | call c' k' =>
      cases c' <;> first | exact hu.1.elim | cases hq
  | decided p =>
    rw [show q = scheduleConsolidation p from hat] at hq
    cases hq
  | fetched parent =>
    rw [show q = consolidateParent parent from hat] at hq
    cases hq
    rfl
  | won parent =>
    rw [show q = EnqueueJob _ from hat] at hq
    cases hq
  | emitting => exact absurd hq (hun hat)
  | idle => exact absurd hq (hun (uses_mono unscheduling_of_calm hat))

/-- Every parent some handler is deciding about is settled. -/
def DecisionsHold (cfg : Config) (p : Prog.Pool Call World) : Prop :=
  ∃ gs, List.Forall₂ (At cfg) gs p.threads ∧
    ∀ pid, (∃ g ∈ gs, Phase.About pid g) → Settled pid p.st

variable {φ : ∀ {β : Type}, Call β → World → Prop}

/-- A move keeps settled what the undisturbed calls leave alone. -/
lemma settled_move (hφ : ∀ {β : Type} (c : Call β), φ c s → Undisturbed pid c s)
    (hm : Moves cfg.toStores φ g s g' t) (h : Settled pid s) : Settled pid t := by
  cases hm with
  | @complete _ _ job now result _ ht =>
    have hu : Undisturbed pid (.updateJob job.ID (.completed result)) s := by
      refine ⟨fun j st _ _ _ hst hne => ?_, fun _ hw => by cases hw⟩
      cases hst
      exact absurd rfl hne
    exact h.modify hu (by rw [ht])
  | calm hjobs => exact h.of_eq fun id => by rw [hjobs]
  | @win _ _ parent _ _ _ _ ht =>
    have hu : Undisturbed pid (.updateJob parent.ID .consolidate) s :=
      ⟨fun j st _ _ _ hst => (nomatch hst), fun _ hw => (nomatch hw)⟩
    exact h.modify hu (by rw [ht])
  | lose _ hjobs => exact h.of_eq hjobs
  | push ht => exact h.of_eq fun id => by rw [ht]
  | emit hc hu he => exact h.exec hc (hφ _ hu) he
  | _ => exact h

/-- A handler starts to decide about a parent only when the children are all completed. -/
lemma settled_of_new (hm : Moves cfg.toStores φ g s g' t) (hg' : Phase.About pid g')
    (hg : ¬Phase.About pid g) : Settled pid t := by
  cases hm with
  | decide hall =>
    obtain rfl := id hg'
    exact fun _ => hall
  | fetch => exact absurd hg' hg
  | complete =>
    split_ifs at hg' <;> exact hg'.elim
  | calm _ _ hor => exact absurd hg' hg
  | _ => exact hg'.elim

variable {p : Prog.Pool Call World}

lemma decisionsHold_step {p' : Prog.Pool Call World} {i : ℕ} (h : DecisionsHold cfg p)
    (hG : NoLateDecision p i) (hs : Prog.Step (exec cfg.toStores) p i p') :
    DecisionsHold cfg p' := by
  obtain ⟨gs, hgs, hset⟩ := h
  -- the condition on the next call, for all parents that are being decided about
  have hφ : Prog.NextMeets
      (fun c s => ∀ pid, (∃ g ∈ gs, Phase.About pid g) → Undisturbed pid c s) p i := by
    intro β c k hi pid hg
    obtain ⟨g, hg, habout⟩ := hg
    obtain ⟨q, hq, hat⟩ := exists_thread hgs hg
    exact hG pid ⟨q, hq, deciding_of_about habout hat⟩ β c k hi
  obtain ⟨g, g', hi, hm, hgs'⟩ := moves_step hgs hs hφ
  refine ⟨_, hgs', fun pid hex => ?_⟩
  by_cases hold : ∃ x ∈ gs, Phase.About pid x
  · exact settled_move (fun c hc => hc pid hold) hm (hset pid hold)
  · obtain ⟨x, hx, habout⟩ := hex
    rcases List.mem_or_eq_of_mem_set hx with hx | rfl
    · exact absurd ⟨x, hx, habout⟩ hold
    · exact settled_of_new hm habout fun hg => hold ⟨g, List.mem_of_getElem? hi, hg⟩

lemma schedulesCompleted_of {i : ℕ} (h : DecisionsHold cfg p) :
    Prog.NextMeets SchedulesCompleted p i := by
  obtain ⟨gs, hgs, hset⟩ := h
  intro β c k hi
  cases c with
  | updateJob id m =>
    cases m with
    | consolidate =>
      obtain ⟨g, hg, hat⟩ := exists_phase hgs hi
      exact hset id ⟨g, hg, about_of_guards hat rfl⟩
    | _ => trivial
  | _ => trivial

/-! ### Emissions -/

lemma unscheduling_handleSubjobsEmitted (parent : Job) (reqs : List ChildJobRequest) :
    (handleSubjobsEmitted cfg parent reqs).Uses Unscheduling :=
  uses_handleSubjobsEmitted (fun _ => trivial) cfg trivial (fun _ => trivial) (fun _ _ => trivial)
    trivial (fun _ hnew => hnew.Status) (fun _ _ => trivial) (fun _ => trivial) parent reqs

lemma unscheduling_subjobs {w : ConnID} {msg : ResultMessage} (h : msg.ResultType = .subjobs) :
    (handleResultMessage cfg w msg).Uses Unscheduling := by
  refine uses_step (by trivial) fun job => ?_
  cases job with
  | none => exact uses_mono unscheduling_of_quiet (quiet_SendError _ _ _)
  | some job =>
    simp only [h]
    refine uses_bind _ (uses_mono unscheduling_of_quiet (quiet_resolveRunID _ _))
      fun runID => uses_bind _ (unscheduling_handleSubjobsEmitted _ _) fun err =>
        uses_step (by trivial) fun _ => ?_
    cases err with
    | some err => exact uses_mono unscheduling_of_quiet (quiet_SendError _ _ _)
    | none => exact uses_mono unscheduling_of_quiet (quiet_closeRun _ _ _ _ _ _ _)

/-! ### Runs -/

lemma decisionsHold_start {results : List (ConnID × ResultMessage)}
    (hr : ∀ r ∈ results, r.2.ResultType = .success ∨ r.2.ResultType = .subjobs) :
    DecisionsHold cfg (handling cfg s results) := by
  refine ⟨results.map fun r =>
    if r.2.ResultType = .success then .start r.2.JobID else .emitting, ?_, ?_⟩
  · rw [handling, List.forall₂_map_left_iff, List.forall₂_map_right_iff, List.forall₂_same]
    intro r hmem
    split_ifs with hsucc
    · exact ⟨r.1, r.2, rfl, hsucc, rfl⟩
    · exact unscheduling_subjobs ((hr r hmem).resolve_left hsucc)
  · rintro pid ⟨g, hg, habout⟩
    obtain ⟨r, -, rfl⟩ := List.mem_map.mp hg
    split_ifs at habout <;> exact habout.elim

/-- **Waves.** Let handlers of success and of subjobs results interleave in any way. If no step
disturbs a parent that some handler is deciding about, then every guarded update that moves a
parent from waiting to its consolidate phase finds all its children completed. -/
theorem schedules_completed (cfg : Config) {s : World} {results : List (ConnID × ResultMessage)}
    (hr : ∀ r ∈ results, r.2.ResultType = .success ∨ r.2.ResultType = .subjobs)
    {tr : List (Prog.Pool Call World × ℕ)} {t : Prog.Pool Call World}
    (hrun : Run (Prog.Step (exec cfg.toStores)) (handling cfg s results) tr t)
    (hG : Meets NoLateDecision tr) :
    Meets (fun p i => Prog.NextMeets SchedulesCompleted p i) tr := by
  have hinv := hrun.invariant (fun _ _ _ h hg hs => decisionsHold_step h hg hs) hG
    (decisionsHold_start hr)
  rintro ⟨p, i⟩ hp
  exact schedulesCompleted_of (hinv p (Run.mem_states hp))

/-! ### Two waves -/

/-- The job a program that decides about its parent is about to read or to update. -/
def reads : M Unit → Option String
  | .call (.getJob id) _ => some id
  | .call (.updateJob id .consolidate) _ => some id
  | _ => none

/-- The parents whose children the program is about to change. -/
def disturbs (s : World) : M Unit → List String
  | .call (.saveJob job) _ => [job.ParentJobID]
  | .call (.updateJob id m) _ =>
    if m.writes = none ∨ m.writes = some .completed then []
    else id :: (s.jobs.get id).toList.map Job.ParentJobID
  | .call (.updateJobFiring id _) _ => (s.jobs.get id).toList.map Job.ParentJobID
  | _ => []

lemma noLateDecision_of_apart {i : ℕ} (h : ∀ q ∈ p.threads, ∀ pid ∈ reads q,
    ∀ r ∈ p.threads[i]?, pid ∉ disturbs p.st r) : NoLateDecision p i := by
  rintro pid ⟨q, hq, hdec⟩ β c k hi
  have hreads : reads q = some pid := by
    rcases hdec with rfl | ⟨parent, rfl, rfl⟩ <;> rfl
  have hapart := h q hq pid hreads _ hi
  cases c with
  | saveJob job => exact fun heq => absurd (List.mem_singleton.mpr heq.symm) hapart
  | updateJob id m =>
    by_cases hm : m.writes = none ∨ m.writes = some .completed
    · refine ⟨fun j st _ _ _ hst hne => ?_, fun _ hst => ?_⟩
      all_goals rcases hm with hm | hm <;> rw [hm] at hst <;> cases hst
      exact absurd rfl hne
    · rw [disturbs, if_neg hm, List.mem_cons, not_or] at hapart
      refine ⟨fun j st hj hp => ?_, fun heq => absurd heq.symm hapart.1⟩
      exact absurd (List.mem_map.mpr ⟨j, by simp [hj], hp⟩) hapart.2
  | updateJobFiring id reason =>
    intro j hj hp
    exact absurd (List.mem_map.mpr ⟨j, by simp [hj], hp⟩) hapart
  | _ => trivial

def emits : ConnID × ResultMessage :=
  (0, { JobID := "p", RunID := "", ResultType := .subjobs, Jobs := [{ Task := "t" }] })

/-- The handlers take turns until both children have completed and the parent is scheduled; it emits
another child, and is scheduled a second time when that one has completed. -/
theorem schedules_completed_twice :
    ∃ tr t, Run (Prog.Step (exec Config.defaults.toStores))
        (handling .defaults twoChildren [success "a", success "b", emits, success "c"]) tr t ∧
      Meets NoLateDecision tr ∧ t.st.queue.map Job.ID = ["p", "c", "p"] ∧
      Meets (fun p i => Prog.NextMeets SchedulesCompleted p i) tr := by
  obtain ⟨tr, t, hrun, hapart, hqueue⟩ : ∃ tr t, Run (Prog.Step (exec Config.defaults.toStores))
      (handling .defaults twoChildren [success "a", success "b", emits, success "c"]) tr t ∧
      (∀ p ∈ tr, ∀ q ∈ p.1.threads, ∀ pid ∈ reads q, ∀ r ∈ p.1.threads[p.2]?,
        pid ∉ disturbs p.1.st r) ∧ t.st.queue.map Job.ID = ["p", "c", "p"] :=
    ⟨_, _, run_scheduled ([0, 1, 0, 1, 0, 1, 0, 1, 0, 1, 0, 1, 0, 1, 0] ++ List.replicate 10 2 ++
      List.replicate 8 3) { times := [1, 1, 1, 1], ids := ["c"] } rfl, by decide, by decide⟩
  have hG : Meets NoLateDecision tr := fun p hp => noLateDecision_of_apart (hapart p hp)
  exact ⟨tr, t, hrun, hG, hqueue, schedules_completed .defaults (by decide) hrun hG⟩

/-- **A decision outlives its wave.** Two handlers see both children completed; the first one
schedules the parent, which runs and emits another child; then the second one finds the parent
waiting again, and schedules it although the new child is still pending. -/
theorem decision_outlives_wave :
    ∃ tr t, Run (Prog.Step (exec Config.defaults.toStores))
        (handling .defaults twoChildren [success "a", success "b", emits]) tr t ∧
      ¬Meets (fun p i => Prog.NextMeets SchedulesCompleted p i) tr := by
  refine ⟨_, _, run_scheduled (List.replicate 4 0 ++ List.replicate 5 1 ++ List.replicate 4 0 ++
    List.replicate 10 2 ++ [1, 1]) { times := [1, 2, 3, 4, 5], ids := ["c"] } rfl, fun hmeets => ?_⟩
  have hlast := hmeets _ (List.mem_of_getElem? (i := 24) rfl) _ _ _ rfl
  exact absurd (hlast ⟨_, rfl, rfl⟩) (by decide)

end Workforce.Waves
