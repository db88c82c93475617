import Workforce.Operations

/-!
Calls that are answered by computing.

What a call leaves open (the time, the next identifier, which worker is selected) is chosen
here once and for all, so that a run can be given by where it starts and what is handled, and its
states follow by evaluation.
-/

namespace Workforce.Calls

open Contract Progs Shared Handlers Dispatcher Operations Runs

structure Luck where
  times : List Time := []
  ids : List String := []

def anyBuild : ArtifactPlatform := { OS := "linux", Arch := "amd64", Version := "1" }

/-- One answer to a call: writes succeed, lists come in the order of the table, the first worker
is selected, and a clock that has no time left to give shows zero. -/
def answer {β : Type} (c : Call β) : Luck × World → Option (β × Luck × World)
  | (l, s) =>
    let now := l.times.headD 0
    let later := { l with times := l.times.tail }
    match c with
    | .now => some (now, later, s)
    | .ulidMake =>
      match l.ids with
      | [] => none
      | id :: ids =>
        if id ≠ "" ∧ id ∉ s.issued then
          some (id, { l with ids := ids }, { s with issued := insert id s.issued })
        else none
    | .saveJob job => some (none, l, { s with jobs := s.jobs.put job })
    | .getJob id => some (s.jobs.get id, l, s)
    | .updateJob id m =>
      some ((s.jobs.get id).map m.scheduled, later,
        { s with jobs := s.jobs.modify id (m.apply now) })
    | .updateJobFiring id reason =>
      match s.jobs.get id with
      | none => some (none, l, s)
      | some j =>
        if ShouldDispatchEvent j eventJobFailed then none
        else some (some true, later,
          { s with jobs := s.jobs.modify id ((JobMutation.failedFor reason).apply now) })
    | .listChildJobs p =>
      let children := s.jobs.values.filter fun j => j.ParentJobID = p
      if children.Pairwise fun a b => a.CreatedAt ≤ b.CreatedAt then some (children, l, s) else none
    | .getTask name => some (s.tasks.get name, l, s)
    | .createRun run => some (true, l, { s with runs := s.runs.put run })
    | .updateRun id m =>
      some ((s.runs.get id).isSome, later, { s with runs := s.runs.modify id (m.apply now) })
    | .listJobRuns jobID => some (s.runs.values.filter fun r => r.JobID = jobID, l, s)
    | .enqueueWebhook e => some ((), l, { s with webhooks := s.webhooks ++ [e] })
    | .listPlatforms _ _ => some (.ok [anyBuild], l, s)
    | .resolve _ _ _ _ => some (.ok anyBuild, l, s)
    | .pushItem job => some ((), l, { s with queue := s.queue ++ [job] })
    | .popItem =>
      if s.queue = [] then some (none, l, s)
      else (s.queue.find? fun j => ∀ k ∈ s.queue, ¬isHigherPriority k j).map fun j =>
        (some j, l, { s with queue := s.queue.erase j })
    | .queueSize => some (s.queue.length, l, s)
    | .applyStarvationAging timeout => some ((), l, { s with queue := aged timeout 0 s.queue })
    | .cancelledAdd id => some ((), l, { s with cancelledJobIDs := insert id s.cancelledJobIDs })
    | .cancelledHas id => some (decide (id ∈ s.cancelledJobIDs), l, s)
    | .cancelledRemove id =>
      some ((), l, { s with cancelledJobIDs := s.cancelledJobIDs.erase id })
    | .setActiveRun jobID runID =>
      some ((), l, { s with activeRunIDs := s.activeRunIDs.insert jobID runID })
    | .getActiveRun jobID => some ((s.activeRunIDs.lookup jobID).getD "", l, s)
    | .deleteActiveRun jobID =>
      some ((), l, { s with activeRunIDs := s.activeRunIDs.erase jobID })
    | .onlinePlatformKeys =>
      some (s.platform.keys.filter fun key => ∃ w ∈ World.listed s key, w.state = .online, l, s)
    | .eligibleWorkers platforms cost jobID =>
      some (if cost < 0 then []
        else if platforms = [] then (World.registered s).filter (Eligible cost jobID)
        else platforms.flatMap fun key => (World.listed s key).filter (Eligible cost jobID), l, s)
    | .select workers => workers.head?.map fun w => (w, l, s)
    | .subtractCapacity w taskID cost =>
      match s.conns.get w with
      | some c =>
        match c.AssignTask taskID cost with
        | .ok c' => some (true, l, { s with conns := s.conns.put c' })
        | .error _ => some (false, l, s)
      | none => some (false, l, s)
    | .restoreCapacity w taskID cost =>
      some (true, l, { s with conns := s.conns.modify w fun c => c.CompleteTask taskID cost })
    | .putRejected w jobID =>
      some ((), l, { s with conns := s.conns.modify w fun c =>
        { c with rejectedJobsCache := insert jobID c.rejectedJobsCache } })
    | .findWorkerByInFlightJobID jobID =>
      some (((World.registered s).find? fun c => jobID ∈ c.inFlight).map WorkerConn.conn, l, s)
    | .send w f => some (true, l, { s with sent := s.sent ++ [(w, f)] })
    | .afterFunc jobID _ => some ((), l, { s with timers := s.timers ++ [jobID] })

lemma mem_online_keys (s : World) (key : String) :
    key ∈ s.platform.keys.filter (fun key => ∃ w ∈ World.listed s key, w.state = .online) ↔
      ∃ w ∈ World.listed s key, w.state = .online := by
  rw [List.mem_filter, decide_eq_true_iff, and_iff_right_iff_imp]
  rintro ⟨w, hw, -⟩
  -- a key without an entry lists nobody
  by_contra hkey
  rw [World.listed, AList.lookup_eq_none.mpr hkey] at hw
  exact absurd hw List.not_mem_nil

lemma exec_of_answer {cfg : Stores} {β : Type} {c : Call β} {x y : Luck × World} {b : β}
    (h : answer c x = some (b, y)) : exec cfg c x.2 b y.2 := by
  obtain ⟨l, s⟩ := x
  cases c with
  | ulidMake =>
    simp only [answer] at h
    split at h
    · cases h
    · split_ifs at h with hid
      cases h
      exact ⟨hid.1, hid.2, rfl⟩
  | updateJobFiring id reason =>
    revert h
    simp only [answer, exec]
    rcases s.jobs.get id with _ | j
    · rintro ⟨⟩
      exact ⟨rfl, rfl⟩
    · dsimp only
      intro h
      split_ifs at h with hfires
      cases h
      exact ⟨rfl, _, by rw [if_neg hfires]⟩
  | listChildJobs p =>
    simp only [answer] at h
    split_ifs at h with hsorted
    cases h
    exact ⟨.refl _, hsorted, rfl⟩
  | popItem =>
    simp only [answer] at h
    split_ifs at h with hempty
    · cases h
      exact ⟨hempty, rfl⟩
    · obtain ⟨j, hj, heq⟩ := Option.map_eq_some_iff.mp h
      cases heq
      have htop := List.find?_some hj
      exact ⟨List.mem_of_find?_eq_some hj, of_decide_eq_true htop, rfl⟩
  | onlinePlatformKeys =>
    cases h
    exact ⟨mem_online_keys s, rfl⟩
  | eligibleWorkers platforms cost jobID =>
    cases h
    refine ⟨?_, rfl⟩
    split_ifs <;> rfl
  | select =>
    obtain ⟨w, hw, heq⟩ := Option.map_eq_some_iff.mp h
    cases heq
    exact ⟨List.mem_of_head? hw, rfl⟩
  | subtractCapacity w taskID cost =>
    revert h
    simp only [answer, exec]
    rcases s.conns.get w with _ | c
    · rintro ⟨⟩
      exact .inr ⟨rfl, rfl⟩
    · dsimp only
      rcases c.AssignTask taskID cost with _ | c' <;>
      · rintro ⟨⟩
        exact .inr ⟨rfl, rfl⟩
  | restoreCapacity =>
    cases h
    exact .inr ⟨rfl, rfl⟩
  | findWorkerByInFlightJobID jobID =>
    simp only [answer] at h
    rcases hf : (World.registered s).find? fun c => jobID ∈ c.inFlight with _ | c
    · rw [hf] at h
      cases h
      exact ⟨fun c hc hmem => List.find?_eq_none.mp hf c hc (decide_eq_true hmem), rfl⟩
    · rw [hf] at h
      cases h
      have hmem := List.find?_some hf
      exact ⟨⟨c, List.mem_of_find?_eq_some hf, rfl, of_decide_eq_true hmem⟩, rfl⟩
  | saveJob | createRun | send =>
    cases h
    exact .inl ⟨rfl, rfl⟩
  | updateJob | updateRun =>
    cases h
    exact ⟨_, rfl, rfl⟩
  | applyStarvationAging =>
    cases h
    exact ⟨0, rfl⟩
  | listJobRuns =>
    cases h
    exact ⟨.refl _, rfl⟩
  | getJob | getTask | queueSize | cancelledHas | getActiveRun =>
    cases h
    exact ⟨rfl, rfl⟩
  | _ =>
    cases h
    rfl

variable {cfg : Stores} {s t : World}

lemma exec_answered {β : Type} {c : Call β} {b : β} {y : Luck × World}
    (h : answer c ({}, s) = some (b, y)) : exec cfg c s b y.2 := exec_of_answer h

/-- The program after `n` of its calls, and the state it is then in. -/
def played {α : Type} (p : M α) (n : ℕ) (l : Luck) (s : World) : Option (M α × World) :=
  (p.play answer n (l, s)).map (Prod.map id Prod.snd)

lemma ends_played {α : Type} {p : M α} {a : α} (l : Luck)
    (h : played p 100 l s = some (.pure a, t)) : Prog.Ends (exec cfg) p s a t := by
  obtain ⟨⟨q, y⟩, hy, heq⟩ := Option.map_eq_some_iff.mp h
  cases heq
  exact ends_of_play (π := Prod.snd) exec_of_answer hy

/-- Threads that make their calls in the order of the schedule. -/
lemma run_scheduled (is : List ℕ) (l : Luck) {ts : List (M Unit)}
    {tr : List (Prog.Pool Call World × ℕ)} {p : Prog.Pool Call World}
    (h : Prog.Pool.play answer Prod.snd is (l, s) ts = some (tr, p)) :
    Run (Prog.Step (exec cfg)) ⟨s, ts⟩ tr p := run_of_play exec_of_answer h

/-! ### Operations -/

section Operations

variable {g : ∀ {β : Type}, Call β → World → Bool}
  {run : ∀ {β : Type}, Call β → World → β → World → Prop}

/-- The answer to a call that may be made. -/
def guarded (g : ∀ {β : Type}, Call β → World → Bool) {β : Type} (c : Call β) (x : Luck × World) :
    Option (β × Luck × World) := if g c x.2 then answer c x else none

def finished (g : ∀ {β : Type}, Call β → World → Bool) {α : Type} (p : M α) (x : Luck × World) :
    Option (Luck × World) :=
  match p.play (guarded g) 100 x with
  | some (.pure _, y) => some y
  | _ => none

/-- The jobs in flight on a connection, in the order of the table of jobs. -/
def heldIDs (w : WorkerConn) (s : World) : List String :=
  (s.jobs.values.map Job.ID).filter (· ∈ w.inFlight)

def playOp (cfg : Config) (g : ∀ {β : Type}, Call β → World → Bool) (op : Op) (x : Luck × World) :
    Option (Luck × World) :=
  let s := x.2
  match op with
  | .submit req => finished g (handleSubmitJob req) x
  | .processQueue => finished g (ProcessQueue cfg) x
  | .register conn id os arch capacity =>
    let w := NewWorkerConn conn id os arch capacity
    if s.conns.get conn = none ∧ os ≠ "" ∧ arch ≠ "" ∧ 1 ≤ capacity then
      match connectedAs s id with
      | some old =>
        if InFlightIDs old (heldIDs old s) then
          some (x.1, addConn w (replaceOld old (heldIDs old s) s))
        else none
      | none => some (x.1, addConn w s)
    else none
  | .requeue ids =>
    if ids ∈ s.requeues then
      finished g (OnJobsRequeued ids) (x.1, { s with requeues := s.requeues.erase ids })
    else none
  | .unregister conn =>
    (s.conns.get conn).bind fun w =>
      if InFlightIDs w (heldIDs w s) then
        finished g (OnJobsRequeued (heldIDs w s)) (x.1, removeConnLocked w s)
      else none
  | .heartbeat conn state =>
    some (x.1, { s with conns := s.conns.modify conn fun w => { w with state := state } })
  | .capacity conn available =>
    some (x.1, { s with conns := s.conns.modify conn fun w => { w with capacity := available } })
  | .forget conn jobID =>
    some (x.1, { s with conns := s.conns.modify conn fun w =>
      { w with rejectedJobsCache := w.rejectedJobsCache.erase jobID } })
  | .accept conn workerID jobID => finished g (handleAcceptMessage cfg conn workerID jobID) x
  | .staged jobID => finished g (handleStagedMessage jobID) x
  | .starting workerID jobID runID => finished g (handleStartingMessage workerID jobID runID) x
  | .reject conn jobID => finished g (handleRejectMessage conn jobID) x
  | .result conn msg => finished g (handleResultMessage cfg conn msg) x
  | .retry jobID =>
    if jobID ∈ s.timers then
      finished g (retryTimer jobID) (x.1, { s with timers := s.timers.erase jobID })
    else none
  | .cancel jobID => finished g (cancelJobByID jobID) x
  | .saveTask task => some (x.1, { s with tasks := s.tasks.put task })
  | .deleteTask name => some (x.1, { s with tasks := s.tasks.erase name })

/-- The states operations go through, one after the other. -/
def playOps (cfg : Config) (g : ∀ {β : Type}, Call β → World → Bool) :
    List Op → Luck × World → Option (List (World × Op) × World)
  | [], x => some ([], x.2)
  | op :: ops, x => (playOp cfg g op x).bind fun y =>
    (playOps cfg g ops y).map (Prod.map (List.cons (x.2, op)) id)

variable {cfg : Config}
  (hrun : ∀ {β : Type} {c : Call β} {s b t}, g c s → exec cfg.toStores c s b t → run c s b t)

include hrun

lemma performs_finished {α : Type} {p : M α} {x y : Luck × World} (h : finished g p x = some y) :
    Performs run p x.2 y.2 := by
  unfold finished at h
  split at h
  · rename_i hp
    cases h
    refine ⟨_, ends_of_play (π := Prod.snd) (fun h => ?_) hp⟩
    unfold guarded at h
    split_ifs at h with hg
    exact hrun hg (exec_of_answer h)
  · cases h

lemma stepBy_of_play {op : Op} {x y : Luck × World} (h : playOp cfg g op x = some y) :
    stepBy cfg run x.2 op y.2 := by
  cases op with
  | register conn id os arch capacity =>
    simp only [playOp] at h
    split_ifs at h with hnew
    refine ⟨hnew.1, hnew.2.1, hnew.2.2.1, hnew.2.2.2, ?_⟩
    show Registers _ x.2 y.2
    unfold Registers
    split at h
    · rename_i hold
      split_ifs at h with hids
      cases h
      rw [show connectedAs x.2 (NewWorkerConn conn id os arch capacity).workerID = _ from hold]
      exact ⟨_, hids, rfl⟩
    · rename_i hold
      cases h
      rw [show connectedAs x.2 (NewWorkerConn conn id os arch capacity).workerID = _ from hold]
  | requeue ids =>
    simp only [playOp] at h
    split_ifs at h with hmem
    exact ⟨hmem, performs_finished hrun h⟩
  | unregister conn =>
    obtain ⟨w, hw, h⟩ := Option.bind_eq_some_iff.mp h
    split_ifs at h with hids
    exact ⟨w, _, hw, hids, performs_finished hrun h⟩
  | retry jobID =>
    simp only [playOp] at h
    split_ifs at h with hmem
    exact ⟨hmem, performs_finished hrun h⟩
  | heartbeat | capacity | forget | saveTask | deleteTask =>
    cases h
    rfl
  | _ => exact performs_finished hrun h

lemma run_guarded {ops : List Op} (l : Luck) {tr : List (World × Op)}
    (h : playOps cfg g ops (l, s) = some (tr, t)) : Run (stepBy cfg run) s tr t := by
  induction ops generalizing l s tr with
  | nil =>
    cases h
    exact .nil _
  | cons op ops ih =>
    obtain ⟨⟨l', u⟩, hu, h⟩ := Option.bind_eq_some_iff.mp h
    obtain ⟨⟨tr, t⟩, hrest, heq⟩ := Option.map_eq_some_iff.mp h
    cases heq
    exact .cons (stepBy_of_play hrun hu) (ih l' hrest)

end Operations

lemma run_played {cfg : Config} (ops : List Op) (l : Luck) {tr : List (World × Op)}
    (h : playOps cfg (fun _ _ => true) ops (l, s) = some (tr, t)) : Run (step cfg) s tr t :=
  run_guarded (fun _ h => h) l h

/-! ### How runs begin -/

def submits : List Op := [.saveTask { Name := "t" }, .submit { Task := "t" }]

def connects (conn : ConnID) : Op := .register conn "w" "linux" "amd64" 4

def proposes : List Op := submits ++ [connects 0, .processQueue]

end Workforce.Calls
