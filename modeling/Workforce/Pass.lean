import Workforce.Footprints

/-!
A dispatch pass, turn by turn.

The pass pops the queue until it is empty. Every popped job has one turn, in which it is
discarded as cancelled, failed, proposed to a worker or deferred; the deferred jobs are pushed
back when the queue is empty. The turns are kept with the states they go through, for any
restriction `run` of what the calls may answer.
-/

namespace Workforce.Pass

open Contract Progs Shared Calls Handlers Dispatcher Footprints

/-- What the pass does with a job it pops. -/
inductive Outcome
  | discarded
  | failed
  | proposed
  | deferred (d : jobDeferral)

def Outcome.deferral : Outcome → Option jobDeferral
  | .deferred d => some d
  | _ => none

structure Turn where
  job : Job
  /-- The state the pop leaves. -/
  seen : World
  outcome : Outcome
  /-- The states gone through from there to the next pop. -/
  moments : List World

def discardedJobs (turns : List Turn) : List Job :=
  turns.filterMap fun a => match a.outcome with
    | .discarded => some a.job
    | _ => none

def failedJobs (turns : List Turn) : List Job :=
  turns.filterMap fun a => match a.outcome with
    | .failed => some a.job
    | _ => none

def proposedJobs (turns : List Turn) : List Job :=
  turns.filterMap fun a => match a.outcome with
    | .proposed => some a.job
    | _ => none

def deferredJobs (turns : List Turn) : List Job :=
  turns.filterMap fun a => match a.outcome with
    | .deferred _ => some a.job
    | _ => none

def Turn.shortage (a : Turn) : Bool := a.outcome.deferral.any jobDeferral.shortage

lemma perm_outcomes (turns : List Turn) :
    (turns.map Turn.job).Perm
      (discardedJobs turns ++ (failedJobs turns ++ (proposedJobs turns ++ deferredJobs turns))) := by
  induction turns with
  | nil => exact .refl _
  | cons a turns ih =>
    rcases a with ⟨job, seen, outcome, moments⟩
    have hcons : (job :: turns.map Turn.job).Perm (job :: _) := ih.cons job
    -- the job moves behind the jobs of the outcomes listed before its own
    have hfailed := hcons.trans List.perm_middle.symm
    have hproposed := hfailed.trans (List.perm_middle.symm.append_left (discardedJobs turns))
    cases outcome with
    | discarded => exact hcons
    | failed => exact hfailed
    | proposed => exact hproposed
    | deferred d =>
      exact hproposed.trans
        ((List.perm_middle.symm.append_left (failedJobs turns)).append_left (discardedJobs turns))

variable (cfg : Config)

/-- `dispatchJob`, with the outcome of the turn. -/
def examine (job : Job) (online : List String) (c : Caches) : M (Caches × Outcome) := do
  match ← jobPlatformKeysForDispatch cfg job online c with
  | (c, _, some d) =>
    if d.fail then
      failJobDirect job d.reason
      return (c, .failed)
    else return (c, .deferred d)
  | (c, platformKeys, none) =>
    match ← tryProposeJob cfg job platformKeys with
    | .ok _ => return (c, .proposed)
    | .error .ErrUnknownTask =>
      failJobDirect job ("unknown task: " ++ job.TaskName)
      return (c, .failed)
    | .error .ErrNoEledgibleWorkers => return (c, .deferred ⟨"no elegible workers", true, false⟩)
    | .error .ErrNoArtifactPlatform =>
      return (c, .deferred ⟨"no artifact platform available", false, false⟩)
    | .error (.other text) => return (c, .deferred ⟨text, false, false⟩)

lemma dispatchJob_eq (job : Job) (online : List String) (c : Caches) :
    dispatchJob cfg job online c =
      examine cfg job online c >>= fun r => pure (r.1, r.2.deferral) := by
  unfold dispatchJob examine
  rw [bind_assoc]
  congr 1
  funext r
  obtain ⟨c, keys, _ | d⟩ := r
  · simp only [bind_assoc]
    congr 1
    funext e
    rcases e with (_ | _ | _ | text) | _ <;> simp [Outcome.deferral]
  · dsimp only
    split_ifs <;> simp [Outcome.deferral]

/-! ### What one turn leaves alone -/

section Uses

variable {cfg}
variable {φ : ∀ {β : Type}, Call β → Prop}

lemma uses_examine (hq : ∀ {β : Type} (c : Call β), Quiet c → φ c)
    (job : Job) (hsend : ∀ w task art, φ (.send w (.propose job task art)))
    (hproposing : φ (.updateJob job.ID .proposing))
    (hassign : ∀ w, φ (.subtractCapacity w job.ID job.Cost))
    (hfail : ∀ id reason, φ (.updateJob id (.failDirect reason)))
    (online : List String) (c : Caches) : (examine cfg job online c).Uses φ := by
  have hfails (reason : String) (r : Caches × Outcome) :
      (failJobDirect job reason >>= fun _ => Prog.pure r).Uses φ :=
    uses_bind _ (uses_failJobDirect hq hfail job reason) fun _ => trivial
  refine uses_bind _
    (uses_mono hq (quiet_jobPlatformKeysForDispatch cfg job online c)) fun r => ?_
  obtain ⟨c, keys, _ | d⟩ := r
  · refine uses_bind _ (uses_tryProposeJob hq cfg job hsend hproposing hassign keys) fun e => ?_
    rcases e with (_ | _ | _ | text) | _
    · exact hfails _ _
    all_goals trivial
  · dsimp only
    split_ifs
    · exact hfails _ _
    · trivial

end Uses

/-- A call a turn can make after the pop. -/
def InTurn : {β : Type} → Call β → Prop
  | _, .send _ (.propose _ _ _) => True
  | _, .updateJob _ _ => True
  | _, .subtractCapacity _ _ _ => True
  | _, c => Quiet c

/-- The same queue, tasks and pool, up to what the connections hold. -/
structure Stays (s t : World) : Prop where
  queue : t.queue = s.queue
  cancelledJobIDs : t.cancelledJobIDs = s.cancelledJobIDs
  tasks : t.tasks = s.tasks
  workers : t.workers = s.workers
  platform : t.platform = s.platform

lemma Stays.trans {s t u : World} (h : Stays s t) (h' : Stays t u) : Stays s u where
  queue := h'.queue.trans h.queue
  cancelledJobIDs := h'.cancelledJobIDs.trans h.cancelledJobIDs
  tasks := h'.tasks.trans h.tasks
  workers := h'.workers.trans h.workers
  platform := h'.platform.trans h.platform

lemma stays_of_inTurn {cfg : Stores} {β : Type} {c : Call β} {s t : World} {b : β}
    (hc : InTurn c) (h : exec cfg c s b t) : Stays s t := by
  have hu := untouched h
  refine ⟨hu.queue ?_, hu.cancelledJobIDs ?_, hu.tasks, hu.workers, hu.platform⟩ <;>
    cases c <;> first | exact hc.elim | nofun

lemma inTurn_examine (job : Job) (online : List String) (c : Caches) :
    (examine cfg job online c).Uses InTurn := by
  refine uses_examine (fun c hc => ?_) job (fun _ _ _ => trivial) trivial
    (fun _ => trivial) (fun _ _ => trivial) online c
  cases c with
  | send w f => cases f <;> trivial
  | _ => first | exact hc | trivial

variable (run : ∀ {β : Type}, Call β → World → β → World → Prop)

/-! ### The turns of a pass -/

/-- The loop of a pass, from a state and caches to the state in which the queue is empty. -/
inductive Loop (online : List String) : World → Caches → List Turn → World → Prop
  | done {s : World} {c : Caches} : s.queue = [] → Loop online s c [] s
  | discard {s u v t : World} {c : Caches} {job : Job} {turns : List Turn} :
      run .popItem s (some job) u → job.ID ∈ u.cancelledJobIDs →
      run (.cancelledRemove job.ID) u () v → Loop online v c turns t →
      Loop online s c (⟨job, u, .discarded, [v]⟩ :: turns) t
  | examine {s u v t : World} {c c' : Caches} {job : Job} {outcome : Outcome}
      {moments : List World} {turns : List Turn} :
      run .popItem s (some job) u → job.ID ∉ u.cancelledJobIDs →
      Prog.Visits run (examine cfg job online c) u (c', outcome) v moments →
      Loop online v c' turns t →
      Loop online s c (⟨job, u, outcome, moments⟩ :: turns) t

/-- A whole pass: nothing on an empty queue, else the loop on the aged queue and the deferred
jobs pushed back. -/
inductive Passes (s : World) : List Turn → Bool → World → Prop
  | idle : s.queue = [] → Passes s [] false s
  | loop {u v w t : World} {online : List String} {turns : List Turn} : s.queue ≠ [] →
      run (.applyStarvationAging cfg.StarvationTimeout) s () u →
      run .onlinePlatformKeys u online v → Loop cfg run online v ⟨∅, ∅⟩ turns w →
      t = { w with queue := deferredJobs turns } →
      Passes s turns (turns.any Turn.shortage) t

section Decompose

variable {cfg run}

variable (hrun : ∀ {β : Type} {c : Call β} {s b t}, run c s b t → exec cfg.toStores c s b t)
variable {online : List String}
include hrun

/-- Popping ends at a job that is not cancelled or at the empty queue, with a turn for every job
discarded on the way. -/
lemma pops (online : List String) (n : ℕ) {s t : World} {o : Option Job} (hn : s.queue.length ≤ n)
    (h : Prog.Ends run (PopNextJobFromQueue n) s o t) :
    ∃ u l, u.queue.length ≤ s.queue.length ∧ deferredJobs l = [] ∧ l.any Turn.shortage = false ∧
      (∀ c turns v, Loop cfg run online u c turns v → Loop cfg run online s c (l ++ turns) v) ∧
      (o = none ∧ u.queue = [] ∧ t = u ∨
        ∃ job, o = some job ∧ run .popItem u (some job) t ∧ job.ID ∉ t.cancelledJobIDs) := by
  induction n generalizing s with
  | zero =>
    obtain ⟨rfl, rfl⟩ := h
    exact ⟨_, [], le_rfl, rfl, rfl, fun _ _ _ hl => hl,
      .inl ⟨rfl, List.length_eq_zero_iff.mp (Nat.le_zero.mp hn), rfl⟩⟩
  | succ n ih =>
    obtain ⟨o', u, hpop, h⟩ := h
    rcases exec_popItem (hrun hpop) with ⟨rfl, hempty, rfl⟩ | ⟨job, hmem, rfl, -, hu⟩
    · obtain ⟨rfl, rfl⟩ := h
      exact ⟨_, [], le_rfl, rfl, rfl, fun _ _ _ hl => hl, .inl ⟨rfl, hempty, rfl⟩⟩
    obtain ⟨has, u', hhas, h⟩ := h
    obtain ⟨rfl, rfl⟩ := hrun hhas
    by_cases hc : job.ID ∈ u'.cancelledJobIDs
    · simp only [hc, decide_true] at h
      obtain ⟨_, v, hremove, h⟩ := h
      have hv : v = { u' with cancelledJobIDs := _ } := hrun hremove
      have hlen : v.queue.length + 1 = s.queue.length := by
        rw [hv, hu, List.length_erase_add_one hmem]
      obtain ⟨x, l, hx, hl, hsh, hloop, hend⟩ := ih (by omega) h
      refine ⟨x, ⟨job, u', .discarded, [v]⟩ :: l, by omega, hl, hsh, ?_, hend⟩
      exact fun c turns w hw => .discard hpop hc hremove (hloop c turns w hw)
    · simp only [hc, decide_false] at h
      obtain ⟨rfl, rfl⟩ := h
      exact ⟨s, [], le_rfl, rfl, rfl, fun _ _ _ hl => hl, .inr ⟨job, rfl, hpop, hc⟩⟩

lemma stays_examine {job : Job} {c : Caches} {s t : World} {r : Caches × Outcome}
    (h : Prog.Ends run (examine cfg job online c) s r t) : Stays s t := by
  have hwp : Prog.wp (exec cfg.toStores) (fun _ _ => True) (examine cfg job online c)
      (fun _ t => Stays s t) s :=
    wp_of_uses (R := Stays) (fun _ => ⟨rfl, rfl, rfl, rfl, rfl⟩) (fun _ _ _ => Stays.trans)
      (fun hc he => stays_of_inTurn hc he) (fun _ => trivial) (inTurn_examine cfg job online c)
      fun _ _ h => h
  have hstays := wp_sound hwp (ends_mono h hrun)
  exact hstays

/-! ### When a turn fails its job -/

/-- A proposal finds its task unknown before it has done anything. -/
lemma ends_tryProposeJob {job : Job} {keys : List String} {s t : World}
    (h : Prog.Ends run (tryProposeJob cfg job keys) s (.error .ErrUnknownTask) t) :
    s.tasks.get job.TaskName = none ∧ t = s := by
  obtain ⟨task, u, hget, h1⟩ := ends_step.mp h
  obtain ⟨htask, rfl⟩ := hrun hget
  cases task with
  | none => exact ⟨htask.symm, h1.2⟩
  | some taskDef =>
    exfalso
    split_ifs at h1
    · cases h1.1
    obtain ⟨workers, u2, -, h2⟩ := ends_step.mp h1
    split_ifs at h2
    · cases h2.1
    obtain ⟨selected, u3, -, h3⟩ := ends_step.mp h2
    obtain ⟨art, u4, -, h4⟩ := ends_bind.mp h3
    cases art with
    | error err => cases h4.1
    | ok info =>
      obtain ⟨sent, u5, -, h5⟩ := ends_step.mp h4
      split_ifs at h5
      · cases h5.1
      obtain ⟨updated, u6, -, h6⟩ := ends_step.mp h5
      split_ifs at h6
      · cases h6.1
      obtain ⟨assigned, u7, -, h7⟩ := ends_step.mp h6
      split_ifs at h7
      · cases h7.1
      obtain ⟨_, u8, -, h8⟩ := ends_bind.mp h7
      cases h8.1

lemma ends_platformKeysOf {job : Job} {c : Caches} {s t : World}
    {r : Caches × Except String (List String)}
    (h : Prog.Ends run (platformKeysOf job c) s r t) : t = s ∧ r.1.task = c.task := by
  unfold platformKeysOf at h
  dsimp only at h
  split at h
  · obtain ⟨rfl, rfl⟩ := h
    exact ⟨rfl, rfl⟩
  · obtain ⟨platforms, u, hlist, h1⟩ := ends_step.mp h
    obtain rfl := id (hrun hlist)
    cases platforms with
    | error err =>
      obtain ⟨rfl, rfl⟩ := h1
      exact ⟨rfl, rfl⟩
    | ok platforms =>
      obtain ⟨rfl, rfl⟩ := h1
      exact ⟨rfl, rfl⟩

/-- The lookup of a job's platforms changes nothing; it gives up on the job only if its task is
not stored. -/
lemma ends_jobPlatformKeys {job : Job} {c : Caches} {s t : World}
    {r : Caches × List String × Option jobDeferral}
    (hc : ∀ name ∈ c.task, s.tasks.get name ≠ none)
    (h : Prog.Ends run (jobPlatformKeysForDispatch cfg job online c) s r t) :
    t = s ∧ (∀ name ∈ r.1.task, s.tasks.get name ≠ none) ∧
      ∀ d, r.2.2 = some d → d.fail = true →
        s.tasks.get job.TaskName = none ∧ d.reason = "unknown task: " ++ job.TaskName := by
  obtain ⟨known, u, hknown, h1⟩ := ends_bind.mp h
  have hfound : u = s ∧ (known = true ↔ s.tasks.get job.TaskName ≠ none) := by
    unfold knownTask at hknown
    split_ifs at hknown with hmem
    · obtain ⟨rfl, rfl⟩ := hknown
      exact ⟨rfl, iff_of_true rfl (hc _ hmem)⟩
    · obtain ⟨task, v, hget, rfl, rfl⟩ := ends_step.mp hknown
      obtain ⟨rfl, rfl⟩ := hrun hget
      exact ⟨rfl, by rw [Option.isSome_iff_ne_none]⟩
  obtain ⟨rfl, hfound⟩ := hfound
  cases known with
  | false =>
    obtain ⟨rfl, rfl⟩ := h1
    refine ⟨rfl, hc, fun d hd _ => ?_⟩
    cases hd
    exact ⟨by simpa using hfound, rfl⟩
  | true =>
    have hc' : ∀ name ∈ insert job.TaskName c.task, u.tasks.get name ≠ none := by
      intro name hname
      rcases Finset.mem_insert.mp hname with rfl | hname
      · exact hfound.mp rfl
      · exact hc name hname
    simp only [Bool.not_true, Bool.false_eq_true, if_false] at h1
    split_ifs at h1
    · obtain ⟨rfl, rfl⟩ := h1
      exact ⟨rfl, hc', fun d hd => nomatch hd⟩
    obtain ⟨⟨c1, keys⟩, v, hkeys, h2⟩ := ends_bind.mp h1
    obtain ⟨rfl, hc1⟩ := ends_platformKeysOf hrun hkeys
    have hc1' : ∀ name ∈ c1.task, v.tasks.get name ≠ none := by rwa [hc1]
    -- none of the other reasons not to dispatch the job fails it
    rcases keys with err | keys
    · obtain ⟨rfl, rfl⟩ := h2
      exact ⟨rfl, hc1', fun d hd hfail => by cases hd; cases hfail⟩
    · dsimp only at h2
      split_ifs at h2 <;> obtain ⟨rfl, rfl⟩ := h2 <;>
        exact ⟨rfl, hc1', fun d hd hfail => by cases hd; try cases hfail⟩

/-- A job whose task is stored is not failed: all its turn can do is propose it. -/
lemma ends_examine {job : Job} {c : Caches} {s t : World} {r : Caches × Outcome}
    (hc : ∀ name ∈ c.task, s.tasks.get name ≠ none) (htask : s.tasks.get job.TaskName ≠ none)
    (h : Prog.Ends run (examine cfg job online c) s r t) :
    (∀ name ∈ r.1.task, s.tasks.get name ≠ none) ∧
      (t = s ∨ ∃ keys e, Prog.Ends run (tryProposeJob cfg job keys) s e t) := by
  obtain ⟨⟨c1, keys, d⟩, u, hkeys, h1⟩ := ends_bind.mp h
  obtain ⟨rfl, hc1, hfail⟩ := ends_jobPlatformKeys hrun hc hkeys
  cases d with
  | some d =>
    dsimp only at h1
    split_ifs at h1 with hd
    · exact absurd (hfail d rfl hd).1 htask
    · obtain ⟨rfl, rfl⟩ := h1
      exact ⟨hc1, .inl rfl⟩
  | none =>
    obtain ⟨e, v, hpropose, h2⟩ := ends_bind.mp h1
    rcases e with (_ | _ | _ | text) | _
    · exact absurd (ends_tryProposeJob hrun hpropose).1 htask
    all_goals
      obtain ⟨rfl, rfl⟩ := h2
      exact ⟨hc1, .inr ⟨keys, _, hpropose⟩⟩

/-! ### The loop and its turns -/

lemma loop_of_ends (n : ℕ) {s t : World} {c : Caches} {r r' : PassResult}
    (hn : s.queue.length ≤ n) (h : Prog.Ends run (passLoop cfg online n c r) s r' t) :
    ∃ turns, Loop cfg run online s c turns t ∧ t.queue = [] ∧
      r' = ⟨r.deferred ++ deferredJobs turns, r.shortage || turns.any Turn.shortage⟩ := by
  induction n generalizing s c r with
  | zero =>
    obtain ⟨rfl, rfl⟩ := h
    have hempty := List.length_eq_zero_iff.mp (Nat.le_zero.mp hn)
    exact ⟨[], .done hempty, hempty, by simp [deferredJobs]⟩
  | succ n ih =>
    obtain ⟨o, u, hpops, h⟩ := ends_bind.mp h
    obtain ⟨v, l, hlen, hdef, hsh, hloop, hend⟩ := pops hrun online _ hn hpops
    rcases hend with ⟨rfl, hempty, rfl⟩ | ⟨job, rfl, hpop, hlive⟩
    · obtain ⟨rfl, rfl⟩ := h
      refine ⟨l ++ [], hloop c [] _ (.done hempty), hempty, ?_⟩
      rw [List.append_nil, hdef, hsh, List.append_nil, Bool.or_false]
    obtain ⟨hmem, -, hu⟩ := hrun hpop
    obtain ⟨⟨c', d⟩, w, hdisp, h⟩ := ends_bind.mp h
    rw [dispatchJob_eq] at hdisp
    obtain ⟨⟨c'', outcome⟩, w', hex, hd⟩ := ends_bind.mp hdisp
    obtain ⟨hd, rfl⟩ := hd
    obtain ⟨rfl, rfl⟩ := Prod.mk.inj hd
    obtain ⟨moments, hvis⟩ := exists_visits hex
    have hw : w.queue.length ≤ n := by
      have := List.length_erase_add_one hmem
      rw [(stays_examine hrun hex).queue, hu]
      simp only
      omega
    -- the turn of this job comes after the discarded ones
    have hturn {turns : List Turn} (hrest : Loop cfg run online w c' turns t) :=
      hloop c _ t (.examine hpop hlive hvis hrest)
    cases outcome with
    | _ =>
      obtain ⟨turns, hrest, hq, rfl⟩ := ih hw h
      refine ⟨_, hturn hrest, hq, ?_⟩
      simp only [deferredJobs, List.filterMap_append, List.any_append] at hdef ⊢
      rw [hdef, hsh]
      simp [Turn.shortage, Outcome.deferral, Bool.or_assoc]

/-- Every way `ProcessQueue` can end is a pass: the fuel of its loops is never what ends them. -/
theorem passes_of_ends {s t : World} {shortage : Bool}
    (h : Prog.Ends run (ProcessQueue cfg) s shortage t) :
    ∃ turns, Passes cfg run s turns shortage t := by
  obtain ⟨size, u, hsize, h⟩ := ends_step.mp h
  obtain ⟨rfl, rfl⟩ := hrun hsize
  split_ifs at h with hempty
  · obtain ⟨rfl, rfl⟩ := h
    exact ⟨[], .idle (List.length_eq_zero_iff.mp hempty)⟩
  obtain ⟨_, v, hage, h⟩ := ends_step.mp h
  obtain ⟨online, w, honline, h⟩ := ends_step.mp h
  obtain ⟨r, x, hl, h⟩ := ends_bind.mp h
  obtain ⟨_, y, hpush, rfl, rfl⟩ := ends_bind.mp h
  have hlen : w.queue.length ≤ u.queue.length := by
    obtain ⟨now, rfl⟩ := hrun hage
    obtain ⟨-, rfl⟩ := hrun honline
    have hids := congrArg List.length (aged_map_ID cfg.StarvationTimeout now u.queue)
    rw [List.length_map, List.length_map] at hids
    exact hids.le
  obtain ⟨turns, hloop, hq, rfl⟩ := loop_of_ends hrun _ hlen hl
  refine ⟨turns, ?_⟩
  have hy := wp_sound (wp_EnqueueJobs _) (ends_mono hpush hrun)
  refine .loop (fun h => hempty (List.length_eq_zero_iff.mpr h)) hage honline hloop ?_
  rw [hy, hq]
  rfl

end Decompose

end Workforce.Pass
