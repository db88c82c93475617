import Workforce.Playback
import Workforce.Pass
import Workforce.Registry

/-!
A job deferred for want of a worker cannot be placed later in the same pass either.

During a pass the workers stay where and in which state they are, what they have rejected stays
rejected, and the room they have only shrinks. So it is enough that no worker can take the job
at its own turn.
-/

namespace Workforce.Shortage

open Tables Contract Progs Shared Calls Handlers Dispatcher Footprints Pass Registry

/-! ### Room only shrinks -/

/-- The same workers in the same states, having rejected the same jobs, with no more room. -/
structure Shrinks (s t : World) : Prop where
  tasks : t.tasks = s.tasks
  workers : t.workers = s.workers
  platform : t.platform = s.platform
  conn : ∀ w c', t.conns.get w = some c' → ∃ c, s.conns.get w = some c ∧ c'.state = c.state ∧
    c'.rejectedJobsCache = c.rejectedJobsCache ∧ c'.AvailableCapacity ≤ c.AvailableCapacity

variable {s t : World}

lemma Shrinks.of_eq (htasks : t.tasks = s.tasks) (hworkers : t.workers = s.workers)
    (hplatform : t.platform = s.platform) (hconns : t.conns = s.conns) : Shrinks s t where
  tasks := htasks
  workers := hworkers
  platform := hplatform
  conn := fun _ c' h => ⟨c', hconns ▸ h, rfl, rfl, le_rfl⟩

lemma Shrinks.refl (s : World) : Shrinks s s := .of_eq rfl rfl rfl rfl

lemma Shrinks.trans {u : World} (h : Shrinks s t) (h' : Shrinks t u) : Shrinks s u where
  tasks := h'.tasks.trans h.tasks
  workers := h'.workers.trans h.workers
  platform := h'.platform.trans h.platform
  conn := fun w c hc => by
    obtain ⟨d, hd, hst, hrej, hav⟩ := h'.conn w c hc
    obtain ⟨e, he, hst', hrej', hav'⟩ := h.conn w d hd
    exact ⟨e, he, hst.trans hst', hrej.trans hrej', hav.trans hav'⟩

/-- A call of a turn that takes no negative amount of room. -/
def Spends : {β : Type} → Call β → Prop
  | _, .subtractCapacity _ _ cost => 0 ≤ cost
  | _, c => InTurn c

lemma shrinks_assign {d d' : WorkerConn} {w : ConnID} {taskID : String} {cost : ℤ}
    (hd : s.conns.get w = some d) (hassign : d.AssignTask taskID cost = .ok d') (hcost : 0 ≤ cost) :
    Shrinks s { s with conns := s.conns.put d' } where
  tasks := rfl
  workers := rfl
  platform := rfl
  conn := fun w' c' hc' => by
    obtain rfl := WorkerConn.eq_of_AssignTask hassign
    dsimp only at hc'
    rw [get_put] at hc'
    split_ifs at hc' with hw'
    · -- the connection the job is assigned to
      obtain rfl := Option.some.inj hc'
      refine ⟨d, ?_, rfl, rfl, ?_⟩
      · rw [hw', ← hd, key_of_get hd]
      · simp only [WorkerConn.AvailableCapacity]
        omega
    · exact ⟨c', hc', rfl, rfl, le_rfl⟩

lemma shrinks_of_spends {cfg : Stores} {β : Type} {c : Call β} {b : β} (hc : Spends c)
    (h : exec cfg c s b t) : Shrinks s t := by
  have hu := untouched h
  cases c with
  | subtractCapacity =>
    rcases exec_subtractCapacity h with ⟨-, rfl⟩ | ⟨d, d', -, hd, hassign, rfl⟩
    · exact .refl _
    · exact shrinks_assign hd hassign hc
  | restoreCapacity | putRejected => exact hc.elim
  | _ => exact .of_eq hu.tasks hu.workers hu.platform (hu.conns nofun)

/-! ### What a turn spends -/

section Turns

variable {cfg : Config} {s t : World} {job : Job}

lemma spends_call {β : Type} (c : Call β) (hc : Quiet c) : Spends c := by
  cases c with
  | subtractCapacity => exact hc.elim
  | send w f => cases f <;> trivial
  | _ => first | exact hc | trivial

/-- Nobody is found for a job of negative cost, so nothing is assigned to anyone. -/
lemma spends_tryProposeJob (keys : List String) :
    Prog.wp (exec cfg.toStores) (fun c _ => Spends c) (tryProposeJob cfg job keys)
      (fun _ _ => True) s := by
  by_cases hcost : 0 ≤ job.Cost
  · exact wp_true_of_uses (fun hc => hc) (uses_tryProposeJob spends_call cfg job
      (fun _ _ _ => trivial) trivial (fun _ => hcost) keys)
  refine wp_step trivial fun task t ht => ?_
  cases task with
  | none => trivial
  | some taskDef =>
    split_ifs
    · trivial
    refine wp_step trivial fun workers u hu => ?_
    have hnil : workers = [] := by
      have hl := hu.1
      rwa [if_pos (not_le.mp hcost)] at hl
    rw [if_pos hnil]
    trivial

lemma spends_examine (online : List String) (c : Caches) :
    Prog.wp (exec cfg.toStores) (fun c _ => Spends c) (examine cfg job online c)
      (fun _ _ => True) s := by
  have hfail (reason : String) (r : Caches × Outcome) (u : World) :
      Prog.wp (exec cfg.toStores) (fun c _ => Spends c)
        (failJobDirect job reason >>= fun _ => Prog.pure r) (fun _ _ => True) u :=
    (wp_bind _ _ _ _).mpr (wp_mono (wp_true_of_uses (fun hc => hc)
      (uses_failJobDirect spends_call (fun _ _ => trivial) job reason)) fun _ _ _ => trivial)
  have hkeys := uses_mono spends_call (quiet_jobPlatformKeysForDispatch cfg job online c)
  refine (wp_bind _ _ _ _).mpr
    (wp_mono (wp_true_of_uses (fun hc => hc) hkeys) fun r u _ => ?_)
  obtain ⟨c, keys, _ | d⟩ := r
  · refine (wp_bind _ _ _ _).mpr (wp_mono (spends_tryProposeJob keys) fun e v _ => ?_)
    rcases e with (_ | _ | _ | text) | _
    · exact hfail _ _ v
    all_goals trivial
  · dsimp only
    split_ifs
    · exact hfail _ _ u
    · trivial

end Turns

/-! ### No worker can take the job -/

/-- The worker is on a platform of the job's artifact. Without a registry every worker is. -/
def Placed (cfg : Config) (reg : Artifacts) (s : World) (job : Job) (w : WorkerConn) : Prop :=
  if cfg.hasRegistry then
    ∃ keys, reg.keys job.TaskName job.ArtifactVersion = .ok keys ∧
      ∃ k ∈ keys, w ∈ World.listed s k
  else w ∈ World.registered s

/-- An online worker on a platform of the job that has not rejected it and has room for it. -/
structure CanTake (cfg : Config) (reg : Artifacts) (s : World) (job : Job) (w : WorkerConn) :
    Prop where
  online : w.state = .online
  rejected : job.ID ∉ w.rejectedJobsCache
  room : job.Cost ≤ w.AvailableCapacity
  placed : Placed cfg reg s job w

section CanTake

variable {cfg : Config} {reg : Artifacts} {s t : World} {job : Job}

variable {w : WorkerConn}

lemma Shrinks.listed (h : Shrinks s t) {key : String} (hw : w ∈ World.listed t key) :
    ∃ w0 ∈ World.listed s key, w.state = w0.state ∧
      w.rejectedJobsCache = w0.rejectedJobsCache ∧ w.AvailableCapacity ≤ w0.AvailableCapacity := by
  obtain ⟨id, hid, hget⟩ := List.mem_filterMap.mp hw
  obtain ⟨w0, hget0, hrest⟩ := h.conn id w hget
  rw [h.platform] at hid
  exact ⟨w0, List.mem_filterMap.mpr ⟨id, hid, hget0⟩, hrest⟩

lemma Shrinks.registered (h : Shrinks s t) (hw : w ∈ World.registered t) :
    ∃ w0 ∈ World.registered s, w.state = w0.state ∧
      w.rejectedJobsCache = w0.rejectedJobsCache ∧ w.AvailableCapacity ≤ w0.AvailableCapacity := by
  obtain ⟨e, he, hget⟩ := List.mem_filterMap.mp hw
  obtain ⟨w0, hget0, hrest⟩ := h.conn e.2 w hget
  rw [h.workers] at he
  exact ⟨w0, List.mem_filterMap.mpr ⟨e, he, hget0⟩, hrest⟩

/-- What nobody can take now nobody can take later. -/
lemma Shrinks.canTake (h : Shrinks s t) (hw : CanTake cfg reg t job w) :
    ∃ w0, CanTake cfg reg s job w0 := by
  obtain ⟨honline, hrej, hroom, hplaced⟩ := hw
  unfold Placed at hplaced
  by_cases hreg : cfg.hasRegistry = true
  · rw [if_pos hreg] at hplaced
    obtain ⟨keys, hkeys, k, hk, hw⟩ := hplaced
    obtain ⟨w0, hw0, hst, hrej0, hav⟩ := h.listed hw
    refine ⟨w0, hst ▸ honline, hrej0 ▸ hrej, hroom.trans hav, ?_⟩
    rw [Placed, if_pos hreg]
    exact ⟨keys, hkeys, k, hk, hw0⟩
  · rw [if_neg hreg] at hplaced
    obtain ⟨w0, hw0, hst, hrej0, hav⟩ := h.registered hplaced
    refine ⟨w0, hst ▸ honline, hrej0 ▸ hrej, hroom.trans hav, ?_⟩
    rwa [Placed, if_neg hreg]

lemma CanTake.eligible (h : CanTake cfg reg s job w) :
    Eligible job.Cost job.ID w := ⟨h.online, .inr h.rejected, .inr h.room⟩

/-- `eligibleWorkers` finds every worker that can take the job, unless its cost is negative. -/
lemma exists_eligible {keys : List String} {workers : List WorkerConn} (hcost : 0 ≤ job.Cost)
    (hkeys : if cfg.hasRegistry then
        keys ≠ [] ∧ reg.keys job.TaskName job.ArtifactVersion = .ok keys else keys = [])
    (h : exec cfg.toStores (.eligibleWorkers keys job.Cost job.ID) s workers t)
    (hw : CanTake cfg reg s job w) : w ∈ workers := by
  obtain ⟨hl, -⟩ := h
  have hplaced := hw.placed
  rw [if_neg (not_lt.mpr hcost)] at hl
  unfold Placed at hplaced
  split_ifs at hkeys hplaced
  · obtain ⟨hne, hkeys⟩ := hkeys
    obtain ⟨keys', hkeys', k, hk, hlisted⟩ := hplaced
    obtain rfl := Except.ok.inj (hkeys.symm.trans hkeys')
    rw [if_neg hne] at hl
    rw [hl, List.mem_flatMap]
    exact ⟨k, hk, List.mem_filter.mpr ⟨hlisted, decide_eq_true hw.eligible⟩⟩
  · rw [if_pos hkeys] at hl
    rw [hl.mem_iff]
    exact List.mem_filter.mpr ⟨hplaced, decide_eq_true hw.eligible⟩

/-- When no eligible worker is found, nobody can take the job. -/
lemma not_canTake_of_noneEligible {keys : List String} (hcost : 0 ≤ job.Cost)
    (hkeys : if cfg.hasRegistry then
        keys ≠ [] ∧ reg.keys job.TaskName job.ArtifactVersion = .ok keys else keys = [])
    (h : Prog.Ends (exec cfg.toStores) (tryProposeJob cfg job keys) s
      (.error .ErrNoEledgibleWorkers) t) (w : WorkerConn) : ¬CanTake cfg reg s job w := by
  intro hw
  have hwp : Prog.wp (exec cfg.toStores) (fun _ _ => True) (tryProposeJob cfg job keys)
      (fun r _ => r ≠ .error .ErrNoEledgibleWorkers) s := by
    refine wp_step trivial fun task u hu => ?_
    obtain ⟨-, rfl⟩ := hu
    cases task with
    | none => exact nofun
    | some taskDef =>
      split_ifs
      · exact nofun
      refine wp_step trivial fun workers v hv => ?_
      rw [if_neg (List.ne_nil_of_mem (exists_eligible hcost hkeys hv hw))]
      refine wp_step trivial fun selected v _ => ?_
      refine (wp_bind _ _ _ _).mpr (wp_of_forall fun art x => ?_)
      cases art with
      | error err => exact nofun
      | ok info =>
        refine wp_step trivial fun sent x _ => ?_
        split_ifs
        · exact nofun
        refine wp_step trivial fun updated x _ => ?_
        split_ifs
        · exact nofun
        refine wp_step trivial fun assigned x _ => ?_
        split_ifs
        · exact nofun
        · exact (wp_bind _ _ _ _).mpr (wp_of_forall fun _ _ => nofun)
  have hne := wp_sound hwp h
  exact hne rfl

/-- The keys under which an online worker is listed are in the snapshot. -/
def Snapshot (online : List String) (s : World) : Prop :=
  ∀ key, (∃ w ∈ World.listed s key, w.state = .online) → key ∈ online

lemma Shrinks.snapshot {online : List String} (h : Shrinks s t) (hs : Snapshot online s) :
    Snapshot online t := by
  rintro key ⟨w, hw, hst⟩
  obtain ⟨w0, hw0, hst0, -, -⟩ := h.listed hw
  exact hs key ⟨w0, hw0, hst0 ▸ hst⟩

/-- A turn keeps the caches sound, and defers a job for a shortage only if nobody can take it. -/
lemma examine_shortage {online : List String} {c c' : Caches} {outcome : Outcome}
    (hc : Sound reg s.tasks c) (hsnap : Snapshot online s)
    (h : Prog.Ends (against cfg reg) (examine cfg job online c) s (c', outcome) t) :
    Sound reg s.tasks c' ∧ (outcome.deferral.any jobDeferral.shortage = true →
      0 ≤ job.Cost → ∀ w, ¬CanTake cfg reg s job w) := by
  obtain ⟨c1, hc1, hkeys⟩ := ends_jobPlatformKeysForDispatch against_getTask
    against_listPlatforms cfg hc job online
  rw [examine, ends_bind_read hkeys] at h
  rcases hp : platformsFor cfg reg s.tasks online job with ⟨keys, _ | d⟩
  · rw [hp] at h
    obtain ⟨e, u, htry, h⟩ := ends_bind.mp h
    rcases e with (_ | _ | _ | text) | _
    · obtain ⟨_, _, -, hr, -⟩ := ends_bind.mp h
      obtain ⟨rfl, rfl⟩ := Prod.mk.inj hr
      exact ⟨hc1, nofun⟩
    · obtain ⟨rfl, rfl⟩ := Prod.mk.inj h.1
      exact ⟨hc1, nofun⟩
    · obtain ⟨rfl, rfl⟩ := Prod.mk.inj h.1
      refine ⟨hc1, fun _ hcost => ?_⟩
      exact not_canTake_of_noneEligible hcost (platformsFor_none hp)
        (ends_mono htry fun he => he.1)
    all_goals
      obtain ⟨rfl, rfl⟩ := Prod.mk.inj h.1
      exact ⟨hc1, nofun⟩
  · rw [hp] at h
    dsimp only at h
    split_ifs at h with hfail
    · obtain ⟨_, _, -, hr, -⟩ := ends_bind.mp h
      obtain ⟨rfl, rfl⟩ := Prod.mk.inj hr
      exact ⟨hc1, nofun⟩
    · obtain ⟨rfl, rfl⟩ := Prod.mk.inj h.1
      refine ⟨hc1, fun hd _ w hw => ?_⟩
      -- the pre-filter: a worker that could take the job would be in the snapshot
      obtain ⟨hreg, hk, hoff⟩ := platformsFor_shortage hp hd
      have hplaced := hw.placed
      rw [Placed, if_pos hreg] at hplaced
      obtain ⟨keys', hk', k, hmem, hlisted⟩ := hplaced
      obtain rfl := Except.ok.inj (hk.symm.trans hk')
      exact hoff k hmem (hsnap k ⟨w, hlisted, hw.online⟩)

end CanTake

/-! ### The whole pass -/

section Passes

variable {cfg : Config} {reg : Artifacts} {s t : World} {online : List String} {c : Caches}
variable {turns : List Turn}

/-- The states of a turn, from the pop on. -/
def states (a : Turn) : List World := a.seen :: a.moments

lemma mem_deferredJobs {a : Turn} (ha : a ∈ turns) (hshort : a.shortage = true) :
    a.job ∈ deferredJobs turns := by
  refine List.mem_filterMap.mpr ⟨a, ha, ?_⟩
  unfold Turn.shortage at hshort
  rcases hout : a.outcome with _ | _ | _ | d
  · rw [hout] at hshort
    cases hshort
  · rw [hout] at hshort
    cases hshort
  · rw [hout] at hshort
    cases hshort
  · rfl

variable {job : Job}

lemma shrinks_pop (h : against cfg reg .popItem s (some job) t) : Shrinks s t := by
  obtain ⟨⟨-, -, rfl⟩, -⟩ := h
  exact .of_eq rfl rfl rfl rfl

lemma shrinks_remove {name : String} (h : against cfg reg (.cancelledRemove name) s () t) :
    Shrinks s t := by
  obtain ⟨ht, -⟩ := h
  obtain rfl := id ht
  exact .of_eq rfl rfl rfl rfl

lemma shrinks_visits {r : Caches × Outcome} {l : List World}
    (h : Prog.Visits (against cfg reg) (examine cfg job online c) s r t l) :
    ∀ u ∈ s :: l, Shrinks s u := by
  have hv : Prog.Visits (exec cfg.toStores) (examine cfg job online c) s r t l :=
    visits_mono h fun he => he.1
  have hl := visits_of_wp (R := Shrinks) (fun _ _ _ => Shrinks.trans)
    (fun hc he => shrinks_of_spends hc he) (spends_examine online c) hv
  intro u hu
  rcases List.mem_cons.mp hu with rfl | hu
  · exact .refl _
  · exact hl u hu

lemma shrinks_examine {r : Caches × Outcome}
    (h : Prog.Ends (against cfg reg) (examine cfg job online c) s r t) : Shrinks s t := by
  obtain ⟨l, hl⟩ := exists_visits h
  exact shrinks_visits hl t (visits_last hl)

lemma shrinks_loop (h : Loop cfg (against cfg reg) online s c turns t) :
    ∀ u ∈ turns.flatMap states ++ [t], Shrinks s u := by
  induction h with
  | done =>
    intro u hu
    rw [List.flatMap_nil, List.nil_append, List.mem_singleton] at hu
    exact hu ▸ .refl _
  | discard hpop _ hremove _ ih =>
    have hseen := shrinks_pop hpop
    have hleft := hseen.trans (shrinks_remove hremove)
    intro u hu
    rw [List.flatMap_cons, List.append_assoc, List.mem_append] at hu
    rcases hu with hu | hu
    · rcases List.mem_cons.mp hu with rfl | hu
      · exact hseen
      · exact List.mem_singleton.mp hu ▸ hleft
    · exact hleft.trans (ih u hu)
  | examine hpop _ hvis _ ih =>
    have hseen := shrinks_pop hpop
    have hstates := shrinks_visits hvis
    intro u hu
    rw [List.flatMap_cons, List.append_assoc, List.mem_append] at hu
    rcases hu with hu | hu
    · exact hseen.trans (hstates u hu)
    · exact (hseen.trans (hstates _ (visits_last hvis))).trans (ih u hu)

/-- From the turn of a job deferred for a shortage to the end, nobody can take it. -/
lemma loop_shortage (h : Loop cfg (against cfg reg) online s c turns t)
    (hc : Sound reg s.tasks c) (hsnap : Snapshot online s) {before after : List Turn} {a : Turn}
    (hturns : turns = before ++ a :: after) (hshort : a.shortage = true)
    (hcost : 0 ≤ a.job.Cost) :
    ∀ u ∈ states a ++ (after.flatMap states ++ [t]), ∀ w, ¬CanTake cfg reg u a.job w := by
  induction h generalizing before with
  | done => exact absurd hturns.symm (by simp)
  | discard hpop _ hremove _ ih =>
    have hleft := (shrinks_pop hpop).trans (shrinks_remove hremove)
    cases before with
    | nil =>
      -- a discarded job is not deferred
      obtain ⟨rfl, -⟩ := List.cons.inj hturns
      cases hshort
    | cons b before =>
      obtain ⟨-, hturns⟩ := List.cons.inj hturns
      exact ih (hleft.tasks ▸ hc) (hleft.snapshot hsnap) hturns
  | examine hpop _ hvis hrest ih =>
    have hseen := shrinks_pop hpop
    have hstates := shrinks_visits hvis
    have hend := hstates _ (visits_last hvis)
    have hturn := examine_shortage (hseen.tasks ▸ hc) (hseen.snapshot hsnap)
      (ends_of_visits hvis)
    cases before with
    | nil =>
      obtain ⟨rfl, rfl⟩ := List.cons.inj hturns
      intro u hu w hw
      rcases List.mem_append.mp hu with hu | hu
      · obtain ⟨w0, hw0⟩ := (hstates u hu).canTake hw
        exact hturn.2 hshort hcost w0 hw0
      · obtain ⟨w0, hw0⟩ := (hend.trans (shrinks_loop hrest u hu)).canTake hw
        exact hturn.2 hshort hcost w0 hw0
    | cons b before =>
      obtain ⟨-, hturns⟩ := List.cons.inj hturns
      exact ih (hend.tasks ▸ hturn.1) (hend.snapshot (hseen.snapshot hsnap)) hturns

end Passes

/-- **No priority inversion, no idle capacity.** In a dispatch pass against a fixed registry, if
a job of a cost that is not negative is deferred for a shortage, then from its turn to the end of
the pass no online worker that has not rejected it, on one of its platforms, has room for it. -/
theorem no_idle_capacity (cfg : Config) (reg : Artifacts) (s : World) :
    (∀ shortage t, Prog.Ends (against cfg reg) (ProcessQueue cfg) s shortage t →
      ∃ turns, Passes cfg (against cfg reg) s turns shortage t) ∧
    ∀ turns shortage t, Passes cfg (against cfg reg) s turns shortage t →
      ∀ before a after, turns = before ++ a :: after → a.shortage = true → 0 ≤ a.job.Cost →
        a.job ∈ t.queue ∧
        ∀ u ∈ states a ++ (after.flatMap states ++ [t]), ∀ w, ¬CanTake cfg reg u a.job w := by
  refine ⟨fun shortage t h => passes_of_ends (fun he => he.1) h, ?_⟩
  intro turns shortage t h before a after hturns hshort hcost
  cases h with
  | idle => exact absurd hturns.symm (by simp)
  | @loop u v w _ online _ _ hage honline hloop ht =>
    subst ht
    have hsnap : Snapshot online v := by
      obtain ⟨⟨hmem, rfl⟩, -⟩ := honline
      exact fun key hkey => (hmem key).mpr hkey
    have hall := loop_shortage hloop (.empty _ _) hsnap hturns hshort hcost
    refine ⟨mem_deferredJobs (hturns ▸ List.mem_append_right _ List.mem_cons_self) hshort,
      fun x hx y hy => ?_⟩
    rw [← List.append_assoc, List.mem_append, List.mem_singleton] at hx
    rcases hx with hx | rfl
    · exact hall x (by rw [← List.append_assoc]; exact List.mem_append_left _ hx) y hy
    · -- pushing the deferred jobs back changes nothing about the workers
      have hback : Shrinks w { w with queue := deferredJobs turns } := .of_eq rfl rfl rfl rfl
      obtain ⟨y0, hy0⟩ := hback.canTake hy
      exact hall w (by simp) y0 hy0

/-! ### One job and one worker -/

def workerOf (capacity : ℤ) : WorkerConn :=
  { conn := 0, workerID := "w", os := "linux", arch := "amd64", capacity := capacity }

def artifacts : Artifacts where
  ListPlatforms := fun _ _ => .ok [{ OS := "linux", Arch := "amd64", Version := "1" }]
  Resolve := fun _ _ _ _ => .error "not found"

def jobOf (cost : ℤ) : Job := { ID := "j", TaskName := "t", Cost := cost }

def idle (capacity cost : ℤ) (queue : List Job) : World :=
  { World.initial with
    jobs := (Table.empty _).put (jobOf cost)
    tasks := (Table.empty _).put { Name := "t", Cost := cost }
    queue := queue
    conns := (Table.empty _).put (workerOf capacity)
    workers := AList.insert "w" 0 ∅
    platform := AList.insert "linux/amd64" [0] ∅ }

/-- The lookups of the job's task and platforms. -/
def remembered : Caches := ⟨AList.insert ("t", "") ["linux/amd64"] ∅, insert "t" ∅⟩

def deferredTurn (cost : ℤ) : Turn where
  job := jobOf cost
  seen := idle 2 cost []
  outcome := .deferred ⟨"no elegible workers", true, false⟩
  moments := List.replicate 4 (idle 2 cost [])

lemma passes_idle {cost : ℤ} (hcost : cost = 5 ∨ cost = -1) :
    Passes .defaults (against .defaults artifacts) (idle 2 cost [jobOf cost]) [deferredTurn cost]
      true (idle 2 cost [jobOf cost]) := by
  have hplayed {β : Type} {c : Call β} {b : β} {s t : World}
      (h : answer c ({}, s) = some (b, {}, t)) (hreg : artifacts.Answers c b) :
      against .defaults artifacts c s b t := ⟨exec_of_answer h, hreg⟩
  have hloop : Loop .defaults (against .defaults artifacts) ["linux/amd64"]
      (idle 2 cost [jobOf cost]) ⟨∅, ∅⟩ [deferredTurn cost] (idle 2 cost []) := by
    rcases hcost with rfl | rfl
    all_goals
      refine .examine (hplayed rfl trivial) (Finset.notMem_empty _) ?_
        (.done (c := remembered) rfl)
      -- the task, its platforms, the task again, and no worker
      refine ⟨_, _, _, hplayed rfl trivial, ?_, rfl⟩
      refine ⟨_, _, _, hplayed rfl rfl, ?_, rfl⟩
      refine ⟨_, _, _, hplayed rfl trivial, ?_, rfl⟩
      exact ⟨_, _, _, hplayed rfl trivial, ⟨rfl, rfl, rfl⟩, rfl⟩
  exact .loop (List.cons_ne_nil _ _) (hplayed rfl trivial) (hplayed rfl trivial) hloop rfl

/-- A job too costly for the one worker is deferred, and the worker cannot take it. -/
theorem no_idle_capacity_tooCostly :
    Passes .defaults (against .defaults artifacts) (idle 2 5 [jobOf 5]) [deferredTurn 5] true
      (idle 2 5 [jobOf 5]) ∧
    ∀ u ∈ states (deferredTurn 5) ++ [idle 2 5 [jobOf 5]], ∀ w,
      ¬CanTake .defaults artifacts u (jobOf 5) w := by
  have hpass := passes_idle (.inl rfl)
  refine ⟨hpass, ?_⟩
  exact ((no_idle_capacity .defaults artifacts _).2 _ _ _ hpass [] _ [] rfl rfl (by decide)).2

/-- A job of negative cost is deferred for a shortage while the worker has room for it. -/
theorem negative_cost_deferred :
    Passes .defaults (against .defaults artifacts) (idle 2 (-1) [jobOf (-1)]) [deferredTurn (-1)]
      true (idle 2 (-1) [jobOf (-1)]) ∧
    (deferredTurn (-1)).shortage = true ∧
    CanTake .defaults artifacts (idle 2 (-1) [jobOf (-1)]) (jobOf (-1)) (workerOf 2) := by
  refine ⟨passes_idle (.inr rfl), rfl, rfl, Finset.notMem_empty _, by decide, ?_⟩
  have hreg : Config.defaults.hasRegistry = true := rfl
  rw [Placed, if_pos hreg]
  exact ⟨["linux/amd64"], rfl, _, List.mem_singleton_self _, by decide⟩

end Workforce.Shortage
