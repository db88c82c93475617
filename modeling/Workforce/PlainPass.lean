import Workforce.Conservation
import Workforce.Shortage

/-!
The plain dispatcher, and that the pass with its caches and its pre-filter does the same.

The plain dispatcher looks up the task and the platforms of every job it pops and goes straight
to the eligible workers. The selector may answer by everything it was asked before, so the calls
it gets are part of what the two are compared by.
-/

namespace Workforce.PlainPass

open Contract Progs Shared Calls Handlers Dispatcher Footprints Pass Registry Shortage
open Conservation

/-! ### The plain dispatcher -/

variable (cfg : Config)

/-- The platforms of a job, looked up afresh. -/
def plainPlatformKeys (job : Job) : M (List String × Option jobDeferral) := do
  match ← GetTask job.TaskName with
  | none => return ([], some ⟨"unknown task: " ++ job.TaskName, false, true⟩)
  | some _ =>
    if !cfg.hasRegistry then return ([], none)
    match ← ListPlatforms job.TaskName job.ArtifactVersion with
    | .error err => return ([], some ⟨"list platforms: " ++ err, false, false⟩)
    | .ok platforms =>
      let keys := platforms.map fun p => platformKey p.OS p.Arch
      if keys = [] then
        return ([], some ⟨"no artifact platform available", false, false⟩)
      else return (keys, none)

/-- What is done with the platforms of a job, or with the reason not to dispatch it. -/
def finishTurn (job : Job) : List String × Option jobDeferral → M (Option jobDeferral)
  | (_, some d) => do
    if d.fail then
      failJobDirect job d.reason
      return none
    else return some d
  | (platformKeys, none) => do
    match ← tryProposeJob cfg job platformKeys with
    | .ok _ => return none
    | .error .ErrUnknownTask =>
      failJobDirect job ("unknown task: " ++ job.TaskName)
      return none
    | .error .ErrNoEledgibleWorkers => return some ⟨"no elegible workers", true, false⟩
    | .error .ErrNoArtifactPlatform => return some ⟨"no artifact platform available", false, false⟩
    | .error (.other text) => return some ⟨text, false, false⟩

def plainDispatchJob (job : Job) : M (Option jobDeferral) := do
  finishTurn cfg job (← plainPlatformKeys cfg job)

def plainLoop : ℕ → PassResult → M PassResult
  | 0, r => pure r
  | fuel + 1, r => do
    match ← PopNextJobFromQueue (fuel + 1) with
    | none => return r
    | some job =>
      match ← plainDispatchJob cfg job with
      | none => plainLoop fuel r
      | some d => plainLoop fuel ⟨r.deferred ++ [job], r.shortage || d.shortage⟩

def plainProcessQueue : M Bool := do
  let size ← Prog.lift .queueSize
  if size = 0 then return false
  Prog.lift (.applyStarvationAging cfg.StarvationTimeout)
  let r ← plainLoop cfg size ⟨[], false⟩
  EnqueueJobs r.deferred
  return r.shortage

/-! ### What is observed -/

/-- The shared state and every question the selector was asked, with its answer. -/
@[ext] structure Observed where
  world : World
  selections : List (List WorkerConn × WorkerConn)

/-- A selector: what it may answer, given what it was asked before and the workers to choose
from. -/
abbrev Selector := List (List WorkerConn × WorkerConn) → List WorkerConn → WorkerConn → Prop

/-- What a call does to the selector's history. -/
def Selects (sel : Selector) : {β : Type} → Call β → Observed → β → Observed → Prop
  | _, .select workers, x, w, y =>
    sel x.selections workers w ∧ y.selections = x.selections ++ [(workers, w)]
  | _, _, x, _, y => y.selections = x.selections

def observed (reg : Artifacts) (sel : Selector) {β : Type} (c : Call β) (x : Observed) (b : β)
    (y : Observed) : Prop :=
  against cfg reg c x.world b y.world ∧ Selects sel c x b y

variable {cfg} {reg : Artifacts} {sel : Selector} {x y : Observed}

lemma observed_read {β : Type} {c : Call β} {b b₀ : β}
    (hsel : ∀ y, Selects sel c x b y ↔ y.selections = x.selections)
    (hc : ∀ t, against cfg reg c x.world b t ↔ b = b₀ ∧ t = x.world) :
    observed cfg reg sel c x b y ↔ b = b₀ ∧ y = x := by
  rw [observed, hc, hsel, Observed.ext_iff, and_assoc]

lemma observed_getTask (name : String) (b : Option Task) (y : Observed) :
    observed cfg reg sel (.getTask name) x b y ↔ b = x.world.tasks.get name ∧ y = x :=
  observed_read (fun _ => Iff.rfl) (against_getTask name b)

lemma observed_listPlatforms (task version : String)
    (b : Except String (List ArtifactPlatform)) (y : Observed) :
    observed cfg reg sel (.listPlatforms task version) x b y ↔
      b = reg.ListPlatforms task version ∧ y = x :=
  observed_read (fun _ => Iff.rfl) (against_listPlatforms task version b)

/-- Without an online worker on its platforms nobody is found for a job. -/
lemma observed_eligibleWorkers {keys : List String} {cost : ℤ} {jobID : String} (hne : keys ≠ [])
    (hoff : ∀ k ∈ keys, ∀ w ∈ World.listed x.world k, w.state ≠ .online) (b : List WorkerConn)
    (y : Observed) :
    observed cfg reg sel (.eligibleWorkers keys cost jobID) x b y ↔ b = [] ∧ y = x := by
  refine observed_read (fun _ => Iff.rfl) fun t => ?_
  have hnone : (keys.flatMap fun key =>
      (World.listed x.world key).filter (Eligible cost jobID)) = [] := by
    refine List.flatMap_eq_nil_iff.mpr fun k hk => List.filter_eq_nil_iff.mpr fun w hw hel => ?_
    exact hoff k hk w hw (of_decide_eq_true hel).1
  refine (and_iff_left trivial).trans (and_congr_left fun _ => ?_)
  rw [if_neg hne, hnone]
  split_ifs <;> exact Iff.rfl

lemma snapshot_of_observed {online : List String}
    (h : observed cfg reg sel .onlinePlatformKeys x online y) :
    Snapshot online x.world ∧ y = x := by
  obtain ⟨⟨⟨hmem, hworld⟩, -⟩, hsel⟩ := h
  exact ⟨fun key hkey => (hmem key).mpr hkey, Observed.ext hworld hsel⟩

/-! ### One job -/

/-- What `plainPlatformKeys` decides. -/
def platformsAfresh (cfg : Config) (reg : Artifacts) (tasks : Tasks) (job : Job) :
    List String × Option jobDeferral :=
  if (tasks.get job.TaskName).isNone then
    ([], some ⟨"unknown task: " ++ job.TaskName, false, true⟩)
  else if !cfg.hasRegistry then ([], none)
  else match reg.keys job.TaskName job.ArtifactVersion with
    | .error err => ([], some ⟨"list platforms: " ++ err, false, false⟩)
    | .ok keys =>
      if keys = [] then ([], some ⟨"no artifact platform available", false, false⟩)
      else (keys, none)

section Job

variable {job : Job} {online : List String} {c : Caches}

lemma ends_plainPlatformKeys (r : List String × Option jobDeferral) (y : Observed) :
    Prog.Ends (observed cfg reg sel) (plainPlatformKeys cfg job) x r y ↔
      r = platformsAfresh cfg reg x.world.tasks job ∧ y = x := by
  simp only [plainPlatformKeys, ends_bind_read (ends_GetTask observed_getTask _)]
  rcases htask : x.world.tasks.get job.TaskName with _ | task
  · simp only [platformsAfresh, htask, Option.isNone_none, if_true]
    exact Iff.rfl
  rcases hreg : cfg.hasRegistry with _ | _
  · simp only [platformsAfresh, htask, hreg]
    exact Iff.rfl
  simp only [platformsAfresh, htask, hreg, Bool.not_true, Option.isNone_some, Bool.false_eq_true,
    if_false, ends_bind_read (ends_ListPlatforms observed_listPlatforms _ _), Artifacts.keys]
  rcases hk : reg.ListPlatforms job.TaskName job.ArtifactVersion with err | platforms
  · exact Iff.rfl
  · simp only
    split_ifs <;> exact Iff.rfl

/-- The pre-filter stopped a job that the plain dispatcher takes to the eligible workers. -/
structure Filtered (cfg : Config) (reg : Artifacts) (tasks : Tasks) (online : List String)
    (job : Job) (keys : List String) : Prop where
  filtered : platformsFor cfg reg tasks online job =
    (keys, some ⟨"no online workers for artifact platforms", true, false⟩)
  afresh : platformsAfresh cfg reg tasks job = (keys, none)
  known : (tasks.get job.TaskName).isSome
  nonempty : keys ≠ []
  offline : ∀ k ∈ keys, k ∉ online

lemma platformsFor_eq (cfg : Config) (reg : Artifacts) (tasks : Tasks) (online : List String)
    (job : Job) :
    platformsFor cfg reg tasks online job = platformsAfresh cfg reg tasks job ∨
      ∃ keys, Filtered cfg reg tasks online job keys := by
  rcases htask : tasks.get job.TaskName with _ | task
  · left
    simp only [platformsFor, platformsAfresh, htask, Option.isNone_none, if_true]
  rcases hreg : cfg.hasRegistry with _ | _
  · left
    simp only [platformsFor, platformsAfresh, htask, hreg]
    rfl
  rcases hk : reg.keys job.TaskName job.ArtifactVersion with err | keys
  · left
    simp only [platformsFor, platformsAfresh, hk]
  by_cases hne : keys = []
  · left
    simp only [platformsFor, platformsAfresh, hk, hne, if_true]
  by_cases hon : ∃ k ∈ keys, k ∈ online
  · left
    simp only [platformsFor, platformsAfresh, hk, hne, hon, if_false, if_true]
  · right
    refine ⟨keys, ?_, ?_, by rw [htask]; rfl, hne, fun k hk hin => hon ⟨k, hk, hin⟩⟩
    · simp [platformsFor, htask, hreg, hk, hne, hon]
    · simp [platformsAfresh, htask, hreg, hk, hne]

lemma dispatchJob_eq_finishTurn (job : Job) (online : List String) (c : Caches) :
    dispatchJob cfg job online c = jobPlatformKeysForDispatch cfg job online c >>= fun r =>
      finishTurn cfg job r.2 >>= fun d => pure (r.1, d) := by
  unfold dispatchJob
  congr 1
  funext r
  obtain ⟨c, keys, _ | d⟩ := r
  · simp only [finishTurn, bind_assoc]
    congr 1
    funext e
    rcases e with (_ | _ | _ | text) | _ <;> simp
  · simp only [finishTurn]
    split_ifs <;> simp

/-- The plain dispatcher finds nobody for a job the pre-filter stops. -/
lemma ends_finishTurn_filtered {keys : List String} (hsnap : Snapshot online x.world)
    (h : Filtered cfg reg x.world.tasks online job keys) (d : Option jobDeferral) (y : Observed) :
    Prog.Ends (observed cfg reg sel) (finishTurn cfg job (keys, none)) x d y ↔
      d = some ⟨"no elegible workers", true, false⟩ ∧ y = x := by
  obtain ⟨task, htask⟩ := Option.isSome_iff_exists.mp h.known
  have hoff : ∀ k ∈ keys, ∀ w ∈ World.listed x.world k, w.state ≠ .online :=
    fun k hk w hw hst => h.offline k hk (hsnap k ⟨w, hw, hst⟩)
  have htry (e : Except DispatchError Unit) (y : Observed) :
      Prog.Ends (observed cfg reg sel) (tryProposeJob cfg job keys) x e y ↔
        e = .error .ErrNoEledgibleWorkers ∧ y = x := by
    simp only [tryProposeJob, ends_bind_read (ends_GetTask observed_getTask _), htask,
      h.nonempty, and_false, if_false]
    rw [ends_bind_read fun b u =>
      ends_lift.trans (observed_eligibleWorkers h.nonempty hoff b u), if_pos rfl]
    exact Iff.rfl
  rw [finishTurn, ends_bind_read htry]
  exact Iff.rfl

/-- What the pass decides about a job, caches aside, is what the plain dispatcher decides, up to
the text of the reason. -/
lemma dispatchJob_iff (cfg : Config) (sel : Selector) (job : Job) (hc : Sound reg x.world.tasks c)
    (hsnap : Snapshot online x.world) :
    ∃ c', Sound reg x.world.tasks c' ∧
      (∀ r y, Prog.Ends (observed cfg reg sel) (dispatchJob cfg job online c) x r y → r.1 = c') ∧
      ∀ q y, (∃ d, Prog.Ends (observed cfg reg sel) (dispatchJob cfg job online c) x (c', d) y ∧
          d.map jobDeferral.shortage = q) ↔
        ∃ d, Prog.Ends (observed cfg reg sel) (plainDispatchJob cfg job) x d y ∧
          d.map jobDeferral.shortage = q := by
  have hget : ∀ name b y, observed cfg reg sel (.getTask name) x b y ↔
      b = x.world.tasks.get name ∧ y = x := observed_getTask
  obtain ⟨c', hc', hkeys⟩ :=
    ends_jobPlatformKeysForDispatch hget observed_listPlatforms cfg hc job online
  have hcached (r : Caches × Option jobDeferral) (y : Observed) :
      Prog.Ends (observed cfg reg sel) (dispatchJob cfg job online c) x r y ↔
        r.1 = c' ∧ Prog.Ends (observed cfg reg sel)
          (finishTurn cfg job (platformsFor cfg reg x.world.tasks online job)) x r.2 y := by
    rw [dispatchJob_eq_finishTurn, ends_bind_read hkeys, ends_bind]
    constructor
    · rintro ⟨d, u, hd, rfl, rfl⟩
      exact ⟨rfl, hd⟩
    · rintro ⟨h1, hd⟩
      exact ⟨r.2, y, hd, Prod.ext h1 rfl, rfl⟩
  refine ⟨c', hc', fun r y h => ((hcached r y).mp h).1, fun q y => ?_⟩
  simp only [hcached, true_and, plainDispatchJob, ends_bind_read ends_plainPlatformKeys]
  rcases platformsFor_eq cfg reg x.world.tasks online job with heq | ⟨keys, hf⟩
  · rw [heq]
  · -- the pre-filter defers where nobody is eligible: the shortage is the same
    rw [hf.filtered, hf.afresh]
    simp only [ends_finishTurn_filtered hsnap hf]
    constructor
    · rintro ⟨d, ⟨rfl, rfl⟩, hq⟩
      exact ⟨_, ⟨rfl, rfl⟩, hq⟩
    · rintro ⟨d, ⟨rfl, rfl⟩, hq⟩
      exact ⟨_, ⟨rfl, rfl⟩, hq⟩

end Job

/-! ### The loop -/

section Loop

variable {online : List String} {c : Caches}

def Popping : {β : Type} → Call β → Prop
  | _, .popItem => True
  | _, .cancelledRemove _ => True
  | _, c => Quiet c

lemma shrinks_popping {β : Type} {c : Call β} {s t : World} {b : β} (hc : Popping c)
    (h : exec cfg.toStores c s b t) : Shrinks s t := by
  have hu := untouched h
  refine .of_eq hu.tasks hu.workers hu.platform (hu.conns ?_)
  cases c <;> first | exact absurd hc id | nofun

lemma shrinks_pops {n : ℕ} {o : Option Job}
    (h : Prog.Ends (observed cfg reg sel) (PopNextJobFromQueue n) x o y) :
    Shrinks x.world y.world := by
  have hquiet {β : Type} (c : Call β) (hc : Quiet c) : Popping c := by
    cases c <;> first | exact hc | trivial
  have hends : Prog.Ends (exec cfg.toStores) (PopNextJobFromQueue n) x.world o y.world :=
    ends_map h fun he => he.1.1
  exact ends_of_uses (R := Shrinks) Shrinks.refl (fun _ _ _ => Shrinks.trans)
    (fun hc he => shrinks_popping hc he)
    (uses_PopNextJobFromQueue hquiet trivial (fun _ => trivial) n) hends

lemma shrinks_dispatchJob {job : Job} {r : Caches × Option jobDeferral}
    (h : Prog.Ends (observed cfg reg sel) (dispatchJob cfg job online c) x r y) :
    Shrinks x.world y.world := by
  have hends : Prog.Ends (against cfg reg) (dispatchJob cfg job online c) x.world r y.world :=
    ends_map h fun he => he.1
  rw [dispatchJob_eq] at hends
  obtain ⟨r', t, hex, -, rfl⟩ := ends_bind.mp hends
  exact shrinks_examine hex

lemma passLoop_iff (n : ℕ) (r r' : PassResult) (hc : Sound reg x.world.tasks c)
    (hsnap : Snapshot online x.world) :
    Prog.Ends (observed cfg reg sel) (passLoop cfg online n c r) x r' y ↔
      Prog.Ends (observed cfg reg sel) (plainLoop cfg n r) x r' y := by
  induction n generalizing x c r with
  | zero => exact Iff.rfl
  | succ n ih =>
    rw [passLoop, plainLoop, ends_bind, ends_bind]
    refine exists_congr fun o => exists_congr fun u => and_congr_right fun hpop => ?_
    cases o with
    | none => exact Iff.rfl
    | some job =>
      have hpops := shrinks_pops hpop
      have hc := hpops.tasks ▸ hc
      have hsnap := hpops.snapshot hsnap
      obtain ⟨c', hc', hfst, hiff⟩ := dispatchJob_iff cfg sel job hc hsnap
      -- after the same decision the two go on alike
      have hnext {d : Option jobDeferral} {v : Observed} (r : PassResult)
          (hd : Prog.Ends (observed cfg reg sel) (dispatchJob cfg job online c) u (c', d) v) :
          Prog.Ends (observed cfg reg sel) (passLoop cfg online n c' r) v r' y ↔
            Prog.Ends (observed cfg reg sel) (plainLoop cfg n r) v r' y := by
        have hsh := shrinks_dispatchJob hd
        exact ih r (hsh.tasks ▸ hc') (hsh.snapshot hsnap)
      constructor
      · intro h
        obtain ⟨⟨c'', d⟩, v, hd, hk⟩ := ends_bind.mp h
        obtain rfl : c'' = c' := hfst _ _ hd
        obtain ⟨d', hd', hq⟩ := (hiff _ v).mp ⟨d, hd, rfl⟩
        refine ends_bind.mpr ⟨d', v, hd', ?_⟩
        rcases d with _ | d <;> rcases d' with _ | d'
        · exact (hnext r hd).mp hk
        · cases hq
        · cases hq
        · rw [Option.map_some, Option.map_some, Option.some.injEq] at hq
          exact (hnext _ hd).mp (hq ▸ hk)
      · intro h
        obtain ⟨d', v, hd', hk⟩ := ends_bind.mp h
        obtain ⟨d, hd, hq⟩ := (hiff _ v).mpr ⟨d', hd', rfl⟩
        refine ends_bind.mpr ⟨(c', d), v, hd, ?_⟩
        rcases d with _ | d <;> rcases d' with _ | d'
        · exact (hnext r hd).mpr hk
        · cases hq
        · cases hq
        · rw [Option.map_some, Option.map_some, Option.some.injEq] at hq
          exact (hnext _ hd).mpr (hq ▸ hk)

end Loop

/-- **The caches and the pre-filter change nothing.** Against a fixed registry and whatever
selector, a pass and the plain dispatcher can end with the same shortage flags in the same shared
states, after the same questions to the selector with the same answers. -/
theorem processQueue_iff_plain (cfg : Config) (reg : Artifacts) (sel : Selector)
    (x y : Observed) (shortage : Bool) :
    Prog.Ends (observed cfg reg sel) (ProcessQueue cfg) x shortage y ↔
      Prog.Ends (observed cfg reg sel) (plainProcessQueue cfg) x shortage y := by
  rw [ProcessQueue, plainProcessQueue, ends_step, ends_step]
  refine exists_congr fun size => exists_congr fun u => and_congr_right fun _ => ?_
  split_ifs
  · exact Iff.rfl
  rw [ends_step, ends_step]
  refine exists_congr fun _ => exists_congr fun v => and_congr_right fun _ => ?_
  -- with any snapshot of the online platforms the loops can end alike
  have hloop {online : List String} (hsnap : Snapshot online v.world) :
      Prog.Ends (observed cfg reg sel)
        (do
          let r ← passLoop cfg online size ⟨∅, ∅⟩ ⟨[], false⟩
          EnqueueJobs r.deferred
          return r.shortage) v shortage y ↔
      Prog.Ends (observed cfg reg sel)
        (do
          let r ← plainLoop cfg size ⟨[], false⟩
          EnqueueJobs r.deferred
          return r.shortage) v shortage y := by
    rw [ends_bind, ends_bind]
    refine exists_congr fun r => exists_congr fun w => and_congr_left fun _ => ?_
    exact passLoop_iff size _ r (.empty _ _) hsnap
  rw [ends_step]
  constructor
  · rintro ⟨online, w, honline, h⟩
    obtain ⟨hsnap, rfl⟩ := snapshot_of_observed honline
    exact (hloop hsnap).mp h
  · intro h
    have hans : CanAnswer cfg.toStores .onlinePlatformKeys v.world := exists_exec (by trivial) _
    obtain ⟨online, t, hmem, rfl⟩ := hans
    have honline : observed cfg reg sel .onlinePlatformKeys v online v :=
      ⟨⟨⟨hmem, rfl⟩, trivial⟩, rfl⟩
    exact ⟨online, v, honline, (hloop (snapshot_of_observed honline).1).mpr h⟩

end Workforce.PlainPass
