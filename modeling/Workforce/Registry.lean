import Workforce.Footprints

/-!
The lookups of a pass against a registry that keeps its answers: what the caches remember is
what a fresh lookup would say.
-/

namespace Workforce.Registry

open Contract Progs Shared Calls Handlers Dispatcher

/-- A registry that answers the same question the same way. -/
structure Artifacts where
  ListPlatforms : String → String → Except String (List ArtifactPlatform)
  Resolve : String → String → String → String → Except String ArtifactPlatform

namespace Artifacts

variable (reg : Artifacts)

def Answers : {β : Type} → Call β → β → Prop
  | _, .listPlatforms task version, r => r = reg.ListPlatforms task version
  | _, .resolve task version os arch, r => r = reg.Resolve task version os arch
  | _, _, _ => True

def keys (task version : String) : Except String (List String) :=
  match reg.ListPlatforms task version with
  | .error err => .error err
  | .ok platforms => .ok (platforms.map fun p => platformKey p.OS p.Arch)

end Artifacts

/-- What a call does when the registry is `reg`. -/
def against (cfg : Config) (reg : Artifacts) {β : Type} (c : Call β) (s : World) (b : β)
    (t : World) : Prop :=
  exec cfg.toStores c s b t ∧ reg.Answers c b

/-- What `jobPlatformKeysForDispatch` decides, without its caches. -/
def platformsFor (cfg : Config) (reg : Artifacts) (tasks : Tasks) (online : List String)
    (job : Job) : List String × Option jobDeferral :=
  if (tasks.get job.TaskName).isNone then
    ([], some ⟨"unknown task: " ++ job.TaskName, false, true⟩)
  else if !cfg.hasRegistry then ([], none)
  else match reg.keys job.TaskName job.ArtifactVersion with
    | .error err => ([], some ⟨"list platforms: " ++ err, false, false⟩)
    | .ok keys =>
      if keys = [] then ([], some ⟨"no artifact platform available", false, false⟩)
      else if ∃ k ∈ keys, k ∈ online then (keys, none)
      else (keys, some ⟨"no online workers for artifact platforms", true, false⟩)

section Platforms

variable {cfg : Config} {reg : Artifacts} {tasks : Tasks} {online keys : List String} {job : Job}

lemma platformsFor_none (h : platformsFor cfg reg tasks online job = (keys, none)) :
    if cfg.hasRegistry then
      keys ≠ [] ∧ reg.keys job.TaskName job.ArtifactVersion = .ok keys else keys = [] := by
  unfold platformsFor at h
  split_ifs at h with _ hreg
  · cases (Prod.mk.inj h).2
  · rw [if_neg (by simpa using hreg)]
    exact (Prod.mk.inj h).1.symm
  · rw [if_pos (by simpa using hreg)]
    split at h
    · cases (Prod.mk.inj h).2
    · rename_i keys' hkeys
      split_ifs at h with hnil
      · cases (Prod.mk.inj h).2
      · obtain rfl := (Prod.mk.inj h).1
        exact ⟨hnil, hkeys⟩
      · cases (Prod.mk.inj h).2

/-- Only the pre-filter defers for a shortage. -/
lemma platformsFor_shortage {d : jobDeferral}
    (h : platformsFor cfg reg tasks online job = (keys, some d)) (hd : d.shortage = true) :
    cfg.hasRegistry = true ∧ reg.keys job.TaskName job.ArtifactVersion = .ok keys ∧
      ∀ k ∈ keys, k ∉ online := by
  unfold platformsFor at h
  split_ifs at h with _ hreg
  · obtain rfl := Option.some.inj (Prod.mk.inj h).2
    cases hd
  · cases (Prod.mk.inj h).2
  · refine ⟨by simpa using hreg, ?_⟩
    split at h
    · obtain rfl := Option.some.inj (Prod.mk.inj h).2
      cases hd
    · rename_i keys' hkeys
      split_ifs at h with hnil hon
      · obtain rfl := Option.some.inj (Prod.mk.inj h).2
        cases hd
      · cases (Prod.mk.inj h).2
      · obtain rfl := (Prod.mk.inj h).1
        exact ⟨hkeys, fun k hk hin => hon ⟨k, hk, hin⟩⟩

end Platforms

/-- The caches hold answers of the task store and of the registry. -/
structure Sound (reg : Artifacts) (tasks : Tasks) (c : Caches) : Prop where
  task : ∀ name ∈ c.task, (tasks.get name).isSome
  platform : ∀ key keys, c.platform.lookup key = some keys → reg.keys key.1 key.2 = .ok keys

lemma Sound.empty (reg : Artifacts) (tasks : Tasks) : Sound reg tasks ⟨∅, ∅⟩ where
  task := fun _ h => absurd h (Finset.notMem_empty _)
  platform := fun key keys h => by simp at h

section Lookups

variable {reg : Artifacts} {tasks : Tasks} {c : Caches}

lemma Sound.insert_task (h : Sound reg tasks c) (name : String) (hn : (tasks.get name).isSome) :
    Sound reg tasks { c with task := insert name c.task } where
  task := fun n hm => by
    rcases Finset.mem_insert.mp hm with rfl | hm
    · exact hn
    · exact h.task n hm
  platform := h.platform

lemma Sound.insert_platform (h : Sound reg tasks c) (key : String × String) {keys : List String}
    (hk : reg.keys key.1 key.2 = .ok keys) :
    Sound reg tasks { c with platform := c.platform.insert key keys } where
  task := h.task
  platform := fun k ks hl => by
    by_cases hkey : k = key
    · subst hkey
      rw [AList.lookup_insert, Option.some.injEq] at hl
      exact hl ▸ hk
    · exact h.platform k ks (by rwa [AList.lookup_insert_ne hkey] at hl)

/-! The lookups are made in any state, shared by the pass and whatever observes it, in which the
stores answer as they should. -/

variable {σ : Type} {run : ∀ {β : Type}, Call β → σ → β → σ → Prop} {x : σ}
variable (hget : ∀ name b y, run (.getTask name) x b y ↔ b = tasks.get name ∧ y = x)
variable (hlist : ∀ task version b y, run (.listPlatforms task version) x b y ↔
  b = reg.ListPlatforms task version ∧ y = x)

include hget in
lemma ends_GetTask (name : String) (b : Option Task) (y : σ) :
    Prog.Ends run (GetTask name) x b y ↔ b = tasks.get name ∧ y = x :=
  ends_lift.trans (hget name b y)

include hget in
lemma ends_knownTask (hs : Sound reg tasks c) (job : Job) (r : Bool) (y : σ) :
    Prog.Ends run (knownTask job c) x r y ↔ r = (tasks.get job.TaskName).isSome ∧ y = x := by
  unfold knownTask
  split_ifs with hmem
  · rw [hs.task _ hmem]
    exact Iff.rfl
  · rw [ends_bind_read (ends_GetTask hget _)]
    exact Iff.rfl

include hlist in
lemma ends_ListPlatforms (task version : String) (b : Except String (List ArtifactPlatform))
    (y : σ) : Prog.Ends run (ListPlatforms task version) x b y ↔
      b = reg.ListPlatforms task version ∧ y = x :=
  ends_lift.trans (hlist task version b y)

include hlist in
lemma ends_platformKeysOf (hs : Sound reg tasks c) (job : Job) :
    ∃ c', Sound reg tasks c' ∧ ∀ r y, Prog.Ends run (platformKeysOf job c) x r y ↔
      r = (c', reg.keys job.TaskName job.ArtifactVersion) ∧ y = x := by
  rcases hc : c.platform.lookup (job.TaskName, job.ArtifactVersion) with _ | keys
  · simp only [platformKeysOf, hc, Artifacts.keys,
      ends_bind_read (ends_ListPlatforms hlist _ _)]
    rcases hk : reg.ListPlatforms job.TaskName job.ArtifactVersion with err | platforms
    · exact ⟨c, hs, fun r y => Iff.rfl⟩
    · refine ⟨_, hs.insert_platform (job.TaskName, job.ArtifactVersion) ?_, fun r y => Iff.rfl⟩
      simp only [Artifacts.keys, hk]
  · refine ⟨c, hs, fun r y => ?_⟩
    rw [hs.platform _ _ hc]
    simp only [platformKeysOf, hc]
    exact Iff.rfl

include hget hlist in
/-- **The caches are transparent.** The lookups decide what fresh ones would. -/
theorem ends_jobPlatformKeysForDispatch (cfg : Config) (hs : Sound reg tasks c) (job : Job)
    (online : List String) :
    ∃ c', Sound reg tasks c' ∧ ∀ r y,
      Prog.Ends run (jobPlatformKeysForDispatch cfg job online c) x r y ↔
        r = (c', platformsFor cfg reg tasks online job) ∧ y = x := by
  simp only [jobPlatformKeysForDispatch, ends_bind_read (ends_knownTask hget hs job)]
  rcases htask : tasks.get job.TaskName with _ | task
  · refine ⟨c, hs, fun r y => ?_⟩
    simp only [platformsFor, htask, Option.isSome_none, Bool.not_false, if_true,
      Option.isNone_none]
    exact Iff.rfl
  have hs' := hs.insert_task job.TaskName (by rw [htask]; rfl)
  rcases hreg : cfg.hasRegistry with _ | _
  · refine ⟨_, hs', fun r y => ?_⟩
    simp only [platformsFor, htask, hreg]
    exact Iff.rfl
  obtain ⟨c', hc', hends⟩ := ends_platformKeysOf hlist hs' job
  refine ⟨c', hc', fun r y => ?_⟩
  simp only [platformsFor, htask, hreg, Option.isSome_some, Bool.not_true, Option.isNone_some,
    Bool.false_eq_true, if_false, ends_bind_read hends]
  rcases hk : reg.keys job.TaskName job.ArtifactVersion with err | keys
  · exact Iff.rfl
  · simp only
    split_ifs <;> exact Iff.rfl

end Lookups

section Against

variable {cfg : Config} {reg : Artifacts} {s : World}

lemma against_getTask (name : String) (b : Option Task) (t : World) :
    against cfg reg (.getTask name) s b t ↔ b = s.tasks.get name ∧ t = s :=
  and_iff_left trivial

lemma against_listPlatforms (task version : String) (b : Except String (List ArtifactPlatform))
    (t : World) : against cfg reg (.listPlatforms task version) s b t ↔
      b = reg.ListPlatforms task version ∧ t = s := and_comm

end Against

end Workforce.Registry
