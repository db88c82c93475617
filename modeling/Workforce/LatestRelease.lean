import Workforce.Releases

/-!
The latest release.

`Resolve` takes the first release of the sorted index that has the platform. Besides the index,
the published versions are counted here from the history alone: those whose publication succeeded
and whose artifact has not been deleted since. Where the directory keeps them over a restart, the
index has the same.
-/

namespace Workforce.LatestRelease

open Contract Runs FsRegistry Durability Releases

variable {env : Env} {s t : Registry} {v w : ArtifactVersion} {artifact os arch : String}

/-- The version is a release with a build for the platform. -/
def Offers (os arch : String) (v : ArtifactVersion) : Prop := ¬v.PreRelease ∧ Has os arch v

/-- `Resolve` finds nothing if none of the versions offers the platform, and otherwise a build of
one of them that offers it such that none that does was published later. -/
structure Latest (env : Env) (s : Registry) (artifact : String) (V : Set ArtifactVersion)
    (os arch : String) : Prop where
  none_iff : Resolve env s artifact os arch = none ↔ ∀ v ∈ V, ¬Offers os arch v
  latest : ∀ p, Resolve env s artifact os arch = some p → ∃ v ∈ V, ¬v.PreRelease ∧
    (∃ b ∈ v.Platforms, For os arch b ∧ p = withURL env b) ∧
      ∀ w ∈ V, Offers os arch w → w.PublishedAt ≤ v.PublishedAt

lemma resolve_step (v : ArtifactVersion) :
    (if v.PreRelease then none
      else (v.Platforms.find? fun p => For os arch p).map (withURL env)).isSome ↔
      Offers os arch v := by
  unfold Offers
  split_ifs with hpre
  · simp [hpre]
  · rw [Option.isSome_map, find_isSome_iff]
    simp [hpre]

lemma latest_of_indexed (h : Indexed s) (artifact os arch : String) :
    Latest env s artifact {v | v ∈ s.of artifact} os arch := by
  constructor
  · unfold Resolve
    rw [List.findSome?_eq_none_iff]
    refine forall₂_congr fun v _ => ?_
    rw [← Option.not_isSome_iff_eq_none, resolve_step]
  · intro p hp
    obtain ⟨before, v, after, heq, hv, hbefore⟩ := List.findSome?_eq_some_iff.mp hp
    have hsorted := h.sorted artifact
    rw [heq, List.pairwise_append, List.pairwise_cons] at hsorted
    refine ⟨v, by simp [heq], ?_⟩
    split_ifs at hv with hpre
    obtain ⟨b, hb, rfl⟩ := Option.map_eq_some_iff.mp hv
    refine ⟨hpre, ⟨b, List.mem_of_find?_eq_some hb, by simpa using List.find?_some hb, rfl⟩, ?_⟩
    intro w hw hoffers
    rw [Set.mem_ofPred_eq, heq, List.mem_append, List.mem_cons] at hw
    rcases hw with hw | rfl | hw
    · -- the entries before it do not offer the platform
      have hnone := hbefore w hw
      rw [← Option.not_isSome_iff_eq_none] at hnone
      exact absurd ((resolve_step w).mpr hoffers) hnone
    · exact le_rfl
    · exact hsorted.2.1.1 w hw

/-- A platform that the latest release lists is resolved to the build it lists. -/
lemma resolve_of_listed (h : Indexed s) {p : ArtifactPlatform}
    (hp : p ∈ ListPlatforms env s artifact "") :
    Resolve env s artifact p.OS p.Arch = some p := by
  unfold ListPlatforms at hp
  split at hp
  · rename_i v hfind
    obtain ⟨b, hb, rfl⟩ := List.mem_map.mp hp
    obtain ⟨hpre, before, after, heq, hbefore⟩ := List.find?_eq_some_iff_append.mp hfind
    have hmem : v ∈ s.of artifact := by simp [heq]
    have hpre : v.PreRelease = false := by simpa using hpre
    refine List.findSome?_eq_some_iff.mpr ⟨before, v, after, heq, ?_, fun w hw => ?_⟩
    · have hb' : v.Platforms.find? (fun p => For (withURL env b).OS (withURL env b).Arch p) =
          some b := find_of_mem (h.distinct artifact v hmem) hb ⟨rfl, rfl⟩
      rw [hpre, if_neg (by decide)]
      exact congrArg (Option.map (withURL env)) hb'
    · have hw : w.PreRelease = true := by simpa using hbefore w hw
      rw [if_pos hw]
  · cases hp

/-! ### The published versions -/

/-- The version that a publication makes known. -/
def published (env : Env) (version : ArtifactVersion) (written : List Binary) (now : Time) :
    ArtifactVersion := (stamped version (platformsOf env version written) now).stored

/-- The versions a successful operation adds, and those it leaves. -/
def next (env : Env) (V : Set ArtifactVersion) : Op × Bool → Set ArtifactVersion
  | (.publish version _ written now, true) => insert (published env version written now) V
  | (.delete artifact, true) => {v ∈ V | v.Artifact ≠ artifact}
  | _ => V

/-- The versions whose publication has succeeded and whose artifact has not been deleted since. -/
def publishedVersions (env : Env) (ls : List (Op × Bool)) : Set ArtifactVersion :=
  ls.foldl (next env) ∅

/-- The index has the versions with builds, up to what is not stored. -/
def Known (s : Registry) (V : Set ArtifactVersion) : Prop :=
  ∀ v, v.Platforms ≠ [] → (v ∈ V ↔ ∃ w ∈ s.of v.Artifact, w.stored = v)

variable {V : Set ArtifactVersion}

lemma known_publish {version : ArtifactVersion} {checked written : List Binary} {now : Time}
    (h : Known s V) :
    Known (Publish env .nothing s version checked written now).1
      (next env V (.publish version checked written now,
        (Publish env .nothing s version checked written now).2.isOk)) := by
  obtain ⟨hok, hversions, -⟩ | ⟨disk, platforms, hok, -, hstore, new, hnew, ht⟩ :=
    publish_cases env s version checked written now
  · rw [hok]
    intro v hv
    unfold Registry.of
    rw [hversions]
    exact h v hv
  rw [hok, ht]
  rw [platforms_eq hstore] at hnew
  intro v hv
  show v ∈ insert (published env version written now) V ↔ _
  rw [Set.mem_insert_iff, h v hv]
  simp only [mem_of_published]
  constructor
  · rintro (rfl | ⟨w, hw, hstored⟩)
    · exact ⟨new, .inr ⟨rfl, rfl⟩, by rw [hnew]; rfl⟩
    · exact ⟨w, .inl hw, hstored⟩
  · rintro ⟨w, hw | ⟨-, rfl⟩, hstored⟩
    · exact .inr ⟨w, hw, hstored⟩
    · exact .inl (by rw [← hstored, hnew]; rfl)

lemma known_delete (h : Known s V) (artifact : String) :
    Known (DeleteArtifact env s artifact).1
      (next env V (.delete artifact, (DeleteArtifact env s artifact).2)) := by
  unfold DeleteArtifact
  dsimp only
  split
  · exact h
  intro v hv
  show v ∈ V ∧ v.Artifact ≠ artifact ↔ _
  rw [h v hv, of_erase]
  split_ifs with ha
  · simp [ha]
  · simp [ha]

lemma known_restart {B : Set Build} (h : Known s V) (hdurable : Durable env s B) :
    Known { s with versions := loadAll env s.disk } V := by
  intro v hv
  rw [h v hv]
  constructor
  · rintro ⟨w, hw, rfl⟩
    exact ⟨w.stored, (mem_loaded hdurable hv).mpr ⟨w, hw, rfl⟩, rfl⟩
  · rintro ⟨w, hw, rfl⟩
    obtain ⟨w₀, hw₀, rfl⟩ := (mem_loaded hdurable (show w.Platforms ≠ [] from hv)).mp hw
    exact ⟨w₀, hw₀, rfl⟩

lemma known_run {tr : List (Registry × (Op × Bool))} {B : Set Build} (hrun : Run (step env) s tr t)
    (hsafe : Meets (fun s l => Safe env s l.1) tr) (hdurable : Durable env s B) (h : Known s V) :
    Known t ((tr.map Prod.snd).foldl (next env) V) := by
  induction hrun generalizing V B with
  | nil => exact h
  | @cons s u t l tr hstep _ ih =>
    rw [meets_cons] at hsafe
    refine ih hsafe.2 (durable_step hdurable hsafe.1 hstep) ?_
    obtain ⟨op, ok⟩ := l
    cases op with
    | publish version checked written now =>
      obtain ⟨-, -, rfl, hok⟩ := hstep
      rw [show ok = _ from hok]
      exact known_publish h
    | delete artifact =>
      obtain ⟨rfl, rfl⟩ := Prod.mk.inj (show (u, ok) = DeleteArtifact env s artifact from hstep)
      exact known_delete h artifact
    | restart =>
      obtain ⟨rfl, rfl⟩ := hstep
      exact known_restart h hdurable

lemma Offers.ne_nil (h : Offers os arch v) : v.Platforms ≠ [] := by
  obtain ⟨-, p, hp, -⟩ := h
  exact List.ne_nil_of_mem hp

lemma Latest.of_known (h : Known s V)
    (hnamed : ∀ w ∈ s.of artifact, w.Platforms ≠ [] → w.Artifact = artifact)
    (hlatest : Latest env s artifact {v | v ∈ s.of artifact} os arch) :
    Latest env s artifact {v ∈ V | v.Artifact = artifact} os arch := by
  have hto : ∀ w ∈ s.of artifact, Offers os arch w →
      w.stored ∈ ({v ∈ V | v.Artifact = artifact} : Set ArtifactVersion) := by
    intro w hw hoffers
    have hart := hnamed w hw hoffers.ne_nil
    exact ⟨(h w.stored hoffers.ne_nil).mpr ⟨w, by rw [← hart] at hw; exact hw, rfl⟩, hart⟩
  have hof : ∀ v ∈ ({v ∈ V | v.Artifact = artifact} : Set ArtifactVersion), Offers os arch v →
      ∃ w ∈ s.of artifact, w.stored = v := by
    rintro v ⟨hv, rfl⟩ hoffers
    exact (h v hoffers.ne_nil).mp hv
  constructor
  · rw [hlatest.none_iff]
    constructor
    · intro hnone v hv hoffers
      obtain ⟨w, hw, rfl⟩ := hof v hv hoffers
      exact hnone w hw hoffers
    · intro hnone w hw hoffers
      exact hnone w.stored (hto w hw hoffers) hoffers
  · intro p hp
    obtain ⟨v, hv, hpre, ⟨b, hb, hfor, rfl⟩, hmax⟩ := hlatest.latest p hp
    refine ⟨v.stored, hto v hv ⟨hpre, b, hb, hfor⟩, hpre, ⟨b, hb, hfor, rfl⟩, ?_⟩
    intro w hw hoffers
    obtain ⟨w₀, hw₀, rfl⟩ := hof w hw hoffers
    exact hmax w₀ hw₀ hoffers

/-- **The latest release.** In every state of the registry the index is sorted, `Resolve` gives a
build of the latest release in it that has the platform, and a platform that is listed for the
latest release resolves to the build that is listed. Where restarts keep what was published, the
releases are those that were published and not deleted. -/
theorem resolve_latest (env : Env) {tr : List (Registry × (Op × Bool))} {t : Registry}
    (hrun : Run (step env) .fresh tr t) (artifact : String) :
    (t.of artifact).Pairwise (fun v w => w.PublishedAt ≤ v.PublishedAt) ∧
    (∀ os arch, Latest env t artifact {v | v ∈ t.of artifact} os arch) ∧
    (∀ p ∈ ListPlatforms env t artifact "", Resolve env t artifact p.OS p.Arch = some p) ∧
    (Meets (fun s l => Safe env s l.1) tr → ∀ os arch, Latest env t artifact
      {v ∈ publishedVersions env (tr.map Prod.snd) | v.Artifact = artifact} os arch) := by
  have h := indexed_run hrun
  refine ⟨h.sorted artifact, latest_of_indexed h artifact, fun p hp => resolve_of_listed h hp,
    fun hsafe os arch => ?_⟩
  have hdurable := durable_run hrun hsafe (durable_fresh env)
  have hknown : Known .fresh ∅ := fun v _ => ⟨fun hv => hv.elim, fun ⟨w, hw, _⟩ => nomatch hw⟩
  refine (latest_of_indexed h artifact os arch).of_known
    (known_run hrun hsafe (durable_fresh env) hknown) fun w hw hp => ?_
  exact (hdurable.saved artifact w hw hp).1

theorem resolve_latest_together :
    Resolve demo restarted "a" "linux" "amd64" ≠ none ∧
      ∀ p ∈ ListPlatforms demo restarted "a" "",
        Resolve demo restarted "a" p.OS p.Arch = some p := by
  obtain ⟨-, -, hlisted, hpublished⟩ := resolve_latest demo restarted_run "a"
  refine ⟨?_, hlisted⟩
  rw [Ne, (hpublished restarted_safe "linux" "amd64").none_iff]
  intro hnone
  refine hnone (published demo Durability.version both 5) ⟨.inl rfl, rfl⟩ ⟨by decide, ?_⟩
  exact ⟨_, List.mem_cons_self, by decide⟩

def nested : ArtifactVersion := { Artifact := "a", Version := "release/1" }

def stored : Registry :=
  (Publish demo .nothing .fresh nested linux linux 5).1

def reloaded : Registry := { stored with versions := loadAll demo stored.disk }

def reloadedRun : List (Registry × (Op × Bool)) :=
  [(.fresh, .publish nested linux linux 5, true),
    (stored, .restart, true)]

/-- **A restart reads one level of directories.** A version with a slash in its name is published
in one call and resolves; after a restart it does not. -/
theorem nested_version_lost :
    Run (step demo) .fresh reloadedRun reloaded ∧
      (Resolve demo stored "a" "linux" "amd64").isSome ∧
      Resolve demo reloaded "a" "linux" "amd64" = none ∧
      ¬Latest demo reloaded "a"
        {v ∈ publishedVersions demo (reloadedRun.map Prod.snd) | v.Artifact = "a"}
        "linux" "amd64" := by
  refine ⟨.cons ⟨.refl _, by decide, rfl, by decide⟩ (.cons ⟨rfl, rfl⟩ (.nil _)), by decide,
    by decide, fun h => ?_⟩
  have hnone := h.none_iff.mp (by decide)
  exact hnone (published demo nested [("linux_amd64", some [1])] 5) ⟨.inl rfl, rfl⟩
    ⟨by decide, _, List.mem_cons_self, by decide⟩

end Workforce.LatestRelease
