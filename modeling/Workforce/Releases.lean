import Workforce.Durability

/-!
The index of the registry, and the lookups the dispatcher makes in it.

The entries of an artifact are sorted by the time of their publication, the latest first. Two
lookups stop at the first entry that fits, whatever platforms it has; the other two go on to the
first that has the platform. They agree where the builds of a version are in one entry.
-/

namespace Workforce.Releases

open Contract Runs FsRegistry Durability

variable {env : Env} {s t : Registry} {disk disk' : Disk} {v w : ArtifactVersion}
  {artifact os arch : String}

abbrev For (os arch : String) (p : ArtifactPlatform) : Prop := p.OS = os ∧ p.Arch = arch

def Has (os arch : String) (v : ArtifactVersion) : Prop := ∃ p ∈ v.Platforms, For os arch p

/-- The version has one build for each of its platforms. -/
def Distinct (v : ArtifactVersion) : Prop := (v.Platforms.map fun p => (p.OS, p.Arch)).Nodup

lemma find_isSome_iff : (v.Platforms.find? fun p => For os arch p).isSome ↔ Has os arch v := by
  simp [Has]

variable {p : ArtifactPlatform}

lemma find_of_mem (h : Distinct v) (hp : p ∈ v.Platforms) (hfor : For os arch p) :
    v.Platforms.find? (fun p => For os arch p) = some p := by
  obtain ⟨q, hq⟩ := Option.isSome_iff_exists.mp (find_isSome_iff.mpr ⟨p, hp, hfor⟩)
  have hmatch : For os arch q := by simpa using List.find?_some hq
  have hkey : (q.OS, q.Arch) = (p.OS, p.Arch) := by rw [hmatch.1, hmatch.2, hfor.1, hfor.2]
  rw [hq, List.inj_on_of_nodup_map h (List.mem_of_find?_eq_some hq) hp hkey]

/-! ### The index -/

/-- The entries of every artifact are sorted, the latest first, and have one build for each of
their platforms, in memory and on disk. -/
structure Indexed (s : Registry) : Prop where
  sorted : ∀ a, (s.of a).Pairwise fun v w => w.PublishedAt ≤ v.PublishedAt
  distinct : ∀ a, ∀ v ∈ s.of a, Distinct v
  stored : ∀ q m, s.disk.file q = some (.metadata m) → Distinct m

variable {version : ArtifactVersion} {written : List Binary}

lemma exists_key (h : p ∈ platformsOf env version written) :
    ∃ b ∈ written, splitPlatformKey b.1 = some (p.OS, p.Arch) := by
  obtain ⟨b, hb, hp⟩ := List.mem_filterMap.mp h
  refine ⟨b, hb, ?_⟩
  unfold platformOf at hp
  split at hp
  · rename_i os arch data hkey hdata
    cases hp
    exact hkey
  · cases hp

lemma distinct_platformsOf (h : (written.map Prod.fst).Nodup) :
    ((platformsOf env version written).map fun p => (p.OS, p.Arch)).Nodup := by
  induction written with
  | nil => exact List.nodup_nil
  | cons b rest ih =>
    rw [List.map_cons, List.nodup_cons] at h
    have hcons : platformsOf env version ([b] ++ rest) =
        platformsOf env version [b] ++ platformsOf env version rest := by
      exact List.filterMap_append
    rw [← List.singleton_append, hcons, List.map_append, List.nodup_append]
    refine ⟨?_, ih h.2, fun key hkey key' hkey' heq => h.1 ?_⟩
    · rw [platformsOf, List.filterMap_cons]
      split <;> simp
    · -- the same platform comes from the same key
      obtain ⟨p, hp, rfl⟩ := List.mem_map.mp hkey
      obtain ⟨q, hq, rfl⟩ := List.mem_map.mp hkey'
      obtain ⟨c, hc, hsplit⟩ := exists_key hp
      obtain ⟨c', hc', hsplit'⟩ := exists_key hq
      rw [heq] at hsplit
      rw [List.mem_singleton] at hc
      rw [← hc, splitPlatformKey_inj hsplit hsplit']
      exact List.mem_map_of_mem hc'

lemma distinct_stamped {platforms : List ArtifactPlatform} {now : Time}
    (h : storeBinaries env .nothing version disk written = (disk', .ok platforms))
    (hnodup : (written.map Prod.fst).Nodup) : Distinct (stamped version platforms now) := by
  rw [platforms_eq h]
  exact distinct_platformsOf hnodup

lemma indexed_publish {checked : List Binary} {now : Time} (h : Indexed s)
    (hnodup : (written.map Prod.fst).Nodup) :
    Indexed (Publish env .nothing s version checked written now).1 := by
  obtain ⟨-, hversions, hdisk⟩ | ⟨disk, platforms, -, -, hstore, new, rfl, ht⟩ :=
    publish_cases env s version checked written now
  · have hof : ∀ a, (Publish env .nothing s version checked written now).1.of a = s.of a := fun a => by
      unfold Registry.of; rw [hversions]
    refine ⟨fun a => hof a ▸ h.sorted a, fun a => hof a ▸ h.distinct a, fun q m hq => ?_⟩
    refine h.stored q m ?_
    rcases hdisk with hdisk | hdisk <;> rw [hdisk] at hq
    · exact hq
    · exact (metadata_storeBinaries env version written s.disk q m).mp hq
  rw [ht]
  have hdistinct : Distinct (stamped version platforms now) := distinct_stamped hstore hnodup
  refine ⟨fun a => ?_, fun a v hv => ?_, fun q m hq => ?_⟩
  · rw [of_insert]
    split_ifs
    · exact env.sorted _
    · exact h.sorted a
  · rcases (mem_of_published _ _ _).mp hv with hv | ⟨-, rfl⟩
    · exact h.distinct a v hv
    · exact hdistinct
  · rw [file_put] at hq
    split_ifs at hq
    · cases hq
      exact hdistinct
    · have hmeta := metadata_storeBinaries env version written s.disk q m
      rw [hstore] at hmeta
      exact h.stored q m (hmeta.mp hq)

lemma of_delete (env : Env) (s : Registry) (artifact a : String) :
    (DeleteArtifact env s artifact).1.of a = s.of a ∨
      (DeleteArtifact env s artifact).1.of a = [] := by
  unfold DeleteArtifact
  dsimp only
  split
  · exact .inl rfl
  · rw [of_erase]
    split_ifs
    · exact .inr rfl
    · exact .inl rfl

lemma indexed_delete (h : Indexed s) (artifact : String) :
    Indexed (DeleteArtifact env s artifact).1 := by
  refine ⟨fun a => ?_, fun a v hv => ?_, fun q m hq => ?_⟩
  · rcases of_delete env s artifact a with hof | hof <;> rw [hof]
    · exact h.sorted a
    · exact .nil
  · rcases of_delete env s artifact a with hof | hof <;> rw [hof] at hv
    · exact h.distinct a v hv
    · cases hv
  · unfold DeleteArtifact at hq
    dsimp only at hq
    split at hq
    · exact h.stored q m hq
    · rw [file_RemoveAll] at hq
      split_ifs at hq
      exact h.stored q m hq

lemma sorted_loadAll (env : Env) (disk : Disk) (a : String) :
    (Registry.of ⟨disk, loadAll env disk⟩ a).Pairwise fun v w => w.PublishedAt ≤ v.PublishedAt := by
  unfold Registry.of loadAll
  rw [lookup_foldl_insert]
  split_ifs
  · exact env.sorted _
  · exact .nil

lemma indexed_restart (h : Indexed s) : Indexed { s with versions := loadAll env s.disk } := by
  refine ⟨sorted_loadAll env s.disk, fun a v hv => ?_, h.stored⟩
  obtain ⟨-, x, -, hfile⟩ := mem_loadAll.mp hv
  exact h.stored _ v hfile

variable {l : Op × Bool}

lemma indexed_step (h : Indexed s) (hstep : step env s l t) : Indexed t := by
  obtain ⟨op, ok⟩ := l
  cases op with
  | publish version checked written now =>
    obtain ⟨-, hnodup, rfl, -⟩ := hstep
    exact indexed_publish h hnodup
  | delete artifact =>
    have ht : t = (DeleteArtifact env s artifact).1 := congrArg Prod.fst hstep
    rw [ht]
    exact indexed_delete h artifact
  | restart =>
    obtain ⟨rfl, -⟩ := hstep
    exact indexed_restart h

lemma indexed_fresh : Indexed .fresh :=
  ⟨fun _ => .nil, (fun _ _ h => nomatch h), fun _ _ h => nomatch h⟩

lemma indexed_run {tr : List (Registry × (Op × Bool))} (hrun : Run (step env) .fresh tr t) :
    Indexed t :=
  hrun.invariant (G := fun _ _ => True) (fun _ _ _ h _ hstep => indexed_step h hstep)
    (fun _ _ => trivial) indexed_fresh t Run.last_mem

/-! ### One version -/

def entries (s : Registry) (artifact version : String) : List ArtifactVersion :=
  (s.of artifact).filter fun v => v.Version = version

/-- No entry of the version but the first has builds. -/
def Sole (s : Registry) (artifact version : String) : Prop :=
  ∀ v ∈ (entries s artifact version).tail, v.Platforms = []

/-- A build for the platform is listed exactly if one is resolved, and it is the same. -/
def Agrees (env : Env) (s : Registry) (artifact version os arch : String) : Prop :=
  ((∃ p ∈ ListPlatforms env s artifact version, For os arch p) ↔
      (ResolveVersion env s artifact version os arch).isSome) ∧
    ∀ p ∈ ListPlatforms env s artifact version, For os arch p →
      ∀ q, ResolveVersion env s artifact version os arch = some q → p.Hash = q.Hash

/-- The builds of one version in different entries are for different platforms. -/
def Apart (v w : ArtifactVersion) : Prop :=
  v.Version = w.Version → ∀ p ∈ v.Platforms, ¬Has p.OS p.Arch w

lemma Apart.symm (h : Apart v w) : Apart w v := by
  rintro hversion p hp ⟨q, hq, hos, harch⟩
  exact h hversion.symm q hq ⟨p, hp, hos.symm, harch.symm⟩

lemma mem_listPlatforms {version : String} (hversion : version ≠ "") :
    p ∈ ListPlatforms env s artifact version ↔
      ∃ v ∈ (entries s artifact version).head?, ∃ b ∈ v.Platforms, withURL env b = p := by
  unfold ListPlatforms entries
  rw [List.head?_filter]
  simp only [hversion, ne_eq, not_false_eq_true, if_true]
  cases (s.of artifact).find? fun v => decide (v.Version = version) <;> simp

lemma findPlatformLocked_eq {version : String} :
    findPlatformLocked s artifact version os arch =
      (entries s artifact version).findSome? fun v => v.Platforms.find? fun p => For os arch p := by
  unfold findPlatformLocked entries
  induction s.of artifact with
  | nil => rfl
  | cons v l ih =>
    rw [List.findSome?_cons, ih, List.filter_cons]
    by_cases hv : v.Version = version
    · simp [hv, List.findSome?_cons]
    · simp [hv]

lemma resolveVersion_isSome {version : String} :
    (ResolveVersion env s artifact version os arch).isSome ↔
      ∃ v ∈ entries s artifact version, Has os arch v := by
  rw [ResolveVersion, Option.isSome_map, findPlatformLocked_eq, List.findSome?_isSome_iff]
  simp only [find_isSome_iff]

lemma resolveVersion_of_head {version : String} {b : ArtifactPlatform}
    (hdistinct : ∀ v ∈ s.of artifact, Distinct v) (hv : v ∈ (entries s artifact version).head?)
    (hb : b ∈ v.Platforms) (hfor : For os arch b) :
    ResolveVersion env s artifact version os arch = some (withURL env b) := by
  have hmem : v ∈ s.of artifact := (List.mem_filter.mp (List.mem_of_mem_head? hv)).1
  rw [ResolveVersion, findPlatformLocked_eq]
  rcases hes : entries s artifact version with _ | ⟨v', rest⟩ <;> rw [hes] at hv
  · cases hv
  · cases hv
    rw [List.findSome?_cons, find_of_mem (hdistinct v hmem) hb hfor]
    rfl

lemma agrees_iff {version : String} (hversion : version ≠ "")
    (hdistinct : ∀ v ∈ s.of artifact, Distinct v) (hapart : (s.of artifact).Pairwise Apart) :
    (∀ os arch, Agrees env s artifact version os arch) ↔ Sole s artifact version := by
  have hversions : ∀ v ∈ entries s artifact version, v.Version = version := fun v hv => by
    simpa using (List.mem_filter.mp hv).2
  have hapart : (entries s artifact version).Pairwise Apart := hapart.filter _
  constructor
  · intro h w hw
    obtain ⟨v, rest, heq⟩ : ∃ v rest, entries s artifact version = v :: rest := by
      rcases hes : entries s artifact version with _ | ⟨v, rest⟩
      · rw [hes] at hw
        cases hw
      · exact ⟨v, rest, rfl⟩
    rw [heq] at hw hapart hversions
    rw [List.eq_nil_iff_forall_not_mem]
    intro p hp
    have hres : (ResolveVersion env s artifact version p.OS p.Arch).isSome := by
      rw [resolveVersion_isSome, heq]
      exact ⟨w, List.mem_cons_of_mem _ hw, p, hp, rfl, rfl⟩
    -- what is resolved is listed, so the first entry has the platform as well
    obtain ⟨q, hq, hfor⟩ := (h p.OS p.Arch).1.mpr hres
    obtain ⟨v', hv', b, hb, rfl⟩ := (mem_listPlatforms hversion).mp hq
    rw [heq] at hv'
    cases hv'
    refine (List.rel_of_pairwise_cons hapart hw).symm ?_ p hp ⟨b, hb, hfor⟩
    rw [hversions w (List.mem_cons_of_mem _ hw), hversions v List.mem_cons_self]
  · intro h os arch
    refine ⟨⟨?_, fun hres => ?_⟩, ?_⟩
    · rintro ⟨p, hp, hfor⟩
      obtain ⟨v, hv, b, hb, rfl⟩ := (mem_listPlatforms hversion).mp hp
      exact resolveVersion_isSome.mpr ⟨v, List.mem_of_mem_head? hv, b, hb, hfor⟩
    · obtain ⟨v, hv, b, hb, hfor⟩ := resolveVersion_isSome.mp hres
      refine ⟨withURL env b, (mem_listPlatforms hversion).mpr ⟨v, ?_, b, hb, rfl⟩, hfor⟩
      -- an entry with a build is the first
      unfold Sole at h
      rcases hes : entries s artifact version with _ | ⟨v', rest⟩ <;> rw [hes] at h hv
      · cases hv
      · rcases List.mem_cons.mp hv with rfl | hv
        · rfl
        · rw [h v hv] at hb
          cases hb
    · intro p hp hfor q hq
      obtain ⟨v, hv, b, hb, rfl⟩ := (mem_listPlatforms hversion).mp hp
      rw [resolveVersion_of_head hdistinct hv hb hfor] at hq
      cases hq
      rfl

/-! ### Publications and deletions -/

/-- The version that a publication adds if it succeeds. -/
def Adds (env : Env) (s : Registry) (new : ArtifactVersion) : Op → Prop
  | .publish version checked written now => checked.Perm written ∧
      checkConflicts s version checked = .ok () ∧
        new = stamped version (platformsOf env version written) now
  | _ => False

/-- What a publication or a deletion does to the entries of an artifact. -/
lemma of_step (hstep : step env s l t) (hl : l.1 ≠ .restart) (a : String) :
    t.of a = s.of a ∨ t.of a = [] ∨
      ∃ new, Adds env s new l.1 ∧ new.Artifact = a ∧ t.of a = env.sort (s.of a ++ [new]) := by
  obtain ⟨op, ok⟩ := l
  cases op with
  | publish version checked written now =>
    obtain ⟨hperm, -, rfl, -⟩ := hstep
    obtain ⟨-, hversions, -⟩ | ⟨disk, platforms, -, hcheck, hstore, new, hnew, ht⟩ :=
      publish_cases env s version checked written now
    · left
      unfold Registry.of
      rw [hversions]
    rw [ht, of_insert]
    split_ifs with ha
    · rw [platforms_eq hstore] at hnew
      exact .inr (.inr ⟨new, ⟨hperm, hcheck, hnew⟩, by rw [hnew, ha]; rfl, by rw [ha]⟩)
    · exact .inl rfl
  | delete artifact =>
    have ht : t = (DeleteArtifact env s artifact).1 := congrArg Prod.fst hstep
    rw [ht]
    rcases of_delete env s artifact a with hof | hof
    · exact .inl hof
    · exact .inr (.inl hof)
  | restart => exact absurd rfl hl

/-- What holds between any two entries of an artifact goes on to hold if it holds between those
that are there and one that is added. -/
lemma pairwise_step {R : ArtifactVersion → ArtifactVersion → Prop} (hsymm : ∀ {v w}, R v w → R w v)
    (h : ∀ a, (s.of a).Pairwise R) (hl : l.1 ≠ .restart)
    (hnew : ∀ new, Adds env s new l.1 → ∀ v ∈ s.of new.Artifact, R v new) (hstep : step env s l t)
    (a : String) : (t.of a).Pairwise R := by
  obtain hof | hof | ⟨new, hadds, rfl, hof⟩ := of_step hstep hl a <;> rw [hof]
  · exact h a
  · exact .nil
  · rw [(env.perm _).pairwise_iff hsymm, List.pairwise_append]
    refine ⟨h _, List.pairwise_singleton _ _, fun v hv w hw => ?_⟩
    rw [List.mem_singleton.mp hw]
    exact hnew new hadds v hv

lemma apart_of_adds {new : ArtifactVersion} {op : Op} (hadds : Adds env s new op)
    (hv : v ∈ s.of new.Artifact) : Apart v new := by
  cases op with
  | publish version checked written now =>
    obtain ⟨hperm, hcheck, rfl⟩ := hadds
    refine Apart.symm fun hversion p hp ⟨q, hq, hos, harch⟩ => ?_
    obtain ⟨b, hb, hkey⟩ := exists_key hp
    have hnone := find_of_checkConflicts hcheck (hperm.mem_iff.mpr hb) hkey
    exact findPlatformLocked_eq_none.mp hnone q.Hash
      ⟨v, hv, hversion.symm, q, hq, hos, harch, rfl⟩
  | delete | restart => exact hadds.elim

/-- A publication of a version that is not in the index, or a deletion. -/
def FirstCall (s : Registry) (l : Op × Bool) : Prop :=
  match l.1 with
  | .publish version _ _ _ => ∀ v ∈ s.of version.Artifact, v.Version ≠ version.Version
  | .delete _ => True
  | .restart => False

/-- Versions that are published in one call each have one entry each. -/
lemma sole_of_firstCall {tr : List (Registry × (Op × Bool))} (hrun : Run (step env) .fresh tr t)
    (hcalls : Meets FirstCall tr) (artifact version : String) : Sole t artifact version := by
  have hne : ∀ a, (t.of a).Pairwise fun v w => v.Version ≠ w.Version := by
    refine hrun.invariant (G := FirstCall)
      (I := fun s => ∀ a, (s.of a).Pairwise fun v w => v.Version ≠ w.Version)
      (fun s l t h hl hstep => ?_) hcalls (fun _ => .nil) t Run.last_mem
    obtain ⟨op, ok⟩ := l
    refine pairwise_step Ne.symm h (fun heq => ?_) (fun new hadds v hv => ?_) hstep
    · rw [FirstCall, heq] at hl
      exact hl
    · cases op with
      | publish pub checked written now =>
        obtain ⟨-, -, rfl⟩ := hadds
        exact hl v hv
      | delete | restart => exact hadds.elim
  have hentries : (entries t artifact version).Pairwise fun v w => v.Version ≠ w.Version :=
    (hne artifact).filter _
  have hversions : ∀ v ∈ entries t artifact version, v.Version = version := fun v hv => by
    simpa using (List.mem_filter.mp hv).2
  intro w hw
  rcases hes : entries t artifact version with _ | ⟨v, rest⟩ <;> rw [hes] at hw hentries hversions
  · cases hw
  · have hne := List.rel_of_pairwise_cons hentries hw
    rw [hversions v List.mem_cons_self, hversions w (List.mem_cons_of_mem _ hw)] at hne
    exact absurd rfl hne

/-- **What is listed for a version is what it resolves to**, for every platform, exactly if all
its builds are in its first entry. -/
theorem listed_iff_resolved (env : Env) {tr : List (Registry × (Op × Bool))} {t : Registry}
    (hrun : Run (step env) .fresh tr t) (hops : Meets (fun _ l => l.1 ≠ .restart) tr)
    (artifact version : String) (hversion : version ≠ "") :
    (∀ os arch, Agrees env t artifact version os arch) ↔ Sole t artifact version := by
  have hapart : ∀ a, (t.of a).Pairwise Apart :=
    hrun.invariant (G := fun _ (l : Op × Bool) => l.1 ≠ .restart)
      (I := fun s => ∀ a, (s.of a).Pairwise Apart)
      (fun _ _ _ h hl hstep => pairwise_step Apart.symm h hl
        (fun _ hadds _ hv => apart_of_adds hadds hv) hstep) hops (fun _ => .nil) t Run.last_mem
  exact agrees_iff hversion ((indexed_run hrun).distinct artifact) (hapart artifact)

theorem listed_iff_resolved_together :
    Sole together "a" "1" ∧ ∀ os arch, Agrees demo together "a" "1" os arch := by
  have hrun : Run (step demo) .fresh
      [(.fresh, .publish Durability.version both both 5, true)] together :=
    .cons ⟨.refl _, by decide, rfl, by decide⟩ (.nil _)
  have hsole : Sole together "a" "1" :=
    sole_of_firstCall hrun (by simp [FirstCall, Registry.of, Registry.fresh]) "a" "1"
  exact ⟨hsole, (listed_iff_resolved demo hrun (by simp) "a" "1" (by decide)).mpr hsole⟩

/-- **A build that resolves and is not listed.** The platforms of one version are published in two
calls; the entry of the second comes first, and only its platform is listed. -/
theorem resolved_not_listed :
    Run (step demo) .fresh
      [(.fresh, .publish Durability.version linux linux 5, true),
        (first, .publish Durability.version darwin darwin 6, true)] second ∧
    (ResolveVersion demo second "a" "1" "linux" "amd64").isSome ∧
    (ListPlatforms demo second "a" "1").map (fun p => (p.OS, p.Arch)) = [("darwin", "arm64")] ∧
    ¬Agrees demo second "a" "1" "linux" "amd64" := by
  refine ⟨.cons ⟨.refl _, by decide, rfl, by decide⟩ (.cons ⟨.refl _, by decide, rfl, by decide⟩
    (.nil _)), by decide, by decide, fun h => ?_⟩
  exact absurd (h.1.mpr (by decide)) (by decide)

end Workforce.Releases
