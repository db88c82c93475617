import Workforce.FsRegistry

/-!
What the registry still knows after a restart.

A version is found again if its `meta.json` lies where the index is read back from, and if no
later operation has written over it or removed it with another artifact's directory.
-/

namespace Workforce.Durability

open Contract Paths Runs Tables FsRegistry

variable {env : Env} {s t : Registry} {B : Set Build} {disk : Disk}

/-- The version has a directory of its own, right below the one named after its artifact. -/
structure Proper (env : Env) (artifact version : String) : Prop where
  plain : Plain artifact
  directory : ∃ x, Plain x ∧ join env.dir [artifact, version] = env.dir ++ [artifact, x]

/-- What an operation has to keep to. A version that passes the conflict check has a proper
directory, with no `meta.json` in it that has builds of the index; and the directory that is
removed with an artifact has no builds of another one. -/
def Safe (env : Env) (s : Registry) : Op → Prop
  | .publish version checked _ _ => checkConflicts s version checked = .ok () →
      Proper env version.Artifact version.Version ∧
        ∀ a, ∀ w ∈ s.of a, w.Platforms ≠ [] →
          metaPath env w.Artifact w.Version ≠ metaPath env version.Artifact version.Version
  | .delete artifact => ∀ a, ∀ w ∈ s.of a, w.Platforms ≠ [] → a ≠ artifact →
      ¬join env.dir [artifact] <+: metaPath env w.Artifact w.Version
  | .restart => True

def Listed (s : Registry) (b : Build) : Prop :=
  ∃ w ∈ s.of b.artifact, w.Version = b.version ∧
    ∃ p ∈ w.Platforms, p.OS = b.os ∧ p.Arch = b.arch ∧ p.Hash = b.hash

/-- The directory, the index and the builds `B` agree. -/
structure Durable (env : Env) (s : Registry) (B : Set Build) : Prop where
  joined : ∀ q f, s.disk.file q = some f → ∃ names, q = join env.dir names
  saved : ∀ a, ∀ w ∈ s.of a, w.Platforms ≠ [] → w.Artifact = a ∧ Proper env a w.Version ∧
    s.disk.file (metaPath env a w.Version) = some (.metadata w.stored)
  known : ∀ q m, s.disk.file q = some (.metadata m) → m.Platforms ≠ [] →
    q = metaPath env m.Artifact m.Version ∧ ∃ w ∈ s.of m.Artifact, w.stored = m
  listed : ∀ b, Listed s b ↔ b ∈ B
  single : ∀ b ∈ B, ∀ b' ∈ B, b.artifact = b'.artifact → b.version = b'.version → b.os = b'.os →
    b.arch = b'.arch → b.hash = b'.hash

/-! ### Paths and files -/

lemma metaPath_eq (artifact version : String) :
    metaPath env artifact version = join env.dir [artifact, version] ++ ["meta.json"] := by
  have happ : [artifact, version, "meta.json"] = [artifact, version] ++ ["meta.json"] := rfl
  rw [metaPath, happ, join_append, join_plain (by decide), join_nil]

lemma metaPath_plain {a x : String} (ha : Plain a) (hx : Plain x) :
    metaPath env a x = env.dir ++ [a, x, "meta.json"] := by
  rw [metaPath_eq, join_plain ha, join_plain hx, join_nil]
  simp

lemma file_put (disk : Disk) (p q : Path) (f : File) :
    Disk.file (disk.put ⟨p, f⟩) q = if q = p then some f else disk.file q := by
  unfold Disk.file
  rw [get_put]
  split_ifs <;> rfl

lemma file_RemoveAll (disk : Disk) (p q : Path) :
    (RemoveAll disk p).file q = if p <+: q then none else disk.file q := by
  unfold Disk.file RemoveAll
  rw [get_eraseAll]
  simp only [List.mem_filter, decide_eq_true_iff]
  split_ifs with h₁ h₂ h₂
  · rfl
  · exact absurd h₁.2 h₂
  · -- nothing is stored under a path that is not among those of the entries
    have hnone : disk.get q = none := get_eq_none_iff.mpr fun hq => h₁ ⟨hq, h₂⟩
    rw [hnone]
    rfl
  · rfl

/-! ### Publishing -/

lemma splitPlatformKey_eq {key os arch : String} (h : splitPlatformKey key = some (os, arch)) :
    key.toList = os.toList ++ '_' :: arch.toList := by
  unfold splitPlatformKey at h
  dsimp only at h
  split_ifs at h with hempty
  rw [not_or] at hempty
  obtain ⟨rfl, rfl⟩ := Prod.mk.inj (Option.some.inj h)
  rw [String.toList_ofList, String.toList_ofList]
  rcases hdrop : key.toList.dropWhile (· ≠ '_') with _ | ⟨c, rest⟩
  · rw [hdrop] at hempty
    exact absurd rfl hempty.2
  · have hc : c = '_' := by
      have hhead := List.head?_dropWhile_not (· ≠ '_') key.toList
      rw [hdrop] at hhead
      simpa using hhead
    have happ := List.takeWhile_append_dropWhile (p := (· ≠ '_')) (l := key.toList)
    rw [hdrop, hc] at happ
    exact happ.symm

lemma splitPlatformKey_inj {key key' os arch : String} (h : splitPlatformKey key = some (os, arch))
    (h' : splitPlatformKey key' = some (os, arch)) : key = key' := by
  have heq : key.toList = key'.toList := (splitPlatformKey_eq h).trans (splitPlatformKey_eq h').symm
  exact String.toList_inj.mp heq

lemma findPlatformLocked_eq_none {a v os arch : String} :
    findPlatformLocked s a v os arch = none ↔ ∀ h, ¬Listed s ⟨a, v, os, arch, h⟩ := by
  unfold findPlatformLocked Listed
  rw [List.findSome?_eq_none_iff]
  constructor
  · rintro hnone h ⟨w, hw, hv, p, hp, hos, harch, -⟩
    have hw' := hnone w hw
    rw [if_pos hv, List.find?_eq_none] at hw'
    exact hw' p hp (by simp [hos, harch])
  · intro hnone w hw
    split_ifs with hv
    · rw [List.find?_eq_none]
      intro p hp hmatch
      rw [decide_eq_true_iff] at hmatch
      exact hnone p.Hash ⟨w, hw, hv, p, hp, hmatch.1, hmatch.2, rfl⟩
    · rfl

lemma listed_of_find {a v os arch : String} {p : ArtifactPlatform}
    (h : findPlatformLocked s a v os arch = some p) : Listed s ⟨a, v, os, arch, p.Hash⟩ := by
  obtain ⟨w, hw, hfind⟩ := List.exists_of_findSome?_eq_some h
  split_ifs at hfind with hv
  · have hmatch := List.find?_some hfind
    rw [decide_eq_true_iff] at hmatch
    exact ⟨w, hw, hv, p, List.mem_of_find?_eq_some hfind, hmatch.1, hmatch.2, rfl⟩

lemma find_of_checkConflicts {version : ArtifactVersion} {l : List Binary}
    (h : checkConflicts s version l = .ok ()) {b : Binary} (hb : b ∈ l) {os arch : String}
    (hkey : splitPlatformKey b.1 = some (os, arch)) :
    findPlatformLocked s version.Artifact version.Version os arch = none := by
  induction l with
  | nil => cases hb
  | cons c l ih =>
    unfold checkConflicts at h
    split at h
    · cases h
    · rename_i os' arch' hsplit
      split_ifs at h with hsome
      rcases List.mem_cons.mp hb with rfl | hb
      · rw [hsplit] at hkey
        cases hkey
        exact Option.not_isSome_iff_eq_none.mp hsome
      · exact ih h hb

/-- What one binary keeps of the directory, all of them keep. -/
lemma storeBinaries_induct {left : Remains} {version : ArtifactVersion} {I : Disk → Prop}
    (hI : ∀ disk b, I disk → I (storeBinary env left version disk b).1) (written : List Binary)
    {disk : Disk} (h : I disk) : I (storeBinaries env left version disk written).1 := by
  induction written generalizing disk with
  | nil => exact h
  | cons b rest ih =>
    have hb := hI disk b h
    unfold storeBinaries
    split <;> rename_i heq <;> rw [heq] at hb
    · exact hb
    · have hrest := ih hb
      split <;> rename_i heq' <;> rw [heq'] at hrest <;> exact hrest

/-- The build that is made of a binary, if its key and its content can be read. -/
def platformOf (env : Env) (version : ArtifactVersion) (b : Binary) : Option ArtifactPlatform :=
  match splitPlatformKey b.1, b.2 with
  | some (os, arch), some data => some ⟨version.Artifact, version.Version, os, arch,
      env.sha256 data, data.length, version.platformDeps b.1, ""⟩
  | _, _ => none

/-- Nothing happens, or the binary is stored at a path that had no file. -/
lemma storeBinary_cases (env : Env) (version : ArtifactVersion) (disk : Disk) (b : Binary) :
    (∃ err, storeBinary env .nothing version disk b = (disk, .error err)) ∨
      ∃ os arch data p, disk.file (binaryPath env version.Artifact version.Version os arch) = none ∧
        platformOf env version b = some p ∧ storeBinary env .nothing version disk b =
          (disk.put ⟨binaryPath env version.Artifact version.Version os arch, .binary data⟩,
            .ok p) := by
  unfold storeBinary platformOf
  rcases splitPlatformKey b.1 with _ | ⟨os, arch⟩
  · exact .inl ⟨_, rfl⟩
  dsimp only
  split_ifs with hdir hfile hdest
  · exact .inl ⟨_, rfl⟩
  · rcases b.2 with _ | data
    · exact .inl ⟨_, rfl⟩
    · exact .inr ⟨os, arch, data, _, Option.not_isSome_iff_eq_none.mp hfile, rfl, rfl⟩
  · exact .inl ⟨_, rfl⟩
  · exact .inl ⟨_, rfl⟩

lemma metadata_storeBinaries (env : Env) (version : ArtifactVersion) (written : List Binary)
    (disk : Disk) (q : Path) (m : ArtifactVersion) :
    (storeBinaries env .nothing version disk written).1.file q = some (.metadata m) ↔
      disk.file q = some (.metadata m) := by
  refine storeBinaries_induct (I := fun d => d.file q = some (.metadata m) ↔
    disk.file q = some (.metadata m)) (fun d b h => ?_) written Iff.rfl
  obtain ⟨err, heq⟩ | ⟨os, arch, data, p, hnone, -, heq⟩ := storeBinary_cases env version d b <;>
    rw [heq]
  · exact h
  · -- the new file is a binary at a path that had none
    rw [← h, file_put]
    split_ifs with hq
    · simp [hq, hnone]
    · rfl

lemma joined_storeBinaries (version : ArtifactVersion) (written : List Binary) (disk : Disk)
    (hjoined : ∀ q f, disk.file q = some f → ∃ names, q = join env.dir names) :
    ∀ q f, (storeBinaries env .nothing version disk written).1.file q = some f →
      ∃ names, q = join env.dir names := by
  refine storeBinaries_induct (I := fun d => ∀ q f, d.file q = some f →
    ∃ names, q = join env.dir names) (fun d b h q f hf => ?_) written hjoined
  obtain ⟨err, heq⟩ | ⟨os, arch, data, p, -, -, heq⟩ := storeBinary_cases env version d b <;>
    rw [heq] at hf
  · exact h q f hf
  · rw [file_put] at hf
    split_ifs at hf with hq
    · exact ⟨_, hq⟩
    · exact h q f hf

/-- The builds of a publication, in the order they are written. -/
def platformsOf (env : Env) (version : ArtifactVersion) (written : List Binary) :
    List ArtifactPlatform := written.filterMap (platformOf env version)

lemma platforms_eq {version : ArtifactVersion} {written : List Binary} {disk disk' : Disk}
    {platforms : List ArtifactPlatform}
    (h : storeBinaries env .nothing version disk written = (disk', .ok platforms)) :
    platforms = platformsOf env version written := by
  induction written generalizing disk platforms with
  | nil =>
    cases h
    rfl
  | cons b rest ih =>
    unfold storeBinaries at h
    obtain ⟨err, heq⟩ | ⟨os, arch, data, p, -, hp, heq⟩ := storeBinary_cases env version disk b <;>
      rw [heq] at h
    · cases h
    · dsimp only at h
      split at h
      · cases h
      · rename_i hrest
        cases h
        rw [ih hrest, platformsOf, platformsOf, List.filterMap_cons, hp]

lemma mem_platforms (env : Env) (version : ArtifactVersion) (written : List Binary)
    (os arch hash : String) :
    (∃ p ∈ platformsOf env version written, p.OS = os ∧ p.Arch = arch ∧ p.Hash = hash) ↔
      ∃ key data, (key, some data) ∈ written ∧ splitPlatformKey key = some (os, arch) ∧
        hash = env.sha256 data := by
  constructor
  · rintro ⟨p, hp, rfl, rfl, rfl⟩
    obtain ⟨⟨key, reader⟩, hb, hp⟩ := List.mem_filterMap.mp hp
    unfold platformOf at hp
    split at hp
    · rename_i hkey hdata
      cases hp
      exact ⟨key, _, hdata ▸ hb, hkey, rfl⟩
    · cases hp
  · rintro ⟨key, data, hmem, hkey, rfl⟩
    exact ⟨_, List.mem_filterMap.mpr ⟨_, hmem, by rw [platformOf, hkey]⟩, rfl, rfl, rfl⟩

def stamped (version : ArtifactVersion) (platforms : List ArtifactPlatform) (now : Time) :
    ArtifactVersion :=
  { version with
    Platforms := platforms
    PublishedAt := if version.PublishedAt = 0 then now else version.PublishedAt }

/-- A publication fails and leaves the index and the metadata as they are, or writes the metadata
of the new version and lists it. -/
lemma publish_cases (env : Env) (s : Registry) (version : ArtifactVersion)
    (checked written : List Binary) (now : Time) :
    let r := Publish env .nothing s version checked written now
    (r.2.isOk = false ∧ r.1.versions = s.versions ∧ (r.1.disk = s.disk ∨
        r.1.disk = (storeBinaries env .nothing version s.disk written).1)) ∨
      ∃ disk platforms, r.2.isOk = true ∧ checkConflicts s version checked = .ok () ∧
        storeBinaries env .nothing version s.disk written = (disk, .ok platforms) ∧
        ∃ new : ArtifactVersion, new = stamped version platforms now ∧
          r.1 = ⟨disk.put ⟨metaPath env version.Artifact version.Version, .metadata new.stored⟩,
            s.versions.insert version.Artifact (env.sort (s.of version.Artifact ++ [new]))⟩ := by
  unfold Publish
  dsimp only
  split
  · exact .inl ⟨rfl, rfl, .inl rfl⟩
  · rename_i hcheck
    split
    · rename_i disk err hstore
      exact .inl ⟨rfl, rfl, .inr (by rw [hstore])⟩
    · rename_i disk platforms hstore
      split
      · exact .inl ⟨rfl, rfl, .inr (by rw [hstore]; rfl)⟩
      · exact .inr ⟨disk, platforms, rfl, hcheck, hstore, _, rfl, rfl⟩

lemma Durable.keep (h : Durable env s B) (hversions : t.versions = s.versions)
    (hmeta : ∀ q m, t.disk.file q = some (.metadata m) ↔ s.disk.file q = some (.metadata m))
    (hjoined : ∀ q f, t.disk.file q = some f → ∃ names, q = join env.dir names) :
    Durable env t B := by
  have hof : ∀ a, t.of a = s.of a := fun a => by unfold Registry.of; rw [hversions]
  have hlisted : ∀ b, Listed t b ↔ Listed s b := fun b => by unfold Listed; rw [hof]
  refine ⟨hjoined, fun a w hw hp => ?_, fun q m hq hp => ?_, fun b => ?_, h.single⟩
  · rw [hof] at hw
    obtain ⟨ha, hproper, hfile⟩ := h.saved a w hw hp
    exact ⟨ha, hproper, (hmeta _ _).mpr hfile⟩
  · rw [hof]
    exact h.known q m ((hmeta q m).mp hq) hp
  · rw [hlisted]
    exact h.listed b

lemma of_insert (s : AList fun _ : String => List ArtifactVersion) (disk : Disk) (a a' : String)
    (l : List ArtifactVersion) :
    Registry.of ⟨disk, s.insert a l⟩ a' = if a' = a then l else Registry.of ⟨disk, s⟩ a' := by
  unfold Registry.of
  split_ifs with h
  · subst h
    rw [AList.lookup_insert]
    rfl
  · rw [AList.lookup_insert_ne h]

lemma of_erase (s : Registry) (disk : Disk) (a a' : String) :
    Registry.of ⟨disk, s.versions.erase a⟩ a' = if a' = a then [] else s.of a' := by
  unfold Registry.of
  split_ifs with h
  · subst h
    rw [AList.lookup_erase]
    rfl
  · rw [AList.lookup_erase_ne h]

lemma mem_of_published {new w : ArtifactVersion} (disk : Disk) (a a' : String) :
    w ∈ Registry.of ⟨disk, s.versions.insert a (env.sort (s.of a ++ [new]))⟩ a' ↔
      w ∈ s.of a' ∨ a' = a ∧ w = new := by
  rw [of_insert]
  split_ifs with ha
  · rw [(env.perm _).mem_iff, List.mem_append, List.mem_singleton, ha]
    simp
  · simp [ha, Registry.of]

def added (env : Env) (version : ArtifactVersion) (written : List Binary) : Set Build :=
  {b | b.artifact = version.Artifact ∧ b.version = version.Version ∧
    ∃ key data, (key, some data) ∈ written ∧ splitPlatformKey key = some (b.os, b.arch) ∧
      b.hash = env.sha256 data}

/-- Builds stay single: the binaries have different keys, and the check has found none of them. -/
lemma single_union {version : ArtifactVersion} {checked written : List Binary}
    (h : Durable env s B) (hperm : checked.Perm written) (hnodup : (written.map Prod.fst).Nodup)
    (hcheck : checkConflicts s version checked = .ok ()) :
    ∀ b ∈ B ∪ added env version written, ∀ b' ∈ B ∪ added env version written,
      b.artifact = b'.artifact → b.version = b'.version → b.os = b'.os → b.arch = b'.arch →
        b.hash = b'.hash := by
  have hnew : ∀ b ∈ added env version written, ∀ hash,
      ⟨b.artifact, b.version, b.os, b.arch, hash⟩ ∉ B := by
    rintro b ⟨ha, hv, key, data, hmem, hkey, -⟩ hash hB
    have hnone := find_of_checkConflicts hcheck (hperm.mem_iff.mpr hmem) hkey
    rw [ha, hv] at hB
    exact findPlatformLocked_eq_none.mp hnone hash ((h.listed _).mpr hB)
  rintro ⟨a, v, os, arch, hash⟩ (hb | hb) ⟨a', v', os', arch', hash'⟩ (hb' | hb') rfl rfl rfl rfl
  · exact h.single _ hb _ hb' rfl rfl rfl rfl
  · exact absurd hb (hnew _ hb' hash)
  · exact absurd hb' (hnew _ hb hash')
  · obtain ⟨-, -, key, data, hmem, hkey, hhash⟩ := hb
    obtain ⟨-, -, key', data', hmem', hkey', hhash'⟩ := hb'
    obtain rfl := splitPlatformKey_inj hkey hkey'
    have hdata : some data = some data' := by
      have hinj := List.inj_on_of_nodup_map hnodup hmem hmem' rfl
      exact (Prod.mk.inj hinj).2
    cases hdata
    exact hhash.trans hhash'.symm

lemma durable_publish {version : ArtifactVersion} {checked written : List Binary} {now : Time}
    (h : Durable env s B) (hperm : checked.Perm written) (hnodup : (written.map Prod.fst).Nodup)
    (hsafe : Safe env s (.publish version checked written now)) :
    Durable env (Publish env .nothing s version checked written now).1
      (after env B (.publish version checked written now,
        (Publish env .nothing s version checked written now).2.isOk)) := by
  obtain ⟨hok, hversions, hdisk⟩ | ⟨disk, platforms, hok, hcheck, hstore, new, hnew, ht⟩ :=
    publish_cases env s version checked written now
  · rw [hok]
    refine h.keep hversions (fun q m => ?_) (fun q f hf => ?_)
    · rcases hdisk with hdisk | hdisk <;> rw [hdisk]
      exact metadata_storeBinaries env version written s.disk q m
    · rcases hdisk with hdisk | hdisk <;> rw [hdisk] at hf
      · exact h.joined q f hf
      · exact joined_storeBinaries version written s.disk h.joined q f hf
  have hart : new.Artifact = version.Artifact := by rw [hnew]; rfl
  have hver : new.Version = version.Version := by rw [hnew]; rfl
  have hplat : new.Platforms = platforms := by rw [hnew]; rfl
  obtain ⟨hproper, hfree⟩ := hsafe hcheck
  have hmeta : ∀ q m, disk.file q = some (.metadata m) ↔ s.disk.file q = some (.metadata m) := by
    intro q m
    have hmeta := metadata_storeBinaries env version written s.disk q m
    rwa [hstore] at hmeta
  rw [hok, ht]
  have hmem (a : String) (w : ArtifactVersion) :
      w ∈ Registry.of ⟨disk.put ⟨metaPath env version.Artifact version.Version,
        .metadata new.stored⟩, s.versions.insert version.Artifact
          (env.sort (s.of version.Artifact ++ [new]))⟩ a ↔
        w ∈ s.of a ∨ a = version.Artifact ∧ w = new :=
    mem_of_published _ version.Artifact a
  refine ⟨fun q f hf => ?_, fun a w hw hp => ?_, fun q m hq hp => ?_, fun b => ?_,
    single_union h hperm hnodup hcheck⟩
  · rw [file_put] at hf
    split_ifs at hf with hq
    · exact ⟨_, hq⟩
    · have hjoined := joined_storeBinaries version written s.disk h.joined q f
      rw [hstore] at hjoined
      exact hjoined hf
  · rcases (hmem a w).mp hw with hw | ⟨rfl, rfl⟩
    · obtain ⟨ha, hproper', hfile⟩ := h.saved a w hw hp
      have hne := hfree a w hw hp
      rw [ha] at hne
      exact ⟨ha, hproper', by rw [file_put, if_neg hne]; exact (hmeta _ _).mpr hfile⟩
    · exact ⟨hart, hver ▸ hproper, by rw [file_put, hver, if_pos rfl]⟩
  · rw [file_put] at hq
    split_ifs at hq with hpath
    · cases hq
      have hart' : new.stored.Artifact = version.Artifact := hart
      have hver' : new.stored.Version = version.Version := hver
      refine ⟨by rw [hart', hver', hpath], new, (hmem _ _).mpr (.inr ⟨hart', rfl⟩), rfl⟩
    · obtain ⟨hpath', w, hw, hstored⟩ := h.known q m ((hmeta q m).mp hq) hp
      exact ⟨hpath', w, (hmem _ _).mpr (.inl hw), hstored⟩
  · have hadded : b ∈ added env version written ↔ b.artifact = version.Artifact ∧
        b.version = version.Version ∧
        ∃ p ∈ new.Platforms, p.OS = b.os ∧ p.Arch = b.arch ∧ p.Hash = b.hash := by
      rw [hplat, platforms_eq hstore, mem_platforms]
      exact Iff.rfl
    change _ ↔ b ∈ B ∪ added env version written
    rw [Set.mem_union, hadded, ← h.listed]
    unfold Listed
    simp only [hmem]
    constructor
    · rintro ⟨w, hw | ⟨ha, rfl⟩, hv, hp⟩
      · exact .inl ⟨w, hw, hv, hp⟩
      · exact .inr ⟨ha, hv.symm.trans hver, hp⟩
    · rintro (⟨w, hw, hv, hp⟩ | ⟨ha, hv, hp⟩)
      · exact ⟨w, .inl hw, hv, hp⟩
      · exact ⟨new, .inr ⟨ha, rfl⟩, hver.trans hv.symm, hp⟩

/-! ### Deleting -/

lemma prefix_metaPath {a v : String} (h : Proper env a v) :
    join env.dir [a] <+: metaPath env a v := by
  obtain ⟨x, -, hx⟩ := h.directory
  rw [metaPath_eq, hx, join_plain h.plain, join_nil]
  exact ⟨[x, "meta.json"], by simp⟩

lemma durable_delete {artifact : String} (h : Durable env s B)
    (hsafe : Safe env s (.delete artifact)) :
    Durable env (DeleteArtifact env s artifact).1
      (after env B (.delete artifact, (DeleteArtifact env s artifact).2)) := by
  unfold DeleteArtifact
  dsimp only
  split
  · exact h
  have hof := of_erase s (RemoveAll s.disk (join env.dir [artifact])) artifact
  refine ⟨fun q f hf => ?_, fun a w hw hp => ?_, fun q m hq hp => ?_, fun b => ?_,
    fun b hb b' hb' => h.single b hb.1 b' hb'.1⟩
  · rw [file_RemoveAll] at hf
    split_ifs at hf
    exact h.joined q f hf
  · rw [hof] at hw
    split_ifs at hw with ha
    · cases hw
    obtain ⟨ha', hproper, hfile⟩ := h.saved a w hw hp
    have hout := hsafe a w hw hp ha
    rw [ha'] at hout
    exact ⟨ha', hproper, by rw [file_RemoveAll, if_neg hout]; exact hfile⟩
  · rw [file_RemoveAll] at hq
    split_ifs at hq with hpre
    obtain ⟨hpath, w, hw, rfl⟩ := h.known q m hq hp
    obtain ⟨hart, hproper, -⟩ := h.saved _ w hw hp
    refine ⟨hpath, w, ?_, rfl⟩
    rw [hof, if_neg ?_]
    · exact hw
    · -- the metadata of a version of the artifact has been removed with its directory
      rintro rfl
      exact hpre (hpath ▸ prefix_metaPath hproper)
  · change _ ↔ b ∈ B ∧ b.artifact ≠ artifact
    rw [← h.listed]
    unfold Listed
    rw [hof]
    split_ifs with ha
    · simp [ha]
    · simp [ha]

/-! ### Starting again -/

lemma mem_ReadDir {p : Path} {name : String} :
    name ∈ ReadDir disk p ↔ ∃ q f, disk.file q = some f ∧ ∃ x rest, q = p ++ name :: x :: rest := by
  unfold ReadDir
  rw [List.mem_insertionSort, List.mem_dedup, List.mem_filterMap]
  constructor
  · rintro ⟨e, he, hname⟩
    split at hname
    · rename_i n x rest hdrop
      split_ifs at hname with hpre
      cases hname
      refine ⟨e.path, e.file, ?_, x, rest, ?_⟩
      · unfold Disk.file
        rw [mem_values.mp he]
        rfl
      · obtain ⟨r, hr⟩ := hpre
        rw [← hr, List.drop_left] at hdrop
        rw [← hr, hdrop]
    · cases hname
  · rintro ⟨q, f, hf, x, rest, rfl⟩
    obtain ⟨e, he, rfl⟩ := Option.map_eq_some_iff.mp hf
    have hpath : e.path = p ++ name :: x :: rest := key_of_get he
    refine ⟨e, mem_values.mpr (hpath ▸ he), ?_⟩
    rw [hpath, List.drop_left]
    simp

lemma readMeta_eq_some {a x : String} {m : ArtifactVersion} :
    readMeta env disk a x = some m ↔ disk.file (metaPath env a x) = some (.metadata m) := by
  unfold readMeta
  split
  · rename_i v hv
    rw [hv]
    simp
  · rename_i hnone
    exact ⟨(fun h => nomatch h), fun h => absurd h (hnone m)⟩

lemma lookup_foldl_insert {V : Type} (f : String → V) (l : List String)
    (m : AList fun _ : String => V) (a : String) :
    (l.foldl (fun m a => m.insert a (f a)) m).lookup a =
      if a ∈ l then some (f a) else m.lookup a := by
  induction l generalizing m with
  | nil => simp
  | cons b l ih =>
    rw [List.foldl_cons, ih]
    by_cases hl : a ∈ l
    · simp [hl]
    · by_cases hb : a = b
      · subst hb
        simp [hl]
      · simp [hl, hb, AList.lookup_insert_ne hb]

lemma mem_loadAll {a : String} {w : ArtifactVersion} :
    w ∈ Registry.of ⟨disk, loadAll env disk⟩ a ↔ a ∈ ReadDir disk env.dir ∧
      ∃ x ∈ ReadDir disk (env.dir ++ [a]), disk.file (metaPath env a x) = some (.metadata w) := by
  unfold Registry.of loadAll
  rw [lookup_foldl_insert]
  split_ifs with ha
  · simp only [Option.getD_some, loadArtifact, (env.perm _).mem_iff, List.mem_filterMap,
      readMeta_eq_some, ha, true_and]
  · simp [ha]

lemma mem_loaded (h : Durable env s B) {a : String} {w : ArtifactVersion}
    (hp : w.Platforms ≠ []) :
    w ∈ Registry.of ⟨s.disk, loadAll env s.disk⟩ a ↔ ∃ w₀ ∈ s.of a, w₀.stored = w := by
  have hplain {p : Path} {name : String} (hlen : env.dir.length ≤ p.length)
      (hname : name ∈ ReadDir s.disk p) : Plain name := by
    obtain ⟨q, f, hf, x, rest, hq⟩ := mem_ReadDir.mp hname
    obtain ⟨names, hnames⟩ := h.joined q f hf
    have hpre : p ++ [name] <+: join env.dir names :=
      ⟨x :: rest, by rw [← hnames, hq]; simp⟩
    exact plain_below hpre hlen
  rw [mem_loadAll]
  constructor
  · rintro ⟨ha, x, hx, hfile⟩
    obtain ⟨hpath, w₀, hw₀, rfl⟩ := h.known _ _ hfile hp
    obtain ⟨hart, hproper, -⟩ := h.saved _ w₀ hw₀ hp
    obtain ⟨y, -, hy⟩ := hproper.directory
    -- both ways to write the path give the name of the directory
    rw [metaPath_plain (hplain le_rfl ha) (hplain (by simp) hx), metaPath_eq] at hpath
    have hstored : w₀.stored.Version = w₀.Version := rfl
    rw [hstored, hy, List.append_assoc, List.append_cancel_left_eq] at hpath
    obtain rfl : a = w₀.stored.Artifact := (List.cons.inj hpath).1
    exact ⟨w₀, hw₀, rfl⟩
  · rintro ⟨w₀, hw₀, rfl⟩
    obtain ⟨-, hproper, hfile⟩ := h.saved a w₀ hw₀ hp
    obtain ⟨y, hy, hdir⟩ := hproper.directory
    have hpath : metaPath env a w₀.Version = env.dir ++ [a, y, "meta.json"] := by
      rw [metaPath_eq, hdir]
      simp
    refine ⟨mem_ReadDir.mpr ⟨_, _, hfile, y, ["meta.json"], hpath⟩, y,
      mem_ReadDir.mpr ⟨_, _, hfile, "meta.json", [], by rw [hpath]; simp⟩, ?_⟩
    rw [metaPath_plain hproper.plain hy, ← hpath]
    exact hfile

lemma durable_restart (h : Durable env s B) :
    Durable env { s with versions := loadAll env s.disk } B := by
  refine ⟨h.joined, fun a w hw hp => ?_, fun q m hq hp => ?_, fun b => ?_, h.single⟩
  · obtain ⟨w₀, hw₀, rfl⟩ := (mem_loaded h hp).mp hw
    exact h.saved a w₀ hw₀ hp
  · obtain ⟨hpath, w₀, hw₀, rfl⟩ := h.known q m hq hp
    exact ⟨hpath, w₀.stored, (mem_loaded h hp).mpr ⟨w₀, hw₀, rfl⟩, rfl⟩
  · rw [← h.listed]
    constructor
    · rintro ⟨w, hw, hv, p, hp, hmatch⟩
      obtain ⟨w₀, hw₀, rfl⟩ := (mem_loaded h (List.ne_nil_of_mem hp)).mp hw
      exact ⟨w₀, hw₀, hv, p, hp, hmatch⟩
    · rintro ⟨w, hw, hv, p, hp, hmatch⟩
      have hp' : p ∈ w.stored.Platforms := hp
      exact ⟨w.stored, (mem_loaded h (List.ne_nil_of_mem hp')).mpr ⟨w, hw, rfl⟩, hv, p, hp',
        hmatch⟩

/-! ### Runs -/

lemma durable_step {l : Op × Bool} (h : Durable env s B) (hsafe : Safe env s l.1)
    (hstep : step env s l t) : Durable env t (after env B l) := by
  obtain ⟨op, ok⟩ := l
  cases op with
  | publish version checked written now =>
    obtain ⟨hperm, hnodup, rfl, hok⟩ := hstep
    rw [show ok = _ from hok]
    exact durable_publish h hperm hnodup hsafe
  | delete artifact =>
    obtain ⟨rfl, rfl⟩ := Prod.mk.inj (show (t, ok) = DeleteArtifact env s artifact from hstep)
    exact durable_delete h hsafe
  | restart =>
    obtain ⟨rfl, rfl⟩ := hstep
    exact durable_restart h

lemma durable_run {tr : List (Registry × (Op × Bool))} (hrun : Run (step env) s tr t)
    (hsafe : Meets (fun s l => Safe env s l.1) tr) (h : Durable env s B) :
    Durable env t ((tr.map Prod.snd).foldl (after env) B) := by
  induction hrun generalizing B with
  | nil => exact h
  | cons hstep _ ih =>
    rw [meets_cons] at hsafe
    exact ih hsafe.2 (durable_step h hsafe.1 hstep)

lemma durable_fresh (env : Env) : Durable env .fresh ∅ := by
  refine ⟨(fun q f h => nomatch h), (fun a w h => nomatch h), (fun q m h => nomatch h),
    fun b => ⟨?_, fun h => h.elim⟩, fun b h => h.elim⟩
  rintro ⟨w, hw, -⟩
  cases hw

lemma resolves_iff (h : Durable env s B) (b : Build) :
    (∃ p, ResolveVersion env s b.artifact b.version b.os b.arch = some p ∧ p.Hash = b.hash) ↔
      b ∈ B := by
  constructor
  · rintro ⟨p, hp, hhash⟩
    obtain ⟨p₀, hp₀, rfl⟩ := Option.map_eq_some_iff.mp hp
    have hb := listed_of_find hp₀
    rw [show p₀.Hash = b.hash from hhash] at hb
    exact (h.listed b).mp hb
  · intro hb
    rcases hfind : findPlatformLocked s b.artifact b.version b.os b.arch with _ | p
    · exact absurd ((h.listed b).mpr hb) (findPlatformLocked_eq_none.mp hfind b.hash)
    · have hb' := (h.listed _).mp (listed_of_find hfind)
      refine ⟨withURL env p, by rw [ResolveVersion, hfind]; rfl, ?_⟩
      exact h.single _ hb' _ hb rfl rfl rfl rfl

/-- **Durability and immutability.** In every run of publications, deletions and restarts on a new
directory whose steps are all safe, a version resolves to a build exactly if that build was
published with success and its artifact has not been deleted since. -/
theorem resolves_iff_live (env : Env) {tr : List (Registry × (Op × Bool))} {t : Registry}
    (h : Run (step env) .fresh tr t) (hsafe : Meets (fun s l => Safe env s l.1) tr) (b : Build) :
    (∃ p, ResolveVersion env t b.artifact b.version b.os b.arch = some p ∧ p.Hash = b.hash) ↔
      b ∈ live env (tr.map Prod.snd) :=
  resolves_iff (durable_run h hsafe (durable_fresh env)) b

/-! ### Two runs -/

def demo : Env where
  dir := ["registry"]
  baseURL := "http://manager"
  sha256 data := if data = [1] then "h1" else "h2"
  allows _ _ := true
  sort := List.insertionSort fun a b => b.PublishedAt ≤ a.PublishedAt
  perm := List.perm_insertionSort _
  sorted := List.pairwise_insertionSort _

def version : ArtifactVersion := { Artifact := "a", Version := "1" }

def linux : List Binary := [("linux_amd64", some [1])]

def darwin : List Binary := [("darwin_arm64", some [2])]

def both : List Binary := linux ++ darwin

/-- Both platforms in one publication, and a restart. -/
def together : Registry :=
  (Publish demo .nothing .fresh version both both 5).1

def togetherRun : List (Registry × (Op × Bool)) :=
  [(.fresh, .publish version both both 5, true), (together, .restart, true)]

def restarted : Registry := { together with versions := loadAll demo together.disk }

lemma restarted_run : Run (step demo) .fresh togetherRun restarted :=
  .cons ⟨.refl _, by decide, rfl, by decide⟩ (.cons ⟨rfl, rfl⟩ (.nil _))

lemma restarted_safe : Meets (fun s l => Safe demo s l.1) togetherRun := by
  rw [togetherRun, meets_cons, meets_cons]
  refine ⟨fun _ => ⟨⟨by decide, "1", by decide, by decide⟩, ?_⟩, trivial, meets_nil⟩
  intro a w hw
  cases hw

theorem together_resolves : ∃ p, ResolveVersion demo
    { together with versions := loadAll demo together.disk } "a" "1" "linux" "amd64" = some p ∧
      p.Hash = "h1" := by
  refine (resolves_iff_live demo restarted_run restarted_safe
    ⟨"a", "1", "linux", "amd64", "h1"⟩).mpr ?_
  exact .inr ⟨rfl, rfl, "linux_amd64", [1], by decide, by decide, rfl⟩

def first : Registry := (Publish demo .nothing .fresh version linux linux 5).1

def second : Registry := (Publish demo .nothing first version darwin darwin 6).1

/-- **The second publication of a version drops the first.** Both publications succeed and both
builds resolve; after a restart only the second does. -/
theorem restart_loses_platform :
    Run (step demo) .fresh
      [(.fresh, .publish version linux linux 5, true),
        (first, .publish version darwin darwin 6, true), (second, .restart, true)]
        { second with versions := loadAll demo second.disk } ∧
    (⟨"a", "1", "linux", "amd64", "h1"⟩ : Build) ∈ live demo
      [(.publish version linux linux 5, true), (.publish version darwin darwin 6, true),
        (.restart, true)] ∧
    (ResolveVersion demo second "a" "1" "linux" "amd64").isSome ∧
    ResolveVersion demo { second with versions := loadAll demo second.disk } "a" "1" "linux"
      "amd64" = none := by
  refine ⟨.cons ⟨.refl _, by decide, rfl, by decide⟩ (.cons ⟨.refl _, by decide, rfl, by decide⟩
    (.cons ⟨rfl, rfl⟩ (.nil _))), ?_, by decide, by decide⟩
  exact .inl (.inr ⟨rfl, rfl, "linux_amd64", [1], by decide, by decide, rfl⟩)

end Workforce.Durability
