import Workforce.Durability

/-!
A publication that fails on the way.

`Publish` creates the binaries one by one, then writes the metadata, then the index. An operation
that fails may also leave something behind: a binary that could be neither copied nor removed, or
part of a `meta.json`.
-/

namespace Workforce.Publishing

open Contract Paths FsRegistry Durability

/-! ### What a failed publication has changed -/

variable {env : Env} {left : Remains} {s t : Registry} {disk disk' : Disk} {version : ArtifactVersion}

structure Unchanged (s t : Registry) : Prop where
  files : ∀ q, t.disk.file q = s.disk.file q
  index : t.versions = s.versions

/-- The binary is not stored, and nothing is left of it. -/
def Blocked (env : Env) (left : Remains) (version : ArtifactVersion) (disk : Disk) (b : Binary) :
    Prop :=
  match splitPlatformKey b.1 with
  | none => True
  | some (os, arch) =>
    let dest := binaryPath env version.Artifact version.Version os arch
    ¬env.allows disk dest.dropLast ∨ (disk.file dest).isSome ∨ ¬env.allows disk dest ∨
      b.2 = none ∧ left.binary dest = none

/-- The publication fails before it has written anything: in the search for conflicts, at the
first binary it comes to, or, if there is none, at a `meta.json` that stays what it was. -/
def FailsEarly (env : Env) (left : Remains) (s : Registry) (version : ArtifactVersion)
    (checked : List Binary) : List Binary → Prop
  | [] => checkConflicts s version checked = .ok () → ∀ f, left.metadata = some f →
      s.disk.file (metaPath env version.Artifact version.Version) = some f
  | b :: _ => checkConflicts s version checked = .ok () → Blocked env left version s.disk b

lemma file_leave (p q : Path) (f : Option File) :
    (leave disk p f).file q = if q = p then f.or (disk.file q) else disk.file q := by
  cases f with
  | none => simp [leave]
  | some f => rw [leave, file_put]; rfl

lemma storeBinary_of_blocked {b : Binary} (h : Blocked env left version disk b) :
    ∃ err, storeBinary env left version disk b = (disk, .error err) := by
  unfold Blocked at h
  unfold storeBinary
  cases hkey : splitPlatformKey b.1 with
  | none => exact ⟨_, rfl⟩
  | some platform =>
    rw [hkey] at h
    dsimp only at h ⊢
    split_ifs with hdir hfile hdest
    · exact ⟨_, rfl⟩
    · -- the file could be created, so it is the copy that fails
      obtain ⟨hreader, hleft⟩ : b.2 = none ∧ left.binary _ = none := by tauto
      rw [hreader, hleft]
      exact ⟨_, rfl⟩
    · exact ⟨_, rfl⟩
    · exact ⟨_, rfl⟩

/-- A binary that is not blocked leaves a file where there was none. -/
lemma exists_file_of_not_blocked {b : Binary} (h : ¬Blocked env left version disk b) :
    ∃ q f, disk.file q = none ∧ (storeBinary env left version disk b).1.file q = some f := by
  unfold Blocked at h
  unfold storeBinary
  cases hkey : splitPlatformKey b.1 with
  | none =>
    rw [hkey] at h
    exact absurd trivial h
  | some platform =>
    rw [hkey] at h
    dsimp only at h ⊢
    simp only [not_or, not_and, not_not] at h
    obtain ⟨hdir, hfile, hdest, hcopy⟩ := h
    rw [if_neg (not_not.mpr hdir), if_neg hfile, if_neg (not_not.mpr hdest)]
    have hnone := Option.not_isSome_iff_eq_none.mp hfile
    cases hreader : b.2 with
    | some data => exact ⟨_, _, hnone, by rw [file_put, if_pos rfl]⟩
    | none =>
      obtain ⟨data, hdata⟩ := Option.ne_none_iff_exists'.mp (hcopy hreader)
      exact ⟨_, .binary data, hnone, by rw [file_leave, if_pos rfl, hdata]; rfl⟩

lemma file_leave_of_some {p q : Path} {f : Option File} (h : (disk.file q).isSome) :
    ((leave disk p f).file q).isSome := by
  rw [file_leave]
  split_ifs
  · cases f <;> simp [h]
  · exact h

variable (env left version) in
lemma storeBinary_keeps {q : Path} (b : Binary) (h : (disk.file q).isSome) :
    ((storeBinary env left version disk b).1.file q).isSome := by
  unfold storeBinary
  cases splitPlatformKey b.1 with
  | none => exact h
  | some platform =>
    dsimp only
    split_ifs
    · exact h
    · cases b.2 with
      | none => exact file_leave_of_some h
      | some data =>
        rw [file_put]
        split_ifs
        · rfl
        · exact h
    · exact h
    · exact h

variable (env left version) in
lemma storeBinaries_keeps {q : Path} (l : List Binary) (h : (disk.file q).isSome) :
    ((storeBinaries env left version disk l).1.file q).isSome :=
  storeBinaries_induct (I := fun d => (d.file q).isSome)
    (fun _ b => storeBinary_keeps env left version b) l h

lemma storeBinaries_cons_of_error {b : Binary} {rest : List Binary} {err : PublishError}
    (h : storeBinary env left version disk b = (disk', .error err)) :
    storeBinaries env left version disk (b :: rest) = (disk', .error err) := by
  rw [storeBinaries, h]

lemma isSome_file_storeBinaries_cons {q : Path} {b : Binary} (rest : List Binary)
    (h : ((storeBinary env left version disk b).1.file q).isSome) :
    ((storeBinaries env left version disk (b :: rest)).1.file q).isSome := by
  unfold storeBinaries
  rcases hb : storeBinary env left version disk b with ⟨disk', err | p⟩ <;> rw [hb] at h
  · exact h
  · have hrest := storeBinaries_keeps env left version rest h
    dsimp only
    rcases hl : storeBinaries env left version disk' rest with ⟨disk'', err | platforms⟩ <;>
      rw [hl] at hrest <;> exact hrest

section Failed

variable {checked written : List Binary} {now : Time}
  (hfail : (Publish env left s version checked written now).2.isOk = false)
include hfail

/-- The three places where a publication can fail. -/
lemma publish_fails :
    checkConflicts s version checked ≠ .ok () ∧
        (Publish env left s version checked written now).1 = s ∨
      (checkConflicts s version checked = .ok () ∧ ∃ disk,
        (∃ err, storeBinaries env left version s.disk written = (disk, .error err)) ∧
          (Publish env left s version checked written now).1 = { s with disk := disk }) ∨
      checkConflicts s version checked = .ok () ∧ ∃ disk,
        (∃ platforms, storeBinaries env left version s.disk written = (disk, .ok platforms)) ∧
          (Publish env left s version checked written now).1 =
            ⟨leave disk (metaPath env version.Artifact version.Version) left.metadata,
              s.versions⟩ := by
  unfold Publish at hfail ⊢
  cases hcheck : checkConflicts s version checked with
  | error err => exact .inl ⟨nofun, rfl⟩
  | ok _ =>
    rw [hcheck] at hfail
    rcases hl : storeBinaries env left version s.disk written with ⟨disk, err | platforms⟩
    · exact .inr (.inl ⟨rfl, disk, ⟨err, rfl⟩, rfl⟩)
    · rw [hl] at hfail
      dsimp only at hfail ⊢
      by_cases hallows : env.allows disk (metaPath env version.Artifact version.Version)
      · rw [if_neg (not_not.mpr hallows)] at hfail
        cases hfail
      · rw [if_pos hallows]
        exact .inr (.inr ⟨rfl, disk, ⟨platforms, rfl⟩, rfl⟩)

lemma unchanged_of_failsEarly (h : FailsEarly env left s version checked written) :
    Unchanged s (Publish env left s version checked written now).1 := by
  obtain ⟨-, heq⟩ | ⟨hcheck, disk, ⟨err, hl⟩, heq⟩ | ⟨hcheck, disk, ⟨platforms, hl⟩, heq⟩ :=
    publish_fails hfail <;> rw [heq]
  · exact ⟨fun _ => rfl, rfl⟩
  · cases written with
    | nil => cases hl
    | cons b rest =>
      obtain ⟨err', herr⟩ := storeBinary_of_blocked (h hcheck)
      rw [storeBinaries_cons_of_error herr] at hl
      cases hl
      exact ⟨fun _ => rfl, rfl⟩
  · cases written with
    | nil =>
      cases hl
      refine ⟨fun q => ?_, rfl⟩
      rw [file_leave]
      split_ifs with hq
      · cases hleft : left.metadata with
        | none => rfl
        | some f => rw [hq, h hcheck f hleft]; rfl
      · rfl
    | cons b rest =>
      obtain ⟨err', herr⟩ := storeBinary_of_blocked (h hcheck)
      rw [storeBinaries_cons_of_error herr] at hl
      cases hl

lemma failsEarly_of_unchanged
    (h : Unchanged s (Publish env left s version checked written now).1) :
    FailsEarly env left s version checked written := by
  cases written with
  | nil =>
    intro hok f hleft
    obtain ⟨hcheck, -⟩ | ⟨-, disk, ⟨err, hl⟩, heq⟩ | ⟨-, disk, ⟨platforms, hl⟩, heq⟩ :=
      publish_fails hfail
    · exact absurd hok hcheck
    · cases hl
    · cases hl
      rw [← h.files, heq]
      rw [file_leave, if_pos rfl, hleft]
      rfl
  | cons b rest =>
    intro hok
    by_contra hblocked
    obtain ⟨q, f, hnone, hsome⟩ := exists_file_of_not_blocked hblocked
    -- whatever fails afterwards, the file stays
    have hkept : ((storeBinaries env left version s.disk (b :: rest)).1.file q).isSome :=
      isSome_file_storeBinaries_cons rest (by rw [hsome]; rfl)
    have hq := h.files q
    rw [hnone] at hq
    obtain ⟨hcheck, -⟩ | ⟨-, disk, ⟨err, hl⟩, heq⟩ | ⟨-, disk, ⟨platforms, hl⟩, heq⟩ :=
      publish_fails hfail
    · exact absurd hok hcheck
    · rw [hl] at hkept
      rw [heq] at hq
      exact absurd hq (Option.ne_none_iff_isSome.mpr hkept)
    · rw [hl] at hkept
      rw [heq] at hq
      exact absurd hq (Option.ne_none_iff_isSome.mpr (file_leave_of_some hkept))

end Failed

/-! ### A corrected publication -/

/-- The same registry where the system carries out every operation. -/
def healthy (env : Env) : Env := { env with allows := fun _ _ => true }

/-- Every publication of the platforms that has readable binaries, meets a healthy system and
would have succeeded before succeeds now. -/
def Retriable (env : Env) (s t : Registry) (version : ArtifactVersion) (written : List Binary) :
    Prop :=
  ∀ (version' : ArtifactVersion) (checked fixed : List Binary) (now : Time),
    version'.Artifact = version.Artifact → version'.Version = version.Version →
    checked.Perm fixed → (fixed.map Prod.fst).Perm (written.map Prod.fst) →
    (∀ b ∈ fixed, b.2.isSome) →
      (Publish (healthy env) .nothing s version' checked fixed now).2 = .ok () →
        (Publish (healthy env) .nothing t version' checked fixed now).2 = .ok ()

section Congruence

variable (hallows : ∀ disk p, env.allows disk p)
include hallows

variable (left version) in
lemma storeBinary_congr (b : Binary) (h : ∀ q, disk'.file q = disk.file q) :
    (storeBinary env left version disk' b).2 = (storeBinary env left version disk b).2 ∧
      ∀ q, (storeBinary env left version disk' b).1.file q =
        (storeBinary env left version disk b).1.file q := by
  unfold storeBinary
  cases splitPlatformKey b.1 with
  | none => exact ⟨rfl, h⟩
  | some platform =>
    simp only [hallows, h, not_true_eq_false, if_false]
    split_ifs
    · exact ⟨rfl, h⟩
    · cases b.2 with
      | none => exact ⟨rfl, fun q => by simp only [file_leave, h]⟩
      | some data => exact ⟨rfl, fun q => by simp only [file_put, h]⟩

variable (left version) in
lemma storeBinaries_congr (l : List Binary) (h : ∀ q, disk'.file q = disk.file q) :
    (storeBinaries env left version disk' l).2 = (storeBinaries env left version disk l).2 := by
  induction l generalizing disk disk' with
  | nil => rfl
  | cons b rest ih =>
    obtain ⟨hres, hfiles⟩ := storeBinary_congr left version hallows b h
    unfold storeBinaries
    rcases hb : storeBinary env left version disk b with ⟨d, err | p⟩ <;>
      rcases hb' : storeBinary env left version disk' b with ⟨d', err' | p'⟩ <;>
      rw [hb, hb'] at hres <;> cases hres
    · rfl
    · rw [hb, hb'] at hfiles
      have hrest := ih hfiles
      dsimp only
      rcases hl : storeBinaries env left version d rest with ⟨e, err | ps⟩ <;>
        rcases hl' : storeBinaries env left version d' rest with ⟨e', err' | ps'⟩ <;>
        rw [hl, hl'] at hrest <;> cases hrest <;> rfl

end Congruence

lemma checkConflicts_congr (h : t.versions = s.versions) (l : List Binary) :
    checkConflicts t version l = checkConflicts s version l := by
  induction l with
  | nil => rfl
  | cons b rest ih =>
    unfold checkConflicts findPlatformLocked Registry.of
    rw [ih, h]

lemma publish_congr (hallows : ∀ disk p, env.allows disk p) (h : Unchanged s t)
    (checked written : List Binary) (now : Time) :
    (Publish env left t version checked written now).2 =
      (Publish env left s version checked written now).2 := by
  have hstore := storeBinaries_congr left version hallows written h.files
  unfold Publish
  rw [checkConflicts_congr h.index]
  cases checkConflicts s version checked with
  | error err => rfl
  | ok _ =>
    rcases hl : storeBinaries env left version s.disk written with ⟨e, err | ps⟩ <;>
      rcases hl' : storeBinaries env left version t.disk written with ⟨e', err' | ps'⟩ <;>
      rw [hl, hl'] at hstore <;> cases hstore
    · rfl
    · simp only [hallows, not_true_eq_false, if_false]

lemma Unchanged.retriable (h : Unchanged s t) (written : List Binary) :
    Retriable env s t version written := by
  intro version' checked fixed now _ _ _ _ _ hok
  rw [publish_congr (fun _ _ => rfl) h, hok]

/-- **A publication that fails** has left the registry as it was, for a corrected one of the same
platforms to succeed, exactly if it failed before it had written anything. -/
theorem publish_atomic_iff (env : Env) (left : Remains) (s : Registry) (version : ArtifactVersion)
    (checked written : List Binary) (now : Time)
    (hfail : (Publish env left s version checked written now).2.isOk = false) :
    Unchanged s (Publish env left s version checked written now).1 ∧
        Retriable env s (Publish env left s version checked written now).1 version written ↔
      FailsEarly env left s version checked written := by
  constructor
  · rintro ⟨h, -⟩
    exact failsEarly_of_unchanged hfail h
  · intro h
    have hsame := unchanged_of_failsEarly hfail h
    exact ⟨hsame, hsame.retriable written⟩

/-- A first binary that cannot be read. -/
def unreadable : List Binary := [("linux_amd64", none), ("darwin_arm64", some [2])]

theorem publish_atomic_first :
    Unchanged .fresh (Publish demo .nothing .fresh Durability.version unreadable unreadable 5).1 ∧
      Retriable demo .fresh
        (Publish demo .nothing .fresh Durability.version unreadable unreadable 5).1
        Durability.version unreadable :=
  (publish_atomic_iff demo .nothing .fresh Durability.version unreadable unreadable 5
    (by decide)).mpr fun _ => .inr (.inr (.inr ⟨rfl, rfl⟩))

/-! ### Seeding -/

structure SeedEntry where
  Name : String
  Version : String
  PreRelease : Bool := false
  /-- By `os_arch` key, the path of a local file. -/
  Binaries : List (String × String)
  Dependencies : List (String × List String) := []

inductive SeedError
  | openFile (path : String)
  | publish (err : PublishError)
  deriving DecidableEq

/-- The local files: whether a path can be opened, and the content unless reading it fails. -/
abbrev Files := String → Option (Option Bytes)

def openAll (files : Files) : List (String × String) → Except SeedError (List Binary)
  | [] => .ok []
  | (key, path) :: rest =>
    match files path with
    | none => .error (.openFile path)
    | some reader => (openAll files rest).map fun binaries => (key, reader) :: binaries

/-- Publish the files of one entry, visited in the order in which it has them. That a build is
there already is no error. -/
def seedOne (env : Env) (left : Remains) (files : Files) (now : Time) (s : Registry)
    (entry : SeedEntry) : Registry × Except SeedError Unit :=
  match openAll files entry.Binaries with
  | .error err => (s, .error err)
  | .ok binaries =>
    let version : ArtifactVersion :=
      { Artifact := entry.Name
        Version := entry.Version
        PreRelease := entry.PreRelease
        PublishedAt := now
        PlatformDeps := entry.Dependencies }
    match Publish env left s version binaries binaries now with
    | (s, .error .ErrAlreadyExists) => (s, .ok ())
    | (s, .error err) => (s, .error (.publish err))
    | (s, .ok _) => (s, .ok ())

def Seed (env : Env) (left : Remains) (files : Files) (now : Time) :
    Registry → List SeedEntry → Registry × Except SeedError Unit
  | s, [] => (s, .ok ())
  | s, entry :: rest =>
    match seedOne env left files now s entry with
    | (s, .error err) => (s, .error err)
    | (s, .ok _) => Seed env left files now s rest

/-! ### A publication that cannot be repeated -/

def entry : SeedEntry where
  Name := "a"
  Version := "1"
  Binaries := [("linux_amd64", "first"), ("darwin_arm64", "second")]

/-- The second file cannot be read. -/
def torn : Files := fun path => some (if path = "first" then some [1] else none)

def whole : Files := fun path => some (some (if path = "first" then [1] else [2]))

def interrupted : Registry := (Seed demo .nothing torn 5 .fresh [entry]).1

/-- **A failed publication blocks the next.** The second binary cannot be read, the first stays on
the disk and out of the index. The corrected publication would have succeeded before, and is now
refused; a second seeding takes that for success, and publishes nothing. -/
theorem corrected_publication_refused :
    (Seed demo .nothing torn 5 .fresh [entry]).2 = .error (.publish .writeBinary) ∧
    interrupted.versions = ∅ ∧
    interrupted.disk.file (binaryPath demo "a" "1" "linux" "amd64") = some (.binary [1]) ∧
    Registry.fresh.disk.file (binaryPath demo "a" "1" "linux" "amd64") = none ∧
    (Seed demo .nothing whole 6 .fresh [entry]).2 = .ok () ∧
    (ResolveVersion demo (Seed demo .nothing whole 6 .fresh [entry]).1 "a" "1" "darwin"
      "arm64").isSome ∧
    (Publish demo .nothing interrupted Durability.version both both 6).2 = .error .ErrAlreadyExists ∧
    (Seed demo .nothing whole 6 interrupted [entry]).2 = .ok () ∧
    ResolveVersion demo (Seed demo .nothing whole 6 interrupted [entry]).1 "a" "1" "darwin"
      "arm64" = none := by
  refine ⟨by decide, rfl, by decide, by decide, by decide, by decide, by decide, by decide,
    by decide⟩

end Workforce.Publishing
