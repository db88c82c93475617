import Workforce.Contract
import Workforce.Paths
import Workforce.Runs

/-!
The artifact registry in a directory.

Every version has one `meta.json` and one file per platform; the index in memory has one entry
for every `Publish` that succeeded, and is read back from the `meta.json` files when the process
starts again. The system may refuse an operation on a path for a reason of its own, and what it
carries out is durable. In a run of operations nothing is left of what it refuses.
-/

namespace Workforce.FsRegistry

open Contract Paths Tables

/-! ### The registry -/

structure ArtifactPlatform where
  Artifact : String
  Version : String
  OS : String
  Arch : String
  Hash : String
  Size : ℕ
  Dependencies : List String := []
  URL : String := ""
  deriving DecidableEq

structure ArtifactVersion where
  Artifact : String
  Version : String
  PreRelease : Bool := false
  PublishedAt : Time := 0
  Platforms : List ArtifactPlatform := []
  /-- By `os_arch` key. -/
  PlatformDeps : List (String × List String) := []
  deriving DecidableEq

def ArtifactVersion.platformDeps (v : ArtifactVersion) (key : String) : List String :=
  (v.PlatformDeps.lookup key).getD []

/-- What `meta.json` keeps of a version. -/
def ArtifactVersion.stored (v : ArtifactVersion) : ArtifactVersion := { v with PlatformDeps := [] }

inductive File
  | binary (data : Bytes)
  | metadata (v : ArtifactVersion)
  deriving DecidableEq

structure Entry where
  path : Path
  file : File

abbrev Disk := Table Entry.path

def Disk.file (disk : Disk) (p : Path) : Option File := (disk.get p).map Entry.file

structure Registry where
  disk : Disk
  versions : AList fun _ : String => List ArtifactVersion

/-- The directory and what the registry takes from outside. -/
structure Env where
  dir : Path
  baseURL : String
  /-- The SHA-256 of a file, in hexadecimal. -/
  sha256 : Bytes → String
  /-- Whether the system carries out an operation on the path. -/
  allows : Disk → Path → Bool
  /-- `sort.Slice` by `PublishedAt`, descending. -/
  sort : List ArtifactVersion → List ArtifactVersion
  perm : ∀ l, (sort l).Perm l
  sorted : ∀ l, (sort l).Pairwise fun a b => b.PublishedAt ≤ a.PublishedAt

inductive PublishError
  | invalidKey (key : String)
  | ErrAlreadyExists
  | mkdir | createBinary | writeBinary | writeMeta
  deriving DecidableEq

/-- Split at the first underscore, which is neither the first nor the last character. -/
def splitPlatformKey (key : String) : Option (String × String) :=
  let os := key.toList.takeWhile (· ≠ '_')
  let arch := (key.toList.dropWhile (· ≠ '_')).tail
  if os = [] ∨ arch = [] then none else some (String.ofList os, String.ofList arch)

/-- A binary to publish: its platform key, and the content unless reading it fails. -/
abbrev Binary := String × Option Bytes

variable (env : Env)

def binaryPath (artifact version os arch : String) : Path :=
  join env.dir [artifact, version, os, arch, "binary"]

def metaPath (artifact version : String) : Path := join env.dir [artifact, version, "meta.json"]

def Registry.of (s : Registry) (artifact : String) : List ArtifactVersion :=
  (s.versions.lookup artifact).getD []

def findPlatformLocked (s : Registry) (artifact version os arch : String) :
    Option ArtifactPlatform :=
  (s.of artifact).findSome? fun v =>
    if v.Version = version then v.Platforms.find? fun p => p.OS = os ∧ p.Arch = arch else none

def withURL (p : ArtifactPlatform) : ArtifactPlatform :=
  { p with URL := env.baseURL ++ "/tasks/" ++ p.Artifact ++ "/artifacts/" ++ p.Version ++ "/" ++
      p.OS ++ "/" ++ p.Arch }

def ResolveVersion (s : Registry) (artifact version os arch : String) : Option ArtifactPlatform :=
  (findPlatformLocked s artifact version os arch).map (withURL env)

/-- The build for a platform of the first release in the index that has one. -/
def Resolve (s : Registry) (artifact os arch : String) : Option ArtifactPlatform :=
  (s.of artifact).findSome? fun v =>
    if v.PreRelease then none
    else (v.Platforms.find? fun p => p.OS = os ∧ p.Arch = arch).map (withURL env)

/-- The platforms of a version, or of the latest release if no version is named. -/
def ListPlatforms (s : Registry) (artifact version : String) : List ArtifactPlatform :=
  match (s.of artifact).find? fun v =>
    if version ≠ "" then v.Version = version else ¬v.PreRelease with
  | some v => v.Platforms.map (withURL env)
  | none => []

/-- Look for conflicts before any file is written. -/
def checkConflicts (s : Registry) (version : ArtifactVersion) :
    List Binary → Except PublishError Unit
  | [] => .ok ()
  | (key, _) :: rest =>
    match splitPlatformKey key with
    | none => .error (.invalidKey key)
    | some (os, arch) =>
      if (findPlatformLocked s version.Artifact version.Version os arch).isSome then
        .error .ErrAlreadyExists
      else checkConflicts s version rest

/-- What a failed operation leaves. -/
structure Remains where
  /-- Of a binary whose copy failed and that could not be removed. -/
  binary : Path → Option Bytes
  /-- Of a `meta.json` that was opened and not written to its end. -/
  metadata : Option File

def Remains.nothing : Remains := ⟨fun _ => none, none⟩

/-- The directory with what is left at a path. -/
def leave (disk : Disk) (p : Path) : Option File → Disk
  | none => disk
  | some f => disk.put ⟨p, f⟩

/-- One pass of the loop over the binaries. -/
def storeBinary (left : Remains) (version : ArtifactVersion) (disk : Disk) (b : Binary) :
    Disk × Except PublishError ArtifactPlatform :=
  match splitPlatformKey b.1 with
  | none => (disk, .error (.invalidKey b.1))
  | some (os, arch) =>
    let dest := binaryPath env version.Artifact version.Version os arch
    if ¬env.allows disk dest.dropLast then (disk, .error .mkdir)
    else if (disk.file dest).isSome then (disk, .error .ErrAlreadyExists)
    else if ¬env.allows disk dest then (disk, .error .createBinary)
    else
      match b.2 with
      -- the file is created and removed again, if it can be
      | none => (leave disk dest ((left.binary dest).map .binary), .error .writeBinary)
      | some data =>
        (disk.put ⟨dest, .binary data⟩, .ok ⟨version.Artifact, version.Version, os, arch,
          env.sha256 data, data.length, version.platformDeps b.1, ""⟩)

def storeBinaries (left : Remains) (version : ArtifactVersion) :
    Disk → List Binary → Disk × Except PublishError (List ArtifactPlatform)
  | disk, [] => (disk, .ok [])
  | disk, b :: rest =>
    match storeBinary env left version disk b with
    | (disk, .error err) => (disk, .error err)
    | (disk, .ok p) =>
      match storeBinaries left version disk rest with
      | (disk, .error err) => (disk, .error err)
      | (disk, .ok platforms) => (disk, .ok (p :: platforms))

/-- Publish the binaries of a version. A map is enumerated twice, and need not give the same
order both times. -/
def Publish (left : Remains) (s : Registry) (version : ArtifactVersion)
    (checked written : List Binary) (now : Time) : Registry × Except PublishError Unit :=
  match checkConflicts s version checked with
  | .error err => (s, .error err)
  | .ok _ =>
    match storeBinaries env left version s.disk written with
    | (disk, .error err) => ({ s with disk := disk }, .error err)
    | (disk, .ok platforms) =>
      let version := { version with
        Platforms := platforms
        PublishedAt := if version.PublishedAt = 0 then now else version.PublishedAt }
      let path := metaPath env version.Artifact version.Version
      if ¬env.allows disk path then
        ({ s with disk := leave disk path left.metadata }, .error .writeMeta)
      else
        ({ disk := disk.put ⟨path, .metadata version.stored⟩
           versions := s.versions.insert version.Artifact
             (env.sort (s.of version.Artifact ++ [version])) }, .ok ())

def RemoveAll (disk : Disk) (p : Path) : Disk :=
  disk.eraseAll ((disk.values.map Entry.path).filter fun q => p <+: q)

/-- Remove all versions of an artifact; the answer is whether it succeeded. -/
def DeleteArtifact (s : Registry) (artifact : String) : Registry × Bool :=
  let dir := join env.dir [artifact]
  if ¬env.allows s.disk dir then (s, false)
  else ({ disk := RemoveAll s.disk dir, versions := s.versions.erase artifact }, true)

/-- The directories in a directory that have something in them, by name. -/
def ReadDir (disk : Disk) (p : Path) : List String :=
  ((disk.values.filterMap fun e =>
    match e.path.drop p.length with
    | name :: _ :: _ => if p <+: e.path then some name else none
    | _ => none).dedup).insertionSort (· ≤ ·)

def readMeta (disk : Disk) (artifact version : String) : Option ArtifactVersion :=
  match disk.file (metaPath env artifact version) with
  | some (.metadata v) => some v
  | _ => none

def loadArtifact (disk : Disk) (artifact : String) : List ArtifactVersion :=
  env.sort ((ReadDir disk (env.dir ++ [artifact])).filterMap (readMeta env disk artifact))

/-- Read the index back from the directory. An artifact without a version has the empty list,
which reads as none. -/
def loadAll (disk : Disk) : AList fun _ : String => List ArtifactVersion :=
  (ReadDir disk env.dir).foldl
    (fun m artifact => m.insert artifact (loadArtifact env disk artifact)) ∅

/-! ### Operations -/

inductive Op
  | publish (version : ArtifactVersion) (checked written : List Binary) (now : Time)
  | delete (artifact : String)
  | restart

/-- One operation; the label also has whether it succeeded. -/
def step (s : Registry) (l : Op × Bool) (t : Registry) : Prop :=
  match l.1 with
  | .publish version checked written now =>
    checked.Perm written ∧ (written.map Prod.fst).Nodup ∧
      t = (Publish env .nothing s version checked written now).1 ∧
      l.2 = (Publish env .nothing s version checked written now).2.isOk
  | .delete artifact => (t, l.2) = DeleteArtifact env s artifact
  | .restart => t = { s with versions := loadAll env s.disk } ∧ l.2 = true

def Registry.fresh : Registry := ⟨Table.empty _, ∅⟩

structure Build where
  artifact : String
  version : String
  os : String
  arch : String
  hash : String

/-- The builds a successful operation adds, and those it leaves. -/
def after (B : Set Build) : Op × Bool → Set Build
  | (.publish version _ written _, true) =>
    B ∪ {b | b.artifact = version.Artifact ∧ b.version = version.Version ∧
      ∃ key data, (key, some data) ∈ written ∧ splitPlatformKey key = some (b.os, b.arch) ∧
        b.hash = env.sha256 data}
  | (.delete artifact, true) => {b ∈ B | b.artifact ≠ artifact}
  | _ => B

/-- The builds whose publication has succeeded and whose artifact has not been deleted since. -/
def live (ls : List (Op × Bool)) : Set Build := ls.foldl (after env) ∅

end Workforce.FsRegistry
