import Workforce.Durability

/-!
Where client-controlled names lead on the file system.

The handlers pass names from the request on to the registry and to the store of the run logs. A
path parameter is what the router has decoded, so it may have any characters in it, slashes
included. The directories are absolute paths, by their parts.
-/

namespace Workforce.Confinement

open Paths Tables FsRegistry Durability

/-! ### Handlers -/

/-- What the handlers look up before they pass a name on. -/
structure Server where
  tasks : List String := []
  /-- The jobs, with the job each is a part of and whether they have ended. -/
  jobs : List (String × String × Bool) := []
  /-- The runs, with their job and whether they have ended. -/
  runs : List (String × String × Bool) := []
  registry : Registry := ⟨Table.empty Entry.path, ∅⟩

/-- The parts of an upload that decide where it is stored. -/
structure Form where
  version : String
  /-- The names of the file fields. -/
  files : List String

/-- The requests that reach the file system. -/
inductive Request
  | deleteTaskDef (name : String)
  | taskArtifactUpload (name : String) (form : Form)
  | taskArtifactDownload (name version os arch : String)
  | runLogs (runID : String)
  | runLogsStream (runID : String)
  | jobLogs (id : String)
  | jobLogsStream (id : String)

/-- A path that is read, created or removed. -/
inductive Access
  | binary (artifact version os arch : String)
  | metadata (artifact version : String)
  | artifactDir (artifact : String)
  | runLog (runID : String)
  deriving DecidableEq

/-- A task may have any name but the empty one. -/
def handleCreateTaskDef (server : Server) (name : String) : Option Server :=
  if name = "" then none else some { server with tasks := name :: server.tasks }

def handleDeleteTaskDef (server : Server) (name : String) : List Access :=
  if name ∈ server.tasks then [.artifactDir name] else []

/-- The file fields that are taken for platforms. -/
def platformKeys (form : Form) : List String :=
  form.files.filter fun key => ¬"_deps".toList <:+ key.toList ∧ '_' ∈ key.toList

/-- The paths an upload comes to: none if it is refused for an invalid key or a build that exists. -/
def publishArtifact (server : Server) (name : String) (form : Form) : List Access :=
  if form.version = "" then []
  else if platformKeys form = [] then []
  else
    match checkConflicts server.registry { Artifact := name, Version := form.version }
      ((platformKeys form).map fun key => (key, some [])) with
    | .error _ => []
    | .ok _ => .metadata name form.version ::
        ((platformKeys form).filterMap splitPlatformKey).map fun p =>
          .binary name form.version p.1 p.2

def serveArtifact (name version os arch : String) : List Access := [.binary name version os arch]

def handleRunLogs (runID : String) : List Access := [.runLog runID]

/-- The log of a run that has ended is read from its file. -/
def handleRunLogsStream (server : Server) (runID : String) : List Access :=
  match server.runs.find? fun run => run.1 = runID with
  | some (_, _, true) => [.runLog runID]
  | _ => []

/-- The logs of the runs of a job and of its parts. -/
def GetRootJobLogReader (server : Server) (id : String) : List Access :=
  (id :: (server.jobs.filter fun job => job.2.1 = id).map Prod.fst).flatMap fun jobID =>
    (server.runs.filter fun run => run.2.1 = jobID).map fun run => .runLog run.1

def handleJobLogs (server : Server) (id : String) : List Access :=
  match server.jobs.find? fun job => job.1 = id with
  | none => []
  | some _ => GetRootJobLogReader server id

def handleJobLogsStream (server : Server) (id : String) : List Access :=
  match server.jobs.find? fun job => job.1 = id with
  | some (_, _, true) => GetRootJobLogReader server id
  | _ => []

def serve (server : Server) : Request → List Access
  | .deleteTaskDef name => handleDeleteTaskDef server name
  | .taskArtifactUpload name form => publishArtifact server name form
  | .taskArtifactDownload name version os arch => serveArtifact name version os arch
  | .runLogs runID => handleRunLogs runID
  | .runLogsStream runID => handleRunLogsStream server runID
  | .jobLogs id => handleJobLogs server id
  | .jobLogsStream id => handleJobLogsStream server id

/-! ### Paths -/

def runLogPath (dir : Path) (runID : String) : Path := join dir ["logs", "runs", runID ++ ".log"]

def Access.path (env : Env) (storeDir : Path) : Access → Path
  | .binary artifact version os arch => binaryPath env artifact version os arch
  | .metadata artifact version => metaPath env artifact version
  | .artifactDir artifact => join env.dir [artifact]
  | .runLog runID => runLogPath storeDir runID

/-- The directory that the path has to be in. -/
def Access.root (env : Env) (storeDir : Path) : Access → Path
  | .runLog _ => storeDir ++ ["logs", "runs"]
  | _ => env.dir

/-- The strings that the access joins to its directory stay below it: from the registry, or from
`logs/runs` in the store, their parts never lead above the directory, and in the end below it. -/
def Access.Local : Access → Prop
  | .binary artifact version os arch => Lands [] [artifact, version, os, arch, "binary"]
  | .metadata artifact version => Lands [] [artifact, version, "meta.json"]
  | .artifactDir artifact => Lands [] [artifact]
  | .runLog runID => Lands ["logs", "runs"] [runID ++ ".log"]

lemma runLogPath_eq (dir : Path) (runID : String) :
    runLogPath dir runID = join (dir ++ ["logs", "runs"]) [runID ++ ".log"] := by
  rw [runLogPath, join_plain (by decide), join_plain (by decide), List.append_assoc]
  rfl

/-- The access is confined, wherever the registry and the store have their directories. -/
def Access.ConfinedEverywhere (env : Env) (a : Access) : Prop :=
  ∀ dir storeDir : Path, (∀ x ∈ dir, Plain x) → (∀ x ∈ storeDir, Plain x) →
    Confined (a.root { env with dir := dir } storeDir) (a.path { env with dir := dir } storeDir)

lemma confinedEverywhere_iff (env : Env) (a : Access) : a.ConfinedEverywhere env ↔ a.Local := by
  have hregistry (names : List String) :
      (∀ dir storeDir : Path, (∀ x ∈ dir, Plain x) → (∀ x ∈ storeDir, Plain x) →
        Confined dir (join dir names)) ↔ Lands [] names := by
    rw [← confined_join_iff]
    simp only [List.append_nil]
    exact ⟨fun h dir hdir => h dir [] hdir (by simp), fun h dir _ hdir _ => h dir hdir⟩
  cases a with
  | binary artifact version os arch => exact hregistry _
  | metadata artifact version => exact hregistry _
  | artifactDir artifact => exact hregistry _
  | runLog runID =>
    show (∀ dir storeDir : Path, _ → _ → Confined _ (runLogPath storeDir runID)) ↔ Lands _ _
    simp only [runLogPath_eq, ← confined_join_iff]
    exact ⟨fun h storeDir hdir => h [] storeDir (by simp) hdir,
      fun h _ storeDir _ hdir => h storeDir hdir⟩

/-- **Path confinement.** The paths a request comes to are confined to the registry and to the run
logs exactly if the strings it has sent, or had stored, are local. -/
theorem serve_confined_iff (env : Env) (server : Server) (r : Request) :
    (∀ a ∈ serve server r, a.ConfinedEverywhere env) ↔ ∀ a ∈ serve server r, a.Local :=
  forall₂_congr fun a _ => confinedEverywhere_iff env a

def besides : Registry :=
  ⟨(Table.empty Entry.path).put ⟨["store", "journal"], .binary [1]⟩, ∅⟩

/-- **A task that takes everything with it.** A client creates a task with the name of the parent
directory and deletes it again: the directory that is removed is the one the registry is in, with
all that is beside it. A run ID with dots in it reads another file of the store. -/
theorem delete_escapes :
    ∃ server, handleCreateTaskDef {} ".." = some server ∧
      serve server (.deleteTaskDef "..") = [.artifactDir ".."] ∧
      ¬Confined demo.dir ((Access.artifactDir "..").path demo ["store"]) ∧
      besides.disk.file ["store", "journal"] = some (.binary [1]) ∧
      (DeleteArtifact demo besides "..").1.disk.file ["store", "journal"] = none ∧
      serve server (.runLogs "../../secret") = [.runLog "../../secret"] ∧
      (Access.runLog "../../secret").path demo ["store"] = ["store", "secret.log"] ∧
      ¬Confined ["store", "logs", "runs"]
        ((Access.runLog "../../secret").path demo ["store"]) := by
  refine ⟨{ tasks := [".."] }, rfl, by decide, ?_, by decide, by decide, by decide,
    by decide, ?_⟩
  · exact fun h => absurd h.1 (by decide)
  · exact fun h => absurd h.1 (by decide)

end Workforce.Confinement
