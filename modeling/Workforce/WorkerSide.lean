import Workforce.Durations
import Workforce.Frames

/-!
A worker: what it does with the manager's messages, and what it sends back.

A proposal reserves its cost and waits for the dispatch; a dispatch turns the reservation into a
running task, and the end of the run releases it. The frames of a run are those of `runJob`, in
their order, on each of its paths.
-/

namespace Workforce.WorkerSide

open Tables Contract Shared Argv QuotedArgv Decimal
open Frames (ProposeMessage DispatchMessage Written Send SendWithPayload formatD)

/-! ### Replies -/

/-- A dependency named in a proposal. It came as the value of a flag, so it has no quotes and no
line ends. -/
abbrev Dep := {s : String // Quotable s.toList}

inductive RejectReason
  | draining | pressure | missingDeps (missing : List Dep) | capacity
  deriving DecidableEq

inductive Reply
  | reject (jobID : String) (reason : RejectReason)
  | accept (jobID : String)
  | staged (jobID runID : String)
  | fetchFailed (jobID err : String)
  | starting (jobID runID : String)
  | tmpDirFailed (jobID runID err : String)
  | log (jobID runID : String) (line : Bytes)
  | taskError (jobID runID : String) (code : ℤ) (duration : Duration) (reason : Bytes)
  | subjobs (jobID runID : String) (duration : Duration) (data : Bytes)
  | success (jobID runID : String) (duration : Duration) (data : Bytes)
  | error (code message : String)
  deriving DecidableEq

/-! ### State -/

structure activeTask where
  JobID : String
  cost : ℤ
  runID : String
  /-- Its context has been cancelled. -/
  cancelled : Bool := false

structure Worker where
  Capacity : ℤ
  state : WorkerState := .online
  usedCap : ℤ := 0
  /-- Accepted, awaiting dispatch. -/
  pendingJobs : Table ProposeMessage.JobID := Table.empty _
  tasks : Table activeTask.JobID := Table.empty _

/-- What the machine says when a proposal comes: whether it is over a resource limit that is set,
and which of the dependencies are missing. -/
structure Host where
  overLimit : Bool := false
  missing : List Dep := []

/-! ### Messages from the manager -/

/-- Whether there is room for a proposal. The costs are added as 64-bit integers. -/
def canAccept (w : Worker) (msg : ProposeMessage) : Prop :=
  wrap64 (w.usedCap + msg.Cost) ≤ w.Capacity

instance (w : Worker) (msg : ProposeMessage) : Decidable (canAccept w msg) :=
  inferInstanceAs (Decidable (_ ≤ _))

def handlePropose (w : Worker) (host : Host) (msg : ProposeMessage) : Worker × Reply :=
  if w.state ≠ .online then (w, .reject msg.JobID .draining)
  else if host.overLimit then (w, .reject msg.JobID .pressure)
  else if host.missing ≠ [] then (w, .reject msg.JobID (.missingDeps host.missing))
  else if canAccept w msg then
    ({ w with
        usedCap := wrap64 (w.usedCap + msg.Cost)
        pendingJobs := w.pendingJobs.put msg }, .accept msg.JobID)
  else (w, .reject msg.JobID .capacity)

/-- The answer, and the proposal with which a run is started if the dispatch is for one. -/
def handleDispatch {F : Type} (w : Worker) (msg : DispatchMessage F) :
    Worker × Reply × Option ProposeMessage :=
  match w.pendingJobs.get msg.JobID with
  | none => (w, .error "unknown_job" "dispatched job was not proposed or accepted", none)
  | some proposal =>
    ({ w with
        pendingJobs := w.pendingJobs.erase msg.JobID
        tasks := w.tasks.put { JobID := msg.JobID, cost := proposal.Cost, runID := msg.RunID } },
      .staged msg.JobID msg.RunID, some proposal)

def handleCancel (w : Worker) (jobID : String) : Worker :=
  { w with tasks := w.tasks.modify jobID fun t => { t with cancelled := true } }

/-- With no tasks left, a drain ends at once. -/
def handleSystem (w : Worker) (command : String) : Worker :=
  if command = "drain" then
    { w with state := if w.tasks.values = [] then .shuttingDown else .draining }
  else if command = "shutdown" then
    if w.state = .online ∨ w.state = .draining then { w with state := .shuttingDown } else w
  else w

def dropTask (w : Worker) (jobID : String) : Worker :=
  match w.tasks.get jobID with
  | some t => { w with usedCap := wrap64 (w.usedCap - t.cost), tasks := w.tasks.erase jobID }
  | none => w

/-- The end of a run, whichever way it ended. The last one ends a drain. -/
def releaseTask (w : Worker) (jobID : String) : Worker :=
  let w := dropTask w jobID
  if (w.state = .draining ∨ w.state = .shuttingDown) ∧ w.tasks.values = [] then
    { w with state := .shuttingDown }
  else w

/-! ### A run -/

def utf8 (s : String) : Bytes := s.toUTF8.data.toList

/-- An error of `RunTask`: a non-zero exit of the binary, or anything else. -/
inductive TaskError
  | exit (code : ℤ) (fits : IsInt64 code) (reason : Bytes)
  | other (text : Bytes)

def TaskError.Error : TaskError → Bytes
  | .exit code _ reason => utf8 ("exit " ++ formatD code ++ ": ") ++ reason
  | .other text => text

/-- The code and the reason of a non-zero exit, and whether the error is one. -/
def IsExitError : TaskError → ℤ × Bytes × Bool
  | .exit code _ reason => (code, reason, true)
  | .other _ => (0, [], false)

/-- What happens in a run: the errors on the way, what the binary prints, write by write, how it
ends, and the times for the log. -/
structure TaskRun where
  fetchErr : Option String := none
  mkdirErr : Option String := none
  startTime : String := ""
  endTime : String := ""
  output : List Bytes := []
  duration : Duration := 0
  fits : IsInt64 duration := by decide
  outcome : Except TaskError (Bytes × Bytes)

def lineEnd : UInt8 := 0x0a

/-- The writer that turns what a binary prints into log frames. -/
structure logLineWriter where
  jobID : String
  runID : String
  buf : Bytes := []

/-- The loop of `Write`: the lines that are cut off the buffer, and what stays in it. -/
def forward (buf : Bytes) : List Bytes × Bytes :=
  match h : buf.idxOf? lineEnd with
  | none => ([], buf)
  | some idx =>
    let r := forward (buf.drop (idx + 1))
    (buf.take idx :: r.1, r.2)
termination_by buf.length
decreasing_by
  obtain ⟨hlt, -⟩ := List.idxOf?_eq_some_iff.mp h
  rw [List.length_drop]
  omega

namespace logLineWriter

/-- A write: the writer after it, the frames it has sent, and how many bytes it reports. -/
def Write (l : logLineWriter) (p : Bytes) : logLineWriter × List Reply × ℕ :=
  let r := forward (l.buf ++ p)
  ({ l with buf := r.2 }, r.1.map (.log l.jobID l.runID), p.length)

def writes (l : logLineWriter) : List Bytes → logLineWriter × List Reply × List ℕ
  | [] => (l, [], [])
  | p :: ps =>
    let (l, frames, n) := l.Write p
    let (l, rest, ns) := l.writes ps
    (l, frames ++ rest, n :: ns)

end logLineWriter

def rule : String := "────────────────────────────────────────────────────────"

def headertmpl {F : Type} (workerID : String) (proposal : ProposeMessage)
    (dispatch : DispatchMessage F) (time : String) : Bytes :=
  utf8 ("\n┌" ++ rule ++ "\n│  " ++ proposal.Task ++ "\n│  phase:   " ++ dispatch.Phase ++
    "\n│  attempt: " ++ formatD dispatch.Attempt ++ "\n│  job:     " ++ dispatch.JobID ++
    "\n│  run:     " ++ dispatch.RunID ++ "\n│  time:    " ++ time ++ "\n│  worker:  " ++
    workerID ++ "\n└" ++ rule ++ "\n")

def durationString (d : Duration) : String := String.ofList (Durations.format d)

def footertmpl (status time : String) (d : Duration) (text : Bytes) : Bytes :=
  utf8 ("\n\n\n┌" ++ rule ++ "\n│  status:   " ++ status ++ "\n│  time:     " ++ time ++
    "\n│  duration: " ++ durationString d ++ "\n└" ++ rule ++ "\n\n") ++ text ++ [lineEnd]

/-- What is sent when the binary has ended. -/
def sendOutcome (jobID runID : String) (r : TaskRun) : List Reply :=
  let footer status text := Reply.log jobID runID (footertmpl status r.endTime r.duration text)
  match r.outcome with
  | .error err =>
    let exit := IsExitError err
    let reason := if exit.2.2 then exit.2.1 else err.Error
    [footer "failed" reason, .taskError jobID runID exit.1 r.duration reason]
  | .ok (resultData, childJobsData) =>
    if childJobsData ≠ [] then
      [footer "success" childJobsData, .subjobs jobID runID r.duration childJobsData]
    else [footer "success" resultData, .success jobID runID r.duration resultData]

def runJob {F : Type} (workerID : String) (proposal : ProposeMessage)
    (dispatch : DispatchMessage F) (r : TaskRun) : List Reply :=
  let jobID := dispatch.JobID
  let runID := dispatch.RunID
  match r.fetchErr with
  | some err => [.fetchFailed jobID err]
  | none =>
    .starting jobID runID ::
      match r.mkdirErr with
      | some err => [.tmpDirFailed jobID runID err]
      | none =>
        .log jobID runID (headertmpl workerID proposal dispatch r.startTime) ::
          (((logLineWriter.mk jobID runID []).writes r.output).2.1 ++ sendOutcome jobID runID r)

/-! ### On the wire -/

/-- `html.EscapeString`. -/
def escapeChar (c : Char) : List Char :=
  if c = '&' then "&amp;".toList
  else if c = quoteChar then "&#39;".toList
  else if c = '<' then "&lt;".toList
  else if c = '>' then "&gt;".toList
  else if c = '"' then "&#34;".toList
  else [c]

/-- The characters that are trimmed from both ends of an error. -/
def isTrimmed (c : Char) : Bool := c = '\n' || c = '\r' || c = '\t'

/-- Strip single quotes, so that a value is safe between them. -/
def sanitize (s : String) : String :=
  let unquoted := s.toList.filter (· ≠ quoteChar)
  let trimmed := ((unquoted.dropWhile isTrimmed).reverse.dropWhile isTrimmed).reverse
  String.ofList (trimmed.flatMap escapeChar)

def inQuotes (s : String) : String := String.ofList (quoteChar :: (s.toList ++ [quoteChar]))

def RejectReason.text : RejectReason → String
  | .draining => "draining"
  | .pressure => "pressure"
  | .missingDeps _ => "missing_deps"
  | .capacity => "capacity"

def join : List Dep → String
  | [] => ""
  | [dep] => dep.1
  | dep :: rest => dep.1 ++ "," ++ join rest

/-- What follows the reason: the names of the dependencies. -/
def RejectReason.detail : RejectReason → String
  | .missingDeps missing => " --detail=" ++ inQuotes (join missing)
  | _ => ""

def written : Reply → Written
  | .reject jobID reason =>
    Send ("reject --job-id=" ++ jobID ++ " --reason=" ++ reason.text ++ reason.detail)
  | .accept jobID => Send ("accept --job-id=" ++ jobID)
  | .staged jobID runID => Send ("staged --job-id=" ++ jobID ++ " --run-id=" ++ runID)
  | .fetchFailed jobID err =>
    Send ("result --job-id=" ++ jobID ++ " --type=error --reason=" ++ inQuotes (sanitize err))
  | .starting jobID runID => Send ("starting --job-id=" ++ jobID ++ " --run-id=" ++ runID)
  | .tmpDirFailed jobID runID err =>
    Send ("result --job-id=" ++ jobID ++ " --run-id=" ++ runID ++ " --type=error --reason=" ++
      inQuotes (sanitize err))
  | .log jobID runID line =>
    SendWithPayload ("log --job-id=" ++ jobID ++ " --run-id=" ++ runID) line
  | .taskError jobID runID code d reason =>
    SendWithPayload ("result --job-id=" ++ jobID ++ " --run-id=" ++ runID ++
      " --type=error --exit-code=" ++ formatD code ++ " --duration=" ++ durationString d) reason
  | .subjobs jobID runID d data =>
    SendWithPayload ("result --job-id=" ++ jobID ++ " --run-id=" ++ runID ++
      " --type=subjobs --duration=" ++ durationString d) data
  | .success jobID runID d data =>
    SendWithPayload ("result --job-id=" ++ jobID ++ " --run-id=" ++ runID ++
      " --type=result --duration=" ++ durationString d) data
  | .error code message =>
    Send ("error --code=" ++ code ++ " --message=" ++
      inQuotes (String.ofList (message.toList.filter (· ≠ quoteChar))))

/-! ### A job -/

def proposed : ProposeMessage where
  JobID := "j"
  ParentJobID := ""
  Task := "build"
  Cost := 1
  NoResult := false
  ArtifactHash := "h"
  ArtifactURL := "u"
  ArtifactDeps := []

def dispatched : DispatchMessage Unit where
  JobID := "j"
  RunID := "r"
  Phase := "main"
  Attempt := 1
  MaxExecTime := 0
  MaxMemoryBytes := 0
  MaxCPUCores := ()
  Payload := []

end Workforce.WorkerSide
