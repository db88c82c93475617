import Workforce.Durations
import Workforce.Frames
import Workforce.JsonRecords
import Workforce.Payloads

/-!
What the manager reads from a worker's frames.

Each verb has a factory that looks its flags up and refuses the frame if one is missing. A
result comes in three types: the bytes a task returned, the reason of a failure, or requests for
child jobs, which are a JSON array of records.
-/

namespace Workforce.Replies

open Json Payloads Argv Frames
open Contract hiding Bytes

/-! ### Verbs that carry identifiers only -/

structure AcceptMessage where
  JobID : String
  deriving DecidableEq

def acceptV0Factory (m : Message) : Except String AcceptMessage := do
  let jobID ← requireFlag m.flags "job-id"
  return ⟨jobID⟩

structure RejectMessage where
  JobID : String
  Reason : String
  deriving DecidableEq

def rejectV0Factory (m : Message) : Except String RejectMessage := do
  let flags := m.flags
  let jobID ← requireFlag flags "job-id"
  let reason ← requireFlag flags "reason"
  return ⟨jobID, reason⟩

/-- The job and the run that a message is about. -/
structure RunReference where
  JobID : String
  RunID : String
  deriving DecidableEq

def runReference (m : Message) : Except String RunReference := do
  let flags := m.flags
  let jobID ← requireFlag flags "job-id"
  let runID ← requireFlag flags "run-id"
  return ⟨jobID, runID⟩

def stagedV0Factory (m : Message) : Except String RunReference := runReference m

def startingV0Factory (m : Message) : Except String RunReference := runReference m

structure LogMessage extends RunReference where
  Line : Bytes
  deriving DecidableEq

def logV0Factory (m : Message) : Except String LogMessage := do
  let ref ← runReference m
  return ⟨ref, m.payload⟩

/-! ### Requests for child jobs -/

def decodePayload : Decoder JsonOrBytes := fun _ v => UnmarshalJSON (render v)

def decodeChildJobRequest (v : Value) : Option ChildJobRequest := do
  let ms ← members v
  let task ← field "task" decodeString "" ms
  let payload ← field "payload" decodePayload none ms
  let priority ← field "priority" decodeInt 0 ms
  let version ← field "version" decodeString "" ms
  return { Task := task, Payload := payload, Priority := priority, Version := version }

def unmarshalJobs (data : Bytes) : Option (List ChildJobRequest) :=
  (parse maxNestingDepth data).bind (decodeSlice decodeChildJobRequest)

/-! ### Results -/

structure ResultMessage where
  ParentJobID : String
  JobID : String
  RunID : String
  ResultType : ResultType
  Duration : Duration := -1
  Warnings : String := ""
  /-- The text of the failure, as the bytes it came in. -/
  Reason : Bytes := []
  ExitCode : ℤ := 0
  Jobs : List ChildJobRequest := []
  Payload : JsonOrBytes := none
  deriving DecidableEq

def resultTypeOf (s : String) : Option ResultType :=
  if s = "result" then some .success
  else if s = "error" then some .error
  else if s = "subjobs" then some .subjobs
  else none

/-- The text of an error of `time.ParseDuration`. -/
def durationError (s : String) : Durations.DurationError → String
  | .invalid => "time: invalid duration " ++ s.quote
  | .missingUnit => "time: missing unit in duration " ++ s.quote
  | .unknownUnit unit =>
    "time: unknown unit " ++ (String.ofList unit).quote ++ " in duration " ++ s.quote

def ParseDuration (s : String) : Except String Duration :=
  (Durations.parse s.toList).mapError (durationError s)

/-- A flag that, if it is there, is parsed; without it the field keeps a default. -/
def flagOr {α : Type} (parse : String → Except String α) (default : α) (flags : FlagSet)
    (name : String) : Except String α :=
  let s := Get flags name
  if s ≠ "" then (parse s).mapError fun err => "flag --" ++ name ++ ": " ++ err else .ok default

lemma flagOr_of_lookup {α : Type} {parse : String → Except String α} {default a : α}
    {flags : FlagSet} {name s : String} (h : Lookup flags name = some s) (hne : s ≠ "")
    (hparse : parse s = .ok a) : flagOr parse default flags name = .ok a := by
  have hget : Get flags name = s := by rw [Get, h]; rfl
  simp only [flagOr, hget, if_pos hne, hparse]
  rfl

section Factory

-- the text of the error with which `encoding/json` refuses some bytes
variable (jsonError : Bytes → String)

def resultV0Factory (m : Message) : Except String ResultMessage := do
  let flags := m.flags
  let jobID ← requireFlag flags "job-id"
  let outcomeType ← requireFlag flags "type"
  let runID ← requireFlag flags "run-id"
  let parentJobID := Get flags "parent-job-id"
  let duration ← flagOr ParseDuration (-1) flags "duration"
  match resultTypeOf outcomeType with
  | some .success =>
    return { JobID := jobID, RunID := runID, ParentJobID := parentJobID, ResultType := .success,
             Duration := duration, Warnings := Get flags "warnings", Payload := some m.payload }
  | some .error =>
    let code ← flagOr Atoi 0 flags "exit-code"
    return { JobID := jobID, RunID := runID, ParentJobID := parentJobID, ResultType := .error,
             Duration := duration, Reason := m.payload, ExitCode := code }
  | some .subjobs =>
    if m.payload = [] then throw "outcome subjobs: payload is required"
    match unmarshalJobs m.payload with
    | none => throw ("outcome subjobs: invalid payload: " ++ jsonError m.payload)
    | some [] => throw "outcome subjobs: payload must contain at least one job"
    | some jobs =>
      return { JobID := jobID, RunID := runID, ParentJobID := parentJobID, ResultType := .subjobs,
               Duration := duration, Jobs := jobs, Payload := some m.payload }
  | none => throw ("flag --type: unknown outcome type " ++ outcomeType.quote)

end Factory

end Workforce.Replies
