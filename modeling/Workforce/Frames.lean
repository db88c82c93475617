import Workforce.QuotedArgv
import Workforce.Handlers

/-!
The frames a manager writes to a worker, and what the worker reads from them.

A proposal carries the identity of a job and its artifact, a dispatch the run, its payload and
its limits. The manager formats a line of flags; the worker's factory looks the flags up.
-/

namespace Workforce.Frames

open Tables Contract Progs Shared Calls Handlers Argv QuotedArgv Decimal

/-! ### Reading flags -/

def requireFlag (flags : FlagSet) (name : String) : Except String String :=
  match Lookup flags name with
  | some v => if v = "" then .error ("missing required flag --" ++ name) else .ok v
  | none => .error ("missing required flag --" ++ name)

/-- The text of a `strconv.NumError`. -/
def numError (func s : String) : ParseError → String
  | .invalidSyntax => "strconv." ++ func ++ ": parsing " ++ s.quote ++ ": invalid syntax"
  | .valueOutOfRange => "strconv." ++ func ++ ": parsing " ++ s.quote ++ ": value out of range"

def Atoi (s : String) : Except String ℤ := (parseInt s.toList).mapError (numError "Atoi" s)

def ParseInt (s : String) : Except String ℤ := (parseInt s.toList).mapError (numError "ParseInt" s)

def requireInt (flags : FlagSet) (name : String) : Except String ℤ := do
  let s ← requireFlag flags name
  (Atoi s).mapError fun err => "flag --" ++ name ++ ": " ++ err

/-- A flag that may be missing, in which case the field keeps its zero value. -/
def optionalFlag {α : Type} [Zero α] (parse : String → Except String α) (flags : FlagSet)
    (name : String) : Except String α :=
  let s := Get flags name
  if s ≠ "" then (parse s).mapError fun err => "flag --" ++ name ++ ": " ++ err else .ok 0

/-! ### Proposals -/

structure ProposeMessage where
  JobID : String
  ParentJobID : String
  Task : String
  Cost : ℤ
  NoResult : Bool
  ArtifactHash : String
  ArtifactURL : String
  ArtifactDeps : List String
  deriving DecidableEq

def proposeV0Factory (m : Message) : Except String ProposeMessage := do
  let flags := m.flags
  let jobID ← requireFlag flags "job-id"
  let task ← requireFlag flags "task"
  let cost ← requireInt flags "cost"
  let artifactHash ← requireFlag flags "artifact-hash"
  let artifactURL ← requireFlag flags "artifact-url"
  return {
    JobID := jobID
    ParentJobID := Get flags "parent-job-id"
    Task := task
    Cost := cost
    NoResult := Has flags "no-result"
    ArtifactHash := artifactHash
    ArtifactURL := artifactURL
    ArtifactDeps := GetRepeated flags "dep" }

def formatD (n : ℤ) : String := String.ofList (formatInt n)

def FormulateProposeV0Message (job : Job) (task : Task) (artifactInfo : ArtifactInfo) : String :=
  let msg := "propose --job-id=" ++ job.ID ++ " --task=" ++ job.TaskName ++ " --cost=" ++
    formatD job.Cost ++ " --artifact-hash=" ++ artifactInfo.Hash ++ " --artifact-url=" ++
    artifactInfo.URL
  let msg := artifactInfo.Dependencies.foldl (fun msg dep => msg ++ (" --dep=" ++ dep)) msg
  if task.NoResult then msg ++ " --no-result" else msg

/-! ### Dispatches -/

/-- The parsers of durations and floating-point numbers. The manager's own frames never have a
flag for them to parse. -/
structure Parsers (F : Type) where
  ParseDuration : String → Except String Duration
  ParseFloat : String → Except String F

structure DispatchMessage (F : Type) where
  JobID : String
  RunID : String
  Phase : String
  Attempt : ℤ
  MaxExecTime : Duration
  MaxMemoryBytes : ℤ
  MaxCPUCores : F
  Payload : Bytes

def dispatchV0Factory {F : Type} [Zero F] (P : Parsers F) (m : Message) :
    Except String (DispatchMessage F) := do
  let flags := m.flags
  let jobID ← requireFlag flags "job-id"
  let phase ← requireFlag flags "phase"
  if phase ≠ "run" ∧ phase ≠ "consolidate" then
    throw ("flag --phase: must be \"run\" or \"consolidate\", got " ++ phase.quote)
  let attempt ← requireInt flags "attempt"
  let runID ← requireFlag flags "run-id"
  let maxExecTime ← optionalFlag P.ParseDuration flags "max-exec-time"
  let maxMemoryBytes ← optionalFlag ParseInt flags "max-memory"
  let maxCPUCores ← optionalFlag P.ParseFloat flags "max-cpu-cores"
  return {
    JobID := jobID
    RunID := runID
    Phase := phase
    Attempt := attempt
    MaxExecTime := maxExecTime
    MaxMemoryBytes := maxMemoryBytes
    MaxCPUCores := maxCPUCores
    Payload := m.payload }

def phaseText : JobPhase → String
  | .run => "run"
  | .consolidate => "consolidate"

def FormulateDispatchV0Message (job : Job) (runID : String) : String :=
  "dispatch --job-id=" ++ job.ID ++ " --run-id=" ++ runID ++ " --phase=" ++ phaseText job.Phase ++
    " --attempt=" ++ formatD job.Attempts

/-! ### On the wire -/

/-- What a connection is written for one message: text, then bytes. -/
structure Written where
  text : String
  payload : Bytes

def Send (line : String) : Written := ⟨line ++ "\n", []⟩

def SendWithPayload (header : String) (payload : Bytes) : Written :=
  ⟨header ++ " -- " ++ formatD payload.length ++ "\n", payload⟩

def written : Frame → Written
  | .propose job task artifact => Send (FormulateProposeV0Message job task artifact)
  | .dispatch job runID payload =>
    SendWithPayload (FormulateDispatchV0Message job runID) (payload.getD [])
  | .cancel jobID => Send ("cancel --job-id=" ++ jobID)
  | .error code message => Send ("error --code=" ++ code ++ " --message='" ++ message ++ "'")

/-- What the worker makes of a frame, with the factory of its verb. -/
def received {α : Type} (factory : Message → Except String α) (f : Frame) : Except String α :=
  match QuotedArgv.read (written f).text (written f).payload with
  | some (m, _) => factory m
  | none => .error "malformed frame"

/-- The proposal arrives with the fields of the job, the task and the artifact. -/
def ProposalArrives (job : Job) (task : Task) (artifact : ArtifactInfo) : Prop :=
  received proposeV0Factory (.propose job task artifact) = .ok {
    JobID := job.ID
    ParentJobID := job.ParentJobID
    Task := job.TaskName
    Cost := job.Cost
    NoResult := task.NoResult
    ArtifactHash := artifact.Hash
    ArtifactURL := artifact.URL
    ArtifactDeps := artifact.Dependencies }

/-- A value that a required flag can carry. -/
def OneWord (s : String) : Prop := s ≠ "" ∧ Clean s.toList

instance : DecidablePred OneWord := fun _ => inferInstanceAs (Decidable (_ ∧ _))

/-- The names, the hash, the address and the dependencies are single words. -/
structure Plain (job : Job) (artifact : ArtifactInfo) : Prop where
  id : OneWord job.ID
  task : OneWord job.TaskName
  hash : OneWord artifact.Hash
  url : OneWord artifact.URL
  deps : ∀ d ∈ artifact.Dependencies, Clean d.toList

/-! ### A proposal of single words -/

section Lookup

variable {flags flags' : FlagSet} {name value : String}

@[simp] lemma Lookup_cons_self : Lookup ((name, value) :: flags) name = some value := by
  simp [Lookup]

@[simp] lemma Lookup_cons_ne {other : String} (h : other ≠ name) :
    Lookup ((other, value) :: flags) name = Lookup flags name := by
  simp [Lookup, h]

lemma requireFlag_of_lookup (h : Lookup flags name = some value) (hne : value ≠ "") :
    requireFlag flags name = .ok value := by
  rw [requireFlag, h]
  exact if_neg hne

lemma lookup_of_requireFlag (h : requireFlag flags name = .ok value) :
    Lookup flags name = some value ∧ value ≠ "" := by
  unfold requireFlag at h
  split at h
  · split_ifs at h with hv
    obtain rfl := Except.ok.inj h
    exact ⟨by assumption, hv⟩
  · exact nomatch h

end Lookup

lemma clean_formatD (n : ℤ) : Clean (formatD n).toList := by
  rw [formatD, String.toList_ofList]
  refine ⟨fun h => ?_, fun h => ?_, fun h => ?_⟩ <;>
    rcases isDigit_or_of_mem_formatInt h with h | h <;> exact absurd h (by decide)

section Proposal

variable {job : Job} {task : Task} {artifact : ArtifactInfo}

def proposalWords (job : Job) (task : Task) (artifact : ArtifactInfo) : List (List Char) :=
  [flag "job-id" job.ID, flag "task" job.TaskName, flag "cost" (formatD job.Cost),
    flag "artifact-hash" artifact.Hash, flag "artifact-url" artifact.URL] ++
    (artifact.Dependencies.map (flag "dep") ++ if task.NoResult then [bareFlag "no-result"] else [])

def proposalFlags (job : Job) (task : Task) (artifact : ArtifactInfo) : FlagSet :=
  [("job-id", job.ID), ("task", job.TaskName), ("cost", formatD job.Cost),
    ("artifact-hash", artifact.Hash), ("artifact-url", artifact.URL)] ++
    (artifact.Dependencies.map (fun d => ("dep", d)) ++
      if task.NoResult then [("no-result", "")] else [])

lemma toList_deps (deps : List String) (msg : String) :
    (deps.foldl (fun msg dep => msg ++ (" --dep=" ++ dep)) msg).toList =
      msg.toList ++ (deps.map (flag "dep")).flatMap fun w => ' ' :: w := by
  induction deps generalizing msg with
  | nil => simp
  | cons d deps ih =>
    rw [List.foldl_cons, ih]
    simp [flag]

lemma text_propose : (written (.propose job task artifact)).text.toList =
    line "propose" (proposalWords job task artifact) ++ ['\n'] := by
  simp only [written, Send, FormulateProposeV0Message, proposalWords, line]
  split_ifs <;> simp [toList_deps, flag, bareFlag]

lemma filterMap_proposalWords :
    (proposalWords job task artifact).filterMap flagOf = proposalFlags job task artifact := by
  have hdeps : (artifact.Dependencies.map (flag "dep")).filterMap flagOf =
      artifact.Dependencies.map fun d => ("dep", d) := by
    rw [List.filterMap_map, ← List.filterMap_eq_map]
    exact List.filterMap_congr fun d _ => flagOf_flag (by decide) d
  simp only [proposalWords, proposalFlags, List.filterMap_append, hdeps]
  congr 1
  · simp [flagOf_flag]
  · split_ifs <;> simp [flagOf_bareFlag]

lemma words_plain (h : Plain job artifact) :
    ∀ w ∈ proposalWords job task artifact, Clean w ∧ w ≠ terminator := by
  have hflag {name value : String} (hname : IsName name) (hvalue : Clean value.toList) :
      Clean (flag name value) ∧ flag name value ≠ terminator :=
    ⟨clean_flag hname hvalue, flag_ne_terminator _ _⟩
  intro w hw
  simp only [proposalWords, List.mem_append, List.mem_map] at hw
  rcases hw with hw | ⟨d, hd, rfl⟩ | hw
  · simp only [List.mem_cons, List.not_mem_nil, or_false] at hw
    rcases hw with rfl | rfl | rfl | rfl | rfl
    · exact hflag (by decide) h.id.2
    · exact hflag (by decide) h.task.2
    · exact hflag (by decide) (clean_formatD _)
    · exact hflag (by decide) h.hash.2
    · exact hflag (by decide) h.url.2
  · exact hflag (by decide) (h.deps d hd)
  · split_ifs at hw
    · obtain rfl := List.mem_singleton.mp hw
      decide
    · exact nomatch hw

lemma read_plain (h : Plain job artifact) :
    QuotedArgv.read (written (.propose job task artifact)).text [] =
      some (⟨"propose", proposalFlags job task artifact, []⟩, []) := by
  have hwords := @words_plain job task artifact h
  have hterm : ∀ w ∈ proposalWords job task artifact, decide (w ≠ terminator) = true :=
    fun w hw => decide_eq_true (hwords w hw).2
  rw [read_words (by decide) (fun w hw => (hwords w hw).1) text_propose,
    List.dropWhile_eq_nil_iff.mpr hterm, List.takeWhile_eq_self_iff.mpr hterm,
    filterMap_proposalWords]
  rfl

lemma Lookup_deps {name : String} (h : "dep" ≠ name) (deps : List String) (flags : FlagSet) :
    Lookup (deps.map (fun d => ("dep", d)) ++ flags) name = Lookup flags name := by
  induction deps with
  | nil => rfl
  | cons d deps ih => rw [List.map_cons, List.cons_append, Lookup_cons_ne h, ih]

lemma GetRepeated_proposalFlags :
    GetRepeated (proposalFlags job task artifact) "dep" = artifact.Dependencies := by
  simp only [GetRepeated, proposalFlags, List.filter_append, List.map_append]
  split_ifs <;> simp [List.filter_map, Function.comp_def]

lemma Has_proposalFlags : Has (proposalFlags job task artifact) "no-result" = task.NoResult := by
  simp only [Has, proposalFlags, List.cons_append, List.nil_append]
  simp only [ne_eq, String.reduceEq, not_false_eq_true, Lookup_cons_ne, Lookup_deps]
  split_ifs with h
  · simp [h]
  · simp [Lookup, h]

lemma Get_proposalFlags : Get (proposalFlags job task artifact) "parent-job-id" = "" := by
  simp only [Get, proposalFlags, List.cons_append, List.nil_append]
  simp only [ne_eq, String.reduceEq, not_false_eq_true, Lookup_cons_ne, Lookup_deps]
  split_ifs <;> simp [Lookup]

lemma formatD_ne (n : ℤ) : formatD n ≠ "" := fun h => by
  have h' := congrArg String.toList h
  rw [formatD, String.toList_ofList] at h'
  exact formatInt_ne_nil n h'

lemma Atoi_formatD {n : ℤ} (hn : IsInt64 n) : Atoi (formatD n) = .ok n := by
  rw [Atoi, formatD, String.toList_ofList, parseInt_formatInt hn]
  rfl

lemma requireInt_formatD {flags : FlagSet} {name : String} {n : ℤ} (hn : IsInt64 n)
    (h : Lookup flags name = some (formatD n)) : requireInt flags name = .ok n := by
  rw [requireInt, requireFlag_of_lookup h (formatD_ne n)]
  change (Atoi (formatD n)).mapError _ = _
  rw [Atoi_formatD hn]
  rfl

/-- What the factory makes of a plain proposal: all of it but the parent. -/
lemma received_plain (h : Plain job artifact) (hcost : IsInt64 job.Cost) :
    received proposeV0Factory (.propose job task artifact) = .ok {
      JobID := job.ID
      ParentJobID := ""
      Task := job.TaskName
      Cost := job.Cost
      NoResult := task.NoResult
      ArtifactHash := artifact.Hash
      ArtifactURL := artifact.URL
      ArtifactDeps := artifact.Dependencies } := by
  have hid : requireFlag (proposalFlags job task artifact) "job-id" = .ok job.ID :=
    requireFlag_of_lookup (by simp [proposalFlags]) h.id.1
  have htask : requireFlag (proposalFlags job task artifact) "task" = .ok job.TaskName :=
    requireFlag_of_lookup (by simp [proposalFlags]) h.task.1
  have hcost : requireInt (proposalFlags job task artifact) "cost" = .ok job.Cost :=
    requireInt_formatD hcost (by simp [proposalFlags])
  have hhash : requireFlag (proposalFlags job task artifact) "artifact-hash" = .ok artifact.Hash :=
    requireFlag_of_lookup (by simp [proposalFlags]) h.hash.1
  have hurl : requireFlag (proposalFlags job task artifact) "artifact-url" = .ok artifact.URL :=
    requireFlag_of_lookup (by simp [proposalFlags]) h.url.1
  have hpayload : (written (.propose job task artifact)).payload = [] := rfl
  unfold received
  rw [hpayload, read_plain h]
  simp only [proposeV0Factory]
  rw [hid, htask, hcost, hhash, hurl, GetRepeated_proposalFlags, Has_proposalFlags,
    Get_proposalFlags]
  rfl

lemma flags_of_propose {m : Message} {p : ProposeMessage} (h : proposeV0Factory m = .ok p) :
    requireFlag m.flags "job-id" = .ok p.JobID ∧ requireFlag m.flags "task" = .ok p.Task ∧
      requireFlag m.flags "artifact-hash" = .ok p.ArtifactHash ∧
      requireFlag m.flags "artifact-url" = .ok p.ArtifactURL ∧
      GetRepeated m.flags "dep" = p.ArtifactDeps := by
  simp only [proposeV0Factory, bind, Except.bind, pure, Except.pure] at h
  iterate 5
    split at h
    · exact nomatch h
  obtain rfl := Except.ok.inj h
  exact ⟨by assumption, by assumption, by assumption, by assumption, rfl⟩

/-- A value that arrives after clean flags is clean. -/
lemma clean_of_arrived {m : Message} {rest : Bytes} {pre : FlagSet} {name value : String}
    {post : List (List Char)} {more : List String}
    (hread : QuotedArgv.read (written (.propose job task artifact)).text [] = some (m, rest))
    (hwords : proposalWords job task artifact =
      (pre.map fun f => flag f.1 f.2) ++ flag name value :: post)
    (hpre : CleanFlags pre) (hname : IsName name)
    (hvalues : GetRepeated m.flags name = GetRepeated pre name ++ value :: more) :
    Clean value.toList := by
  have htext : (written (.propose job task artifact)).text.toList =
      line "propose" (pre.map fun f => flag f.1 f.2) ++
        ' ' :: (flag name value ++ (post.flatMap (fun w => ' ' :: w) ++ ['\n'])) := by
    rw [text_propose, hwords]
    simp [line]
  exact clean_of_repeated (by decide) hpre hname htext hread hvalues

/-- Of whatever was sent, only single words arrive. -/
lemma plain_of_arrives (h : ProposalArrives job task artifact) : Plain job artifact := by
  unfold ProposalArrives received at h
  split at h
  next m rest hread =>
    obtain ⟨hid, htask, hhash, hurl, hdeps⟩ := flags_of_propose h
    dsimp only at hid htask hhash hurl hdeps
    have hflag {pre : FlagSet} {name value : String} {post : List (List Char)}
        (h : requireFlag m.flags name = .ok value) (hpre : CleanFlags pre) (hname : IsName name)
        (hnew : GetRepeated pre name = []) (hwords : proposalWords job task artifact =
          (pre.map fun f => flag f.1 f.2) ++ flag name value :: post) : OneWord value := by
      obtain ⟨hlookup, hne⟩ := lookup_of_requireFlag h
      obtain ⟨more, hmore⟩ := exists_repeated hlookup
      rw [← List.nil_append (value :: more), ← hnew] at hmore
      exact ⟨hne, clean_of_arrived hread hwords hpre hname hmore⟩
    -- each flag is read back only if those before it are
    have hid := hflag hid cleanFlags_nil (by decide) rfl rfl
    have htask := hflag htask (cleanFlags_cons (by decide) hid.2 cleanFlags_nil) (by decide) rfl rfl
    have hbase {fs : FlagSet} (h : CleanFlags fs) : CleanFlags (("job-id", job.ID) ::
        ("task", job.TaskName) :: ("cost", formatD job.Cost) :: fs) :=
      cleanFlags_cons (by decide) hid.2 (cleanFlags_cons (by decide) htask.2
        (cleanFlags_cons (by decide) (clean_formatD _) h))
    have hhash := hflag hhash (hbase cleanFlags_nil) (by decide) rfl rfl
    have hurl := hflag hurl (hbase (cleanFlags_cons (by decide) hhash.2 cleanFlags_nil)) (by decide)
      rfl rfl
    refine ⟨hid, htask, hhash, hurl, ?_⟩
    suffices hdep : ∀ l₁ l₂, artifact.Dependencies = l₁ ++ l₂ → ∀ d ∈ l₁, Clean d.toList from
      hdep _ [] (List.append_nil _).symm
    intro l₁
    induction l₁ using List.reverseRecOn with
    | nil =>
      intro _ _ _ hd
      cases hd
    | append_singleton l₁ d ih =>
      intro l₂ heq
      rw [List.append_assoc] at heq
      have hl₁ := ih _ heq
      have hpre : CleanFlags (l₁.map fun d => ("dep", d)) := by
        intro f hf
        obtain ⟨d, hd, rfl⟩ := List.mem_map.mp hf
        exact ⟨(by decide : IsName "dep"), hl₁ d hd⟩
      refine List.forall_mem_append.mpr ⟨hl₁, List.forall_mem_singleton.mpr ?_⟩
      have hpre := hbase (cleanFlags_cons (by decide : IsName "artifact-hash") hhash.2
        (cleanFlags_cons (by decide : IsName "artifact-url") hurl.2 hpre))
      refine @clean_of_arrived _ _ _ m rest _ "dep" d (l₂.map (flag "dep") ++
        if task.NoResult then [bareFlag "no-result"] else []) l₂ hread ?_ hpre (by decide) ?_
      · simp [proposalWords, heq, Function.comp_def]
      · rw [hdeps, heq]
        simp [GetRepeated, List.filter_map, Function.comp_def]
  next => cases h

/-- A proposal arrives exactly if it is plain and of a job without a parent. -/
lemma proposalArrives_iff (hcost : IsInt64 job.Cost) :
    ProposalArrives job task artifact ↔ Plain job artifact ∧ job.ParentJobID = "" := by
  constructor
  · intro h
    have hplain := plain_of_arrives h
    have heq := (@received_plain job task artifact hplain hcost).symm.trans h
    exact ⟨hplain, (congrArg ProposeMessage.ParentJobID (Except.ok.inj heq)).symm⟩
  · rintro ⟨hplain, hparent⟩
    rw [ProposalArrives, received_plain hplain hcost, hparent]

end Proposal

/-! ### A dispatch -/

section Dispatch

variable {F : Type} [Zero F] {job : Job} {runID : String} {payload : JsonOrBytes}

def dispatchFlags (job : Job) (runID : String) : FlagSet :=
  [("job-id", job.ID), ("run-id", runID), ("phase", phaseText job.Phase),
    ("attempt", formatD job.Attempts)]

lemma text_dispatch : (written (.dispatch job runID payload)).text.toList =
    line "dispatch" ((dispatchFlags job runID).map fun f => flag f.1 f.2) ++
      ' ' :: (terminator ++ ' ' :: formatInt (payload.getD []).length) ++ ['\n'] := by
  have htext : (written (.dispatch job runID payload)).text = FormulateDispatchV0Message job runID ++
      " -- " ++ formatD (payload.getD []).length ++ "\n" := rfl
  have hlength : formatInt (payload.getD []).length = (formatD (payload.getD []).length).toList := by
    rw [formatD, String.toList_ofList]
  rw [htext, hlength, dispatchFlags]
  unfold FormulateDispatchV0Message
  -- what the numbers and the phase look like does not matter here
  generalize formatD (payload.getD []).length = length
  generalize formatD job.Attempts = attempts
  generalize phaseText job.Phase = phase
  simp [flag, terminator, line]

lemma oneWord_phaseText (phase : JobPhase) : OneWord (phaseText phase) := by
  cases phase <;> decide

lemma read_dispatch (hid : OneWord job.ID) (hrun : OneWord runID) :
    QuotedArgv.read (written (.dispatch job runID payload)).text (payload.getD []) =
      some (⟨"dispatch", dispatchFlags job runID, payload.getD []⟩, []) :=
  read_payload (by decide) (cleanFlags_cons (by decide) hid.2 <| cleanFlags_cons (by decide) hrun.2 <|
    cleanFlags_cons (by decide) (oneWord_phaseText _).2 <|
    cleanFlags_cons (by decide) (clean_formatD _) cleanFlags_nil) text_dispatch

lemma received_dispatch (P : Parsers F) (hid : OneWord job.ID) (hrun : OneWord runID)
    (hattempts : IsInt64 job.Attempts) :
    received (dispatchV0Factory P) (.dispatch job runID payload) = .ok {
      JobID := job.ID
      RunID := runID
      Phase := phaseText job.Phase
      Attempt := job.Attempts
      MaxExecTime := 0
      MaxMemoryBytes := 0
      MaxCPUCores := 0
      Payload := payload.getD [] } := by
  have hjob : requireFlag (dispatchFlags job runID) "job-id" = .ok job.ID :=
    requireFlag_of_lookup (by simp [dispatchFlags]) hid.1
  have hphase : requireFlag (dispatchFlags job runID) "phase" = .ok (phaseText job.Phase) :=
    requireFlag_of_lookup (by simp [dispatchFlags]) (oneWord_phaseText _).1
  have hattempt : requireInt (dispatchFlags job runID) "attempt" = .ok job.Attempts :=
    requireInt_formatD hattempts (by simp [dispatchFlags])
  have hrunID : requireFlag (dispatchFlags job runID) "run-id" = .ok runID :=
    requireFlag_of_lookup (by simp [dispatchFlags]) hrun.1
  have hknown : ¬(phaseText job.Phase ≠ "run" ∧ phaseText job.Phase ≠ "consolidate") := by
    cases job.Phase <;> decide
  have hnone {name : String} (hname : name ∉ ["job-id", "run-id", "phase", "attempt"]) :
      Get (dispatchFlags job runID) name = "" := by
    simp only [List.mem_cons, List.not_mem_nil, or_false, not_or] at hname
    simp [Get, dispatchFlags, Lookup, Ne.symm hname.1, Ne.symm hname.2.1, Ne.symm hname.2.2.1,
      Ne.symm hname.2.2.2]
  have hpayload : (written (.dispatch job runID payload)).payload = payload.getD [] := rfl
  unfold received
  rw [hpayload, read_dispatch hid hrun]
  simp only [dispatchV0Factory, optionalFlag]
  rw [hjob, hphase, hattempt, hrunID, hnone (by decide), hnone (by decide), hnone (by decide)]
  change (if _ then _ else _) = _
  rw [if_neg hknown]
  rfl

end Dispatch

/-! ### The frame of an accepted job -/

section Accept

variable {cfg : Config} {s t : World} {w : ConnID} {workerID jobID : String}

/-- The digits of Crockford's base 32, of which ULIDs are made. -/
def ulidAlphabet : List Char := "0123456789ABCDEFGHJKMNPQRSTVWXYZ".toList

def IsULID (id : String) : Prop := id.toList.length = 26 ∧ ∀ c ∈ id.toList, c ∈ ulidAlphabet

instance : DecidablePred IsULID := fun _ => @instDecidableAnd _ _ _ (List.decidableBAll _ _)

lemma IsULID.oneWord {id : String} (h : IsULID id) : OneWord id := by
  refine ⟨?_, fun hc => ?_, fun hc => ?_, fun hc => ?_⟩
  · rintro rfl
    exact absurd h.1 (by decide)
  all_goals exact absurd (h.2 _ hc) (by decide)

/-- `ulid.Make` makes ULIDs. -/
def Minted : {β : Type} → Call β → β → Prop
  | _, .ulidMake, id => IsULID id
  | _, _, _ => True

def minting (cfg : Stores) {β : Type} (c : Call β) (s : World) (b : β) (t : World) : Prop :=
  exec cfg c s b t ∧ Minted c b

/-- The jobs of the store have ULIDs, and their counters fit their type. -/
def Held (s : World) : Prop :=
  ∀ id j, s.jobs.get id = some j → IsULID j.ID ∧ IsInt64 j.Attempts

def runOf (job : Job) (runID workerID : String) (payload : JsonOrBytes) : JobRun where
  ID := runID
  JobID := job.ID
  Phase := job.Phase
  Attempt := job.Attempts + 1
  WorkerID := workerID
  Status := .provisioning
  ResultType := .success
  InputPayload := payload

/-- Making up the payload sends nothing and records no run. -/
lemma resolve_reads {job : Job} {payload : Option JsonOrBytes}
    (h : Prog.Ends (minting cfg.toStores) (resolveDispatchPayload cfg job) s payload t) :
    t.sent = s.sent ∧ t.runs = s.runs := by
  unfold resolveDispatchPayload at h
  split_ifs at h
  · obtain ⟨-, rfl⟩ := h
    exact ⟨rfl, rfl⟩
  · obtain ⟨children, u, ⟨⟨-, -, rfl⟩, -⟩, -, rfl⟩ := ends_step.mp h
    exact ⟨rfl, rfl⟩

/-- A dispatch that is sent is that of the run just recorded, unless recording it failed. -/
lemma sent_of_accept (hs : Held s)
    (h : Prog.Ends (minting cfg.toStores) (handleAcceptMessage cfg w workerID jobID) s () t) :
    t.sent = s.sent ∨ ∃ job runID payload, t.sent = s.sent ++ [(w, .dispatch job runID payload)] ∧
      (t.runs = s.runs ∨ t.runs = s.runs.put (runOf job runID workerID payload)) ∧
      IsULID job.ID ∧ IsInt64 job.Attempts ∧ IsULID runID := by
  obtain ⟨updated, s₁, ⟨⟨now, -, rfl⟩, -⟩, h⟩ := ends_step.mp h
  split_ifs at h with hupdated
  · obtain ⟨-, rfl⟩ := h
    exact .inl rfl
  obtain ⟨found, s₂, ⟨⟨hfound, rfl⟩, -⟩, h⟩ := ends_step.mp h
  rcases found with _ | job
  · obtain ⟨-, rfl⟩ := h
    exact .inl rfl
  -- the job read back is the stored one, but for its status
  have hjob : IsULID job.ID ∧ IsInt64 job.Attempts := by
    rw [get_modify _ _ _ (JobMutation.apply_ID _ now), if_pos rfl] at hfound
    obtain ⟨j, hj, rfl⟩ := Option.map_eq_some_iff.mp hfound.symm
    exact hs _ j hj
  obtain ⟨resolved, s₃, hresolved, h⟩ := ends_bind.mp h
  obtain ⟨hsent, hruns⟩ := resolve_reads hresolved
  rcases resolved with _ | payload
  · obtain ⟨-, rfl⟩ := h
    exact .inl hsent
  obtain ⟨runID, s₄, ⟨⟨-, -, rfl⟩, hrunID⟩, h⟩ := ends_step.mp h
  obtain ⟨created, s₅, ⟨hcreated, -⟩, h⟩ := ends_step.mp h
  obtain ⟨_, s₆, ⟨rfl, -⟩, h⟩ := ends_step.mp h
  obtain ⟨sent, s₇, ⟨hsend, -⟩, -, rfl⟩ := ends_step.mp h
  have hrun : s₅.sent = s.sent ∧
      (s₅.runs = s.runs ∨ s₅.runs = s.runs.put (runOf job runID workerID payload)) := by
    rcases hcreated with ⟨-, rfl⟩ | ⟨-, rfl⟩
    · exact ⟨hsent, .inr (congrArg (Table.put · _) hruns)⟩
    · exact ⟨hsent, .inl hruns⟩
  rcases hsend with ⟨-, rfl⟩ | ⟨-, rfl⟩
  · exact .inr ⟨job, runID, payload, congrArg (· ++ _) hrun.1, hrun.2, hjob.1, hjob.2, hrunID⟩
  · exact .inl hrun.1

end Accept

/-! ### Main result -/

section Main

variable {F : Type} [Zero F]

end Main

def encodeTask : Task where
  Name := "encode"
  Limitations := { MaxExecutionTime := 5000000000, MaxMemoryBytes := 1048576 }

def encodeJob : Job where
  ID := "01HZX3F7Q2V8W9YKJ5N6M4T0RA"
  TaskName := "encode"
  Payload := some [1, 2, 3]

def encodeArtifact : ArtifactInfo where
  Hash := "9f86d081"
  URL := "http://manager:8080/tasks/encode/artifacts/1.0/linux/amd64"
  Dependencies := ["ffmpeg"]

def encodeRunID : String := "01HZX3F7Q2V8W9YKJ5N6M4T0RB"

def proposed : World :=
  { World.initial with jobs := (Table.empty _).put encodeJob, tasks := (Table.empty _).put encodeTask }

def dispatched : World :=
  let job := { encodeJob with Status := .accepted }
  { proposed with
    jobs := proposed.jobs.modify encodeJob.ID (JobMutation.accepted.apply 0)
    issued := {encodeRunID}
    runs := proposed.runs.put (runOf job encodeRunID "w" (some [1, 2, 3]))
    activeRunIDs := AList.insert encodeJob.ID encodeRunID ∅
    sent := [(0, .dispatch job encodeRunID (some [1, 2, 3]))] }

def floatParsers : Parsers ℚ where
  ParseDuration := fun s => .error ("time: invalid duration " ++ s.quote)
  ParseFloat := fun s => .error (numError "ParseFloat" s .invalidSyntax)

lemma accept_encode : Prog.Ends (minting Config.defaults.toStores)
    (handleAcceptMessage .defaults 0 "w" encodeJob.ID) proposed () dispatched := by
  let accepted := { encodeJob with Status := .accepted }
  refine ends_step.mpr ⟨some true, _, ⟨⟨0, rfl, rfl⟩, trivial⟩, ?_⟩
  refine ends_step.mpr ⟨some accepted, _, ⟨⟨rfl, rfl⟩, trivial⟩, ?_⟩
  refine ends_step.mpr ⟨encodeRunID, _,
    ⟨⟨by decide, Finset.notMem_empty _, rfl⟩, show IsULID encodeRunID by decide +kernel⟩, ?_⟩
  refine ends_step.mpr ⟨true, _, ⟨.inl ⟨rfl, rfl⟩, trivial⟩, ?_⟩
  refine ends_step.mpr ⟨(), _, ⟨rfl, trivial⟩, ?_⟩
  exact ends_step.mpr ⟨true, _, ⟨.inl ⟨rfl, rfl⟩, trivial⟩, rfl, rfl⟩

lemma held_proposed : Held proposed := by
  intro id j hj
  rw [proposed, get_put] at hj
  split_ifs at hj
  · obtain rfl := Option.some.inj hj
    decide +kernel
  · exact nomatch hj

end Workforce.Frames
