import Workforce.StoredRecords

/-!
The four kinds of entities the store keeps, field by field.

The members have the names of the fields; a run has two payloads, a job a payload and a result,
a delivery one, and a task none.
-/

namespace Workforce.StoredEntities

open Json Payloads Replies StoredRecords Decimal Frames
open Contract hiding Bytes

variable (sp : Spelling)

/-- Members in which each field is read from the value at its place. -/
def Laid (names : List String) (vs : List Value) (ms : List (Bytes × Value)) : Prop :=
  ∀ {α : Type} {decode : Decoder α} {zero : α} {name : String} {v : Value} (i : ℕ),
    names[i]? = some name → vs[i]? = some v → field name decode zero ms = decode zero v

lemma exists_laid {names : List String} (hn : DistinctNames names) (vs : List Value) :
    ∃ ms, members (record names (vs.map some)) = some ms ∧ Laid names vs ms := by
  refine ⟨_, rfl, fun {α decode zero name v} i hname hv => ?_⟩
  have hv' : (vs.map some)[i]? = some (some v) := by
    rw [List.getElem?_map, hv]
    rfl
  exact field_record zero hn hname hv'

section Pointers

variable {sp} {v : Value}

lemma simple_timePointer {p : Option Time} (h : encodePointer (encodeTime sp) p = some v) :
    Simple v := simple_encodePointer h fun _ _ ht => simple_encodeTime ht

lemma decode_timePointer {p : Option Time} (h : encodePointer (encodeTime sp) p = some v)
    (zero : Time) (q : Option Time) : decodePointer decodeTime zero q v = some p := by
  refine decodePointer_encodePointer h fun t _ ht => ⟨?_, decodeTime_encodeTime ht⟩
  obtain ⟨cs, -, rfl⟩ := Option.map_eq_some_iff.mp ht
  simp

def encodeDuration (d : Duration) : Option Value := some (encodeInt d)

lemma simple_durationPointer {p : Option Duration} (h : encodePointer encodeDuration p = some v) :
    Simple v := by
  refine simple_encodePointer h fun d _ hd => ?_
  cases hd
  exact simple_encodeInt d

lemma decode_durationPointer {p : Option Duration} (h : encodePointer encodeDuration p = some v)
    (hp : ∀ d ∈ p, IsInt64 d) (zero : Duration) (q : Option Duration) :
    decodePointer decodeInt zero q v = some p := by
  refine decodePointer_encodePointer h fun d hd hv => ?_
  cases hv
  exact ⟨by simp [encodeInt], fun b => decodeInt_encodeInt b (hp d hd)⟩

end Pointers

/-- Values of a record: for each name one, and none but the payloads is nested deep. -/
structure Valued (names : List String) (payloads : List JsonOrBytes) (vs : List Value) : Prop where
  length : names.length = vs.length
  simple_or : ∀ v ∈ vs, Simple v ∨ ∃ r ∈ payloads, v = payloadValue r
  mem : ∀ r ∈ payloads, payloadValue r ∈ vs

lemma isSome_pair {α β γ : Type} (a : Option α) (b : Option β) (f : α → β → γ) :
    (a.bind fun x => b.bind fun y => some (f x y)).isSome ↔ a.isSome ∧ b.isSome := by
  cases a <;> cases b <;> simp

/-! ### Jobs -/

def jobStatusText : JobStatus → String
  | .pending => "pending"
  | .proposing => "proposing"
  | .accepted => "accepted"
  | .provisioning => "provisioning"
  | .running => "running"
  | .awaitingChildren => "awaiting_children"
  | .completed => "completed"
  | .failed => "failed"
  | .cancelled => "cancelled"

def jobStatuses : List JobStatus :=
  [.pending, .proposing, .accepted, .provisioning, .running, .awaitingChildren, .completed, .failed,
    .cancelled]

lemma find_jobStatus (st : JobStatus) :
    (jobStatuses.find? fun b => jobStatusText b = jobStatusText st) = some st := by
  cases st <;> decide

def jobPhases : List JobPhase := [.run, .consolidate]

lemma find_jobPhase (ph : JobPhase) :
    (jobPhases.find? fun b => phaseText b = phaseText ph) = some ph := by
  cases ph <;> decide

def jobNames : List String :=
  ["ID", "ParentJobID", "TaskName", "ArtifactVersion", "Status", "Phase", "Priority", "Cost",
    "Attempts", "Payload", "Result", "FailureReason", "WebhookURL", "WebhookEvents",
    "WebhookHeaders", "CreatedAt", "UpdatedAt", "CompletedAt", "Duration"]

lemma jobNames_distinct : DistinctNames jobNames := by decide +kernel

def jobValues (job : Job) : Option (List Value) := do
  let payload ← embed (MarshalJSON job.Payload)
  let result ← embed (MarshalJSON job.Result)
  let createdAt ← encodeTime sp job.CreatedAt
  let updatedAt ← encodeTime sp job.UpdatedAt
  let completedAt ← encodePointer (encodeTime sp) job.CompletedAt
  let duration ← encodePointer encodeDuration job.Duration
  return [encodeString job.ID, encodeString job.ParentJobID, encodeString job.TaskName,
    encodeString job.ArtifactVersion, encodeEnum jobStatusText job.Status,
    encodeEnum phaseText job.Phase, encodeInt job.Priority, encodeInt job.Cost,
    encodeInt job.Attempts, payload, result, encodeString job.FailureReason,
    encodeString job.WebhookURL, encodeStrings (sp.isNil job.ID "WebhookEvents") job.WebhookEvents,
    encodeMap (sp.isNil job.ID "WebhookHeaders") job.WebhookHeaders, createdAt, updatedAt,
    completedAt, duration]

def decodeJob (v : Value) : Option Job := do
  let ms ← members v
  let ID ← field "ID" decodeString "" ms
  let ParentJobID ← field "ParentJobID" decodeString "" ms
  let TaskName ← field "TaskName" decodeString "" ms
  let ArtifactVersion ← field "ArtifactVersion" decodeString "" ms
  let Status ← field "Status" (decodeEnum jobStatuses jobStatusText) .pending ms
  let Phase ← field "Phase" (decodeEnum jobPhases phaseText) .run ms
  let Priority ← field "Priority" decodeInt 0 ms
  let Cost ← field "Cost" decodeInt 0 ms
  let Attempts ← field "Attempts" decodeInt 0 ms
  let Payload ← field "Payload" decodePayload none ms
  let Result ← field "Result" decodePayload none ms
  let FailureReason ← field "FailureReason" decodeString "" ms
  let WebhookURL ← field "WebhookURL" decodeString "" ms
  let WebhookEvents ← field "WebhookEvents" decodeStrings [] ms
  let WebhookHeaders ← field "WebhookHeaders" decodeMap [] ms
  let CreatedAt ← field "CreatedAt" decodeTime 0 ms
  let UpdatedAt ← field "UpdatedAt" decodeTime 0 ms
  let CompletedAt ← field "CompletedAt" (decodePointer decodeTime 0) none ms
  let Duration ← field "Duration" (decodePointer decodeInt 0) none ms
  return { ID, ParentJobID, TaskName, ArtifactVersion, Status, Phase, Priority, Cost, Attempts,
           Payload, Result, FailureReason, WebhookURL, WebhookEvents, WebhookHeaders, CreatedAt,
           UpdatedAt, CompletedAt, Duration }

def rereadJob (job : Job) : Option Job := do
  let payload ← rereadPayload job.Payload
  let result ← rereadPayload job.Result
  return { job with
    Payload := payload, Result := result, WebhookHeaders := distinctKeys job.WebhookHeaders }

def JobFits (job : Job) : Prop :=
  IsInt64 job.Priority ∧ IsInt64 job.Cost ∧ IsInt64 job.Attempts ∧ ∀ d ∈ job.Duration, IsInt64 d

section Job

variable {sp} {job : Job} {vs : List Value}

lemma valued_job (h : jobValues sp job = some vs) :
    Valued jobNames [job.Payload, job.Result] vs ∧
      (JobFits job → decodeJob (record jobNames (vs.map some)) = rereadJob job) := by
  simp only [jobValues, embed_MarshalJSON, Option.bind_eq_bind, Option.bind_some,
    Option.bind_eq_some_iff, Option.pure_def, Option.some.injEq] at h
  obtain ⟨createdAt, h1, updatedAt, h2, completedAt, h3, duration, h4, rfl⟩ := h
  refine ⟨⟨rfl, ?_, by simp⟩, fun ⟨hpriority, hcost, hattempts, hduration⟩ => ?_⟩
  · have hstring (s : String) := simple_encodeString s
    have hint (n : ℤ) := simple_encodeInt n
    simp only [List.forall_mem_cons]
    exact ⟨.inl (hstring _), .inl (hstring _), .inl (hstring _), .inl (hstring _),
      .inl (hstring _), .inl (hstring _), .inl (hint _), .inl (hint _), .inl (hint _),
      .inr ⟨_, by simp, rfl⟩, .inr ⟨_, by simp, rfl⟩, .inl (hstring _), .inl (hstring _),
      .inl (simple_encodeStrings _ _), .inl (simple_encodeMap _ _), .inl (simple_encodeTime h1),
      .inl (simple_encodeTime h2), .inl (simple_timePointer h3), .inl (simple_durationPointer h4),
      by simp⟩
  obtain ⟨ms, hms, hfield⟩ := exists_laid jobNames_distinct _
  rw [decodeJob, hms, Option.bind_eq_bind, Option.bind_some]
  rw [hfield 0 rfl rfl, hfield 1 rfl rfl, hfield 2 rfl rfl, hfield 3 rfl rfl, hfield 4 rfl rfl,
    hfield 5 rfl rfl, hfield 6 rfl rfl, hfield 7 rfl rfl, hfield 8 rfl rfl, hfield 9 rfl rfl,
    hfield 10 rfl rfl, hfield 11 rfl rfl, hfield 12 rfl rfl, hfield 13 rfl rfl, hfield 14 rfl rfl,
    hfield 15 rfl rfl, hfield 16 rfl rfl, hfield 17 rfl rfl, hfield 18 rfl rfl]
  rw [decodeString_encodeString, decodeString_encodeString, decodeString_encodeString,
    decodeString_encodeString, decodeEnum_encodeEnum (find_jobStatus _),
    decodeEnum_encodeEnum (find_jobPhase _), decodeInt_encodeInt _ hpriority,
    decodeInt_encodeInt _ hcost, decodeInt_encodeInt _ hattempts, decodeString_encodeString,
    decodeString_encodeString, decodeStrings_encodeStrings, decodeMap_encodeMap,
    decodeTime_encodeTime h1, decodeTime_encodeTime h2, decode_timePointer h3,
    decode_durationPointer h4 hduration]
  rfl

end Job

def jobCoding : Coding Job where
  names := jobNames
  values := jobValues sp
  decode := decodeJob
  payloads job := [job.Payload, job.Result]
  Fits := JobFits
  reread := rereadJob
  length_values h := (valued_job h).1.length
  simple_or_payload h := (valued_job h).1.simple_or
  payload_mem h := (valued_job h).1.mem
  decode_record hfits h := (valued_job h).2 hfits
  update job l := { job with
    Payload := l.getD 0 none, Result := l.getD 1 none
    WebhookHeaders := distinctKeys job.WebhookHeaders }
  reread_eq job := by simp [rereadJob, Option.map_eq_bind, Option.bind_assoc]
  payloads_update h := by
    obtain ⟨payload, result, rfl⟩ := List.length_eq_two.mp h
    rfl
  update_update job l := by simp [distinctKeys_distinctKeys]
  fits_update _ hfits := hfits
  values_update := by
    intro job l hvs
    simpa [jobValues, embed_MarshalJSON, Option.isSome_iff_exists,
      Option.bind_eq_some_iff] using hvs

/-! ### Runs -/

def runStatusText : RunStatus → String
  | .provisioning => "provisioning"
  | .running => "running"
  | .completed => "completed"
  | .failed => "failed"

def runStatuses : List RunStatus := [.provisioning, .running, .completed, .failed]

lemma find_runStatus (st : RunStatus) :
    (runStatuses.find? fun b => runStatusText b = runStatusText st) = some st := by
  cases st <;> decide

def resultTypeText : ResultType → String
  | .success => "result"
  | .error => "error"
  | .subjobs => "subjobs"

def resultTypes : List ResultType := [.success, .error, .subjobs]

lemma find_resultType (rt : ResultType) :
    (resultTypes.find? fun b => resultTypeText b = resultTypeText rt) = some rt := by
  cases rt <;> decide

def runNames : List String :=
  ["ID", "JobID", "Phase", "Attempt", "WorkerID", "Status", "InputPayload", "OutputPayload",
    "FailureReason", "ExitCode", "ResultType", "StartedAt", "FinishedAt"]

lemma runNames_distinct : DistinctNames runNames := by decide +kernel

def runValues (run : JobRun) : Option (List Value) := do
  let inputPayload ← embed (MarshalJSON run.InputPayload)
  let outputPayload ← embed (MarshalJSON run.OutputPayload)
  let startedAt ← encodeTime sp run.StartedAt
  let finishedAt ← encodeTime sp run.FinishedAt
  return [encodeString run.ID, encodeString run.JobID, encodeEnum phaseText run.Phase,
    encodeInt run.Attempt, encodeString run.WorkerID, encodeEnum runStatusText run.Status,
    inputPayload, outputPayload, encodeString run.FailureReason, encodeInt run.ExitCode,
    encodeEnum resultTypeText run.ResultType, startedAt, finishedAt]

def decodeRun (v : Value) : Option JobRun := do
  let ms ← members v
  let ID ← field "ID" decodeString "" ms
  let JobID ← field "JobID" decodeString "" ms
  let Phase ← field "Phase" (decodeEnum jobPhases phaseText) .run ms
  let Attempt ← field "Attempt" decodeInt 0 ms
  let WorkerID ← field "WorkerID" decodeString "" ms
  let Status ← field "Status" (decodeEnum runStatuses runStatusText) .provisioning ms
  let InputPayload ← field "InputPayload" decodePayload none ms
  let OutputPayload ← field "OutputPayload" decodePayload none ms
  let FailureReason ← field "FailureReason" decodeString "" ms
  let ExitCode ← field "ExitCode" decodeInt 0 ms
  let ResultType ← field "ResultType" (decodeEnum resultTypes resultTypeText) .success ms
  let StartedAt ← field "StartedAt" decodeTime 0 ms
  let FinishedAt ← field "FinishedAt" decodeTime 0 ms
  return { ID, JobID, Phase, Attempt, WorkerID, Status, InputPayload, OutputPayload,
           FailureReason, ExitCode, ResultType, StartedAt, FinishedAt }

def rereadRun (run : JobRun) : Option JobRun := do
  let inputPayload ← rereadPayload run.InputPayload
  let outputPayload ← rereadPayload run.OutputPayload
  return { run with InputPayload := inputPayload, OutputPayload := outputPayload }

def RunFits (run : JobRun) : Prop := IsInt64 run.Attempt ∧ IsInt64 run.ExitCode

section Run

variable {sp} {run : JobRun} {vs : List Value}

lemma valued_run (h : runValues sp run = some vs) :
    Valued runNames [run.InputPayload, run.OutputPayload] vs ∧
      (RunFits run → decodeRun (record runNames (vs.map some)) = rereadRun run) := by
  simp only [runValues, embed_MarshalJSON, Option.bind_eq_bind, Option.bind_some,
    Option.bind_eq_some_iff, Option.pure_def, Option.some.injEq] at h
  obtain ⟨startedAt, h1, finishedAt, h2, rfl⟩ := h
  refine ⟨⟨rfl, ?_, by simp⟩, fun ⟨hattempt, hexit⟩ => ?_⟩
  · have hstring (s : String) := simple_encodeString s
    have hint (n : ℤ) := simple_encodeInt n
    simp only [List.forall_mem_cons]
    exact ⟨.inl (hstring _), .inl (hstring _), .inl (hstring _), .inl (hint _), .inl (hstring _),
      .inl (hstring _), .inr ⟨_, by simp, rfl⟩, .inr ⟨_, by simp, rfl⟩, .inl (hstring _),
      .inl (hint _), .inl (hstring _), .inl (simple_encodeTime h1), .inl (simple_encodeTime h2),
      by simp⟩
  obtain ⟨ms, hms, hfield⟩ := exists_laid runNames_distinct _
  rw [decodeRun, hms, Option.bind_eq_bind, Option.bind_some]
  rw [hfield 0 rfl rfl, hfield 1 rfl rfl, hfield 2 rfl rfl, hfield 3 rfl rfl, hfield 4 rfl rfl,
    hfield 5 rfl rfl, hfield 6 rfl rfl, hfield 7 rfl rfl, hfield 8 rfl rfl, hfield 9 rfl rfl,
    hfield 10 rfl rfl, hfield 11 rfl rfl, hfield 12 rfl rfl]
  rw [decodeString_encodeString, decodeString_encodeString,
    decodeEnum_encodeEnum (find_jobPhase _), decodeInt_encodeInt _ hattempt,
    decodeString_encodeString, decodeEnum_encodeEnum (find_runStatus _),
    decodeString_encodeString, decodeInt_encodeInt _ hexit,
    decodeEnum_encodeEnum (find_resultType _), decodeTime_encodeTime h1, decodeTime_encodeTime h2]
  rfl

end Run

def runCoding : Coding JobRun where
  names := runNames
  values := runValues sp
  decode := decodeRun
  payloads run := [run.InputPayload, run.OutputPayload]
  Fits := RunFits
  reread := rereadRun
  length_values h := (valued_run h).1.length
  simple_or_payload h := (valued_run h).1.simple_or
  payload_mem h := (valued_run h).1.mem
  decode_record hfits h := (valued_run h).2 hfits
  update run l := { run with InputPayload := l.getD 0 none, OutputPayload := l.getD 1 none }
  reread_eq run := by simp [rereadRun, Option.map_eq_bind, Option.bind_assoc]
  payloads_update h := by
    obtain ⟨input, output, rfl⟩ := List.length_eq_two.mp h
    rfl
  update_update _ _ := rfl
  fits_update _ hfits := hfits
  values_update := by
    intro run l hvs
    simpa [runValues, embed_MarshalJSON, Option.isSome_iff_exists,
      Option.bind_eq_some_iff] using hvs

/-! ### Deliveries -/

def webhookNames : List String :=
  ["ID", "JobID", "Event", "URL", "Payload", "Headers", "Attempts", "NextAttemptAt", "CreatedAt"]

lemma webhookNames_distinct : DistinctNames webhookNames := by decide +kernel

def webhookValues (entry : WebhookEntry) : Option (List Value) := do
  let payload ← embed (MarshalJSON entry.Payload)
  let nextAttemptAt ← encodeTime sp entry.NextAttemptAt
  let createdAt ← encodeTime sp entry.CreatedAt
  return [encodeString entry.ID, encodeString entry.JobID, encodeString entry.Event,
    encodeString entry.URL, payload, encodeMap (sp.isNil entry.ID "Headers") entry.Headers,
    encodeInt entry.Attempts, nextAttemptAt, createdAt]

def decodeWebhook (v : Value) : Option WebhookEntry := do
  let ms ← members v
  let ID ← field "ID" decodeString "" ms
  let JobID ← field "JobID" decodeString "" ms
  let Event ← field "Event" decodeString "" ms
  let URL ← field "URL" decodeString "" ms
  let Payload ← field "Payload" decodePayload none ms
  let Headers ← field "Headers" decodeMap [] ms
  let Attempts ← field "Attempts" decodeInt 0 ms
  let NextAttemptAt ← field "NextAttemptAt" decodeTime 0 ms
  let CreatedAt ← field "CreatedAt" decodeTime 0 ms
  return { ID, JobID, Event, URL, Payload, Headers, Attempts, NextAttemptAt, CreatedAt }

def rereadWebhook (entry : WebhookEntry) : Option WebhookEntry :=
  (rereadPayload entry.Payload).map fun payload =>
    { entry with Payload := payload, Headers := distinctKeys entry.Headers }

def WebhookFits (entry : WebhookEntry) : Prop := IsInt64 entry.Attempts

section Webhook

variable {sp} {entry : WebhookEntry} {vs : List Value}

lemma valued_webhook (h : webhookValues sp entry = some vs) :
    Valued webhookNames [entry.Payload] vs ∧
      (WebhookFits entry →
        decodeWebhook (record webhookNames (vs.map some)) = rereadWebhook entry) := by
  simp only [webhookValues, embed_MarshalJSON, Option.bind_eq_bind, Option.bind_some,
    Option.bind_eq_some_iff, Option.pure_def, Option.some.injEq] at h
  obtain ⟨nextAttemptAt, h1, createdAt, h2, rfl⟩ := h
  refine ⟨⟨rfl, ?_, by simp⟩, fun hfits => ?_⟩
  · have hstring (s : String) := simple_encodeString s
    simp only [List.forall_mem_cons]
    exact ⟨.inl (hstring _), .inl (hstring _), .inl (hstring _), .inl (hstring _),
      .inr ⟨_, by simp, rfl⟩, .inl (simple_encodeMap _ _), .inl (simple_encodeInt _),
      .inl (simple_encodeTime h1), .inl (simple_encodeTime h2), by simp⟩
  obtain ⟨ms, hms, hfield⟩ := exists_laid webhookNames_distinct _
  rw [decodeWebhook, hms, Option.bind_eq_bind, Option.bind_some]
  rw [hfield 0 rfl rfl, hfield 1 rfl rfl, hfield 2 rfl rfl, hfield 3 rfl rfl, hfield 4 rfl rfl,
    hfield 5 rfl rfl, hfield 6 rfl rfl, hfield 7 rfl rfl, hfield 8 rfl rfl]
  rw [decodeString_encodeString, decodeString_encodeString, decodeString_encodeString,
    decodeString_encodeString, decodeMap_encodeMap, decodeInt_encodeInt _ hfits,
    decodeTime_encodeTime h1, decodeTime_encodeTime h2, rereadWebhook, Option.map_eq_bind]
  rfl

end Webhook

def webhookCoding : Coding WebhookEntry where
  names := webhookNames
  values := webhookValues sp
  decode := decodeWebhook
  payloads entry := [entry.Payload]
  Fits := WebhookFits
  reread := rereadWebhook
  length_values h := (valued_webhook h).1.length
  simple_or_payload h := (valued_webhook h).1.simple_or
  payload_mem h := (valued_webhook h).1.mem
  decode_record hfits h := (valued_webhook h).2 hfits
  update entry l := { entry with
    Payload := l.getD 0 none, Headers := distinctKeys entry.Headers }
  reread_eq entry := by simp [rereadWebhook, Option.map_eq_bind, Option.bind_assoc]
  payloads_update h := by
    obtain ⟨payload, rfl⟩ := List.length_eq_one_iff.mp h
    rfl
  update_update entry l := by simp [distinctKeys_distinctKeys]
  fits_update _ hfits := hfits
  values_update := by
    intro entry l hvs
    simpa [webhookValues, embed_MarshalJSON, Option.isSome_iff_exists,
      Option.bind_eq_some_iff] using hvs

/-! ### Tasks -/

def limitationsNames : List String := ["MaxExecutionTime", "MaxMemoryBytes", "MaxCPUCores"]

lemma limitationsNames_distinct : DistinctNames limitationsNames := by decide +kernel

def limitationsValues (cores : Bytes) (l : Limitations) : List Value :=
  [encodeInt l.MaxExecutionTime, encodeInt l.MaxMemoryBytes, .num cores]

def encodeLimitations (cores : Bytes) (l : Limitations) : Value :=
  record limitationsNames ((limitationsValues cores l).map some)

/-- A number whose value is not kept. -/
def decodeFloat : Decoder Unit
  | _, .null | _, .num _ => some ()
  | _, _ => none

def decodeLimitations : Decoder Limitations := fun l v => do
  let ms ← members v
  let MaxExecutionTime ← field "MaxExecutionTime" decodeInt l.MaxExecutionTime ms
  let MaxMemoryBytes ← field "MaxMemoryBytes" decodeInt l.MaxMemoryBytes ms
  let _ ← field "MaxCPUCores" decodeFloat () ms
  return { MaxExecutionTime, MaxMemoryBytes }

def retryPolicyNames : List String := ["MaxAttempts", "RetryDelay", "MaxRetryDelay"]

lemma retryPolicyNames_distinct : DistinctNames retryPolicyNames := by decide +kernel

def retryPolicyValues (p : RetryPolicy) : List Value :=
  [encodeInt p.MaxAttempts, encodeInt p.RetryDelay, encodeInt p.MaxRetryDelay]

def encodeRetryPolicy (p : RetryPolicy) : Value :=
  record retryPolicyNames ((retryPolicyValues p).map some)

def decodeRetryPolicy : Decoder RetryPolicy := fun p v => do
  let ms ← members v
  let MaxAttempts ← field "MaxAttempts" decodeInt p.MaxAttempts ms
  let RetryDelay ← field "RetryDelay" decodeInt p.RetryDelay ms
  let MaxRetryDelay ← field "MaxRetryDelay" decodeInt p.MaxRetryDelay ms
  return { MaxAttempts, RetryDelay, MaxRetryDelay }

def taskNames : List String := ["Name", "Limitations", "RetryPolicy", "NoResult", "Cost"]

lemma taskNames_distinct : DistinctNames taskNames := by decide +kernel

def taskValues (task : Task) : List Value :=
  [encodeString task.Name, encodeLimitations (sp.cores task.Name) task.Limitations,
    encodeRetryPolicy task.RetryPolicy, encodeBool task.NoResult, encodeInt task.Cost]

def decodeTask (v : Value) : Option Task := do
  let ms ← members v
  let Name ← field "Name" decodeString "" ms
  let Limitations ← field "Limitations" decodeLimitations {} ms
  let RetryPolicy ← field "RetryPolicy" decodeRetryPolicy {} ms
  let NoResult ← field "NoResult" decodeBool false ms
  let Cost ← field "Cost" decodeInt 0 ms
  return { Name, Limitations, RetryPolicy, NoResult, Cost }

structure TaskFits (task : Task) : Prop where
  cost : IsInt64 task.Cost
  executionTime : IsInt64 task.Limitations.MaxExecutionTime
  memory : IsInt64 task.Limitations.MaxMemoryBytes
  attempts : IsInt64 task.RetryPolicy.MaxAttempts
  delay : IsInt64 task.RetryPolicy.RetryDelay
  maxDelay : IsInt64 task.RetryPolicy.MaxRetryDelay

lemma simple_flat (names : List String) {vs : List Value}
    (h : ∀ v ∈ vs, WellFormed 0 v ∧ Escaped v) : Simple (record names (vs.map some)) := by
  have hvalue : ∀ v, some v ∈ vs.map some → WellFormed 0 v ∧ Escaped v :=
    fun v hv => h v (by simpa using hv)
  exact ⟨wellFormed_record fun v hv => (hvalue v hv).1,
    escaped_record fun v hv => (hvalue v hv).2⟩

lemma flat_encodeInt (n : ℤ) : WellFormed 0 (encodeInt n) ∧ Escaped (encodeInt n) :=
  ⟨wellFormed_encodeInt n, rfl⟩

lemma decodeLimitations_encode {cores : Bytes} {l : Limitations} (htime : IsInt64 l.MaxExecutionTime)
    (hmemory : IsInt64 l.MaxMemoryBytes) (l' : Limitations) :
    decodeLimitations l' (encodeLimitations cores l) = some l := by
  obtain ⟨ms, hms, hfield⟩ := exists_laid limitationsNames_distinct (limitationsValues cores l)
  rw [decodeLimitations, encodeLimitations, hms, Option.bind_eq_bind, Option.bind_some]
  rw [hfield 0 rfl rfl, hfield 1 rfl rfl, hfield 2 rfl rfl, decodeInt_encodeInt _ htime,
    decodeInt_encodeInt _ hmemory]
  rfl

lemma decodeRetryPolicy_encode {p : RetryPolicy} (hattempts : IsInt64 p.MaxAttempts)
    (hdelay : IsInt64 p.RetryDelay) (hmax : IsInt64 p.MaxRetryDelay) (p' : RetryPolicy) :
    decodeRetryPolicy p' (encodeRetryPolicy p) = some p := by
  obtain ⟨ms, hms, hfield⟩ := exists_laid retryPolicyNames_distinct (retryPolicyValues p)
  rw [decodeRetryPolicy, encodeRetryPolicy, hms, Option.bind_eq_bind, Option.bind_some]
  rw [hfield 0 rfl rfl, hfield 1 rfl rfl, hfield 2 rfl rfl, decodeInt_encodeInt _ hattempts,
    decodeInt_encodeInt _ hdelay, decodeInt_encodeInt _ hmax]
  rfl

lemma decodeTask_record {task : Task} (hfits : TaskFits task) :
    decodeTask (record taskNames ((taskValues sp task).map some)) = some task := by
  obtain ⟨ms, hms, hfield⟩ := exists_laid taskNames_distinct (taskValues sp task)
  rw [decodeTask, hms, Option.bind_eq_bind, Option.bind_some]
  rw [hfield 0 rfl rfl, hfield 1 rfl rfl, hfield 2 rfl rfl, hfield 3 rfl rfl, hfield 4 rfl rfl]
  rw [decodeString_encodeString, decodeLimitations_encode hfits.executionTime hfits.memory,
    decodeRetryPolicy_encode hfits.attempts hfits.delay hfits.maxDelay,
    decodeInt_encodeInt _ hfits.cost]
  rfl

def taskCoding : Coding Task where
  names := taskNames
  values task := some (taskValues sp task)
  decode := decodeTask
  payloads _ := []
  Fits := TaskFits
  reread := some
  length_values := by
    intro task vs h
    cases h
    rfl
  simple_or_payload := by
    intro task vs h
    cases h
    have hcores : WellFormed 0 (.num (sp.cores task.Name)) := .num (sp.cores_ok task.Name)
    have hlimits : Simple (encodeLimitations (sp.cores task.Name) task.Limitations) :=
      simple_flat _ (by simpa [limitationsValues, flat_encodeInt] using ⟨hcores, rfl⟩)
    have hpolicy : Simple (encodeRetryPolicy task.RetryPolicy) :=
      simple_flat _ (by simp [retryPolicyValues, flat_encodeInt])
    simp only [taskValues, List.forall_mem_cons]
    exact ⟨.inl (simple_encodeString _), .inl hlimits, .inl hpolicy, .inl ⟨.bool _, rfl⟩,
      .inl (simple_encodeInt _), by simp⟩
  payload_mem := by simp
  decode_record := by
    intro task vs hfits h
    cases h
    exact decodeTask_record sp hfits
  update task _ := task
  reread_eq := by simp
  payloads_update h := (List.length_eq_zero_iff.mp h).symm
  update_update _ _ := rfl
  fits_update _ hfits := hfits
  values_update := by simp

end Workforce.StoredEntities
