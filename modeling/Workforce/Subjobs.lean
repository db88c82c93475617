import Workforce.Replies

/-!
Child jobs a task asks for, on their way to the manager.

`EmitJobs` writes the requests as a JSON array with one object for each; the worker sends these
bytes as they are, and the manager's factory reads them into requests of its own, whose payload
is read by the rules for payloads.
-/

namespace Workforce.Subjobs

open Json Payloads Argv Frames Replies
open Contract hiding Bytes

/-! ### The task's side -/

/-- A request as the task makes it. The payload is any value; here it stands as the JSON that
`encoding/json` writes for it. -/
structure ChildJob where
  Task : String
  Payload : Value
  encoded : WellFormed (depth Payload) Payload
  Priority : ℤ := 0
  fits : Decimal.IsInt64 Priority := by decide
  Version : String := ""

/-- The members of the object; the last two are left out when they are zero. -/
def ChildJob.fields (job : ChildJob) : List (String × Value) :=
  [("task", encodeString job.Task), ("payload", job.Payload)] ++
    ((if job.Priority ≠ 0 then [("priority", encodeInt job.Priority)] else []) ++
      if job.Version ≠ "" then [("version", encodeString job.Version)] else [])

def ChildJob.encode (job : ChildJob) : Value := .obj (job.fields.map fun f => member f.1 f.2)

/-- What is written for the requests: an array, and a line end. -/
def EmitJobs (jobs : List ChildJob) : Bytes := render (.arr (jobs.map ChildJob.encode)) ++ [newline]

/-! ### The frame -/

/-- The message with which a worker passes the bytes on. -/
def subjobsMessage (jobID runID : String) (d : Duration) (data : Bytes) : Message where
  verb := "result"
  flags := [("job-id", jobID), ("run-id", runID), ("type", "subjobs"),
    ("duration", String.ofList (Durations.format d))]
  payload := data

/-- The request is the one the task made: the payload is the same JSON. -/
structure SameRequest (job : ChildJob) (req : ChildJobRequest) : Prop where
  task : req.Task = job.Task
  payload : ∃ bs v, req.Payload = some bs ∧ parse maxNestingDepth bs = some v ∧
    meaning v = meaning job.Payload
  priority : req.Priority = job.Priority
  version : req.Version = job.Version

/-- The frame is accepted, with the requests the task made. -/
def Delivered (jsonError : Bytes → String) (jobID runID : String) (d : Duration)
    (jobs : List ChildJob) : Prop :=
  ∃ msg, resultV0Factory jsonError (subjobsMessage jobID runID d (EmitJobs jobs)) = .ok msg ∧
    List.Forall₂ SameRequest jobs msg.Jobs

/-- A payload that can be passed on: no string, and with room for the array and the object
around it. -/
def Passable (v : Value) : Prop := (∀ raw, v ≠ .str raw) ∧ depth v + 2 ≤ maxNestingDepth

/-! ### One request -/

section Request

variable {job : ChildJob} {d : ℕ}

lemma decode_encode (job : ChildJob) : decodeChildJobRequest job.encode =
    (UnmarshalJSON (render job.Payload)).map fun payload =>
      { Task := job.Task, Payload := payload, Priority := job.Priority,
        Version := job.Version } := by
  have hpriority := decodeInt_encodeInt 0 job.fits
  simp only [ChildJob.encode, ChildJob.fields, decodeChildJobRequest, members]
  split_ifs with hp hv hv <;> simp only [ne_eq, not_not] at hp hv <;>
    simp +decide [field_member, decodePayload, hpriority, Option.map_eq_bind, hp, hv]

lemma fields_wellFormed (h : depth job.Payload ≤ d) : ∀ f ∈ job.fields, WellFormed d f.2 := by
  intro f hf
  simp only [ChildJob.fields, List.mem_append, List.mem_cons, List.not_mem_nil, or_false] at hf
  rcases hf with (rfl | rfl) | hf | hf
  · exact wellFormed_encodeString _
  · exact job.encoded.mono h
  · split_ifs at hf
    · rw [List.mem_singleton.mp hf]
      exact wellFormed_encodeInt _
    · cases hf
  · split_ifs at hf
    · rw [List.mem_singleton.mp hf]
      exact wellFormed_encodeString _
    · cases hf

lemma wellFormed_encode (h : depth job.Payload ≤ d) : WellFormed (d + 1) job.encode :=
  wellFormed_members _ (fields_wellFormed h)

lemma depth_encode (job : ChildJob) : depth job.encode = depth job.Payload + 1 := by
  refine le_antisymm (wellFormed_encode le_rfl).depth_le ?_
  refine Nat.succ_le_succ (depth_le_depthMembers (m := member "payload" job.Payload) ?_)
  simp [ChildJob.fields]

end Request

/-! ### All requests -/

section Requests

variable {jobs : List ChildJob}

lemma wellFormed_requests (jobs : List ChildJob) :
    ∃ d, WellFormed d (.arr (jobs.map ChildJob.encode)) := by
  refine ⟨(jobs.map fun job => depth job.Payload).sum + 1 + 1, .arr fun v hv => ?_⟩
  obtain ⟨job, hjob, rfl⟩ := List.mem_map.mp hv
  refine wellFormed_encode (List.single_le_sum (by simp) _ (List.mem_map_of_mem hjob))

lemma depth_requests : depth (.arr (jobs.map ChildJob.encode)) ≤ maxNestingDepth ↔
    ∀ job ∈ jobs, depth job.Payload + 2 ≤ maxNestingDepth := by
  constructor
  · intro h job hjob
    have hjob := depth_le_depthElems (List.mem_map_of_mem (f := ChildJob.encode) hjob)
    rw [depth_encode] at hjob
    exact (Nat.succ_le_succ hjob).trans h
  · intro h
    suffices helems : depthElems (jobs.map ChildJob.encode) ≤ maxNestingDepth - 1 from
      (Nat.succ_le_succ helems).trans (by decide)
    refine depthElems_le fun v hv => ?_
    obtain ⟨job, hjob, rfl⟩ := List.mem_map.mp hv
    rw [depth_encode]
    have := h job hjob
    omega

/-- What the manager reads from the bytes: each request by itself, if none is too deep. -/
lemma unmarshalJobs_EmitJobs {reqs : List ChildJobRequest} :
    unmarshalJobs (EmitJobs jobs) = some reqs ↔
      (∀ job ∈ jobs, depth job.Payload + 2 ≤ maxNestingDepth) ∧
        List.Forall₂ (fun job req => decodeChildJobRequest job.encode = some req) jobs reqs := by
  obtain ⟨d, hd⟩ := wellFormed_requests jobs
  rw [unmarshalJobs, EmitJobs, parse_render_newline hd, ← depth_requests]
  split_ifs with hroom
  · rw [Option.bind_some, decodeSlice, mapM_eq_some, List.forall₂_map_left_iff]
    exact (and_iff_right hroom).symm
  · exact iff_of_false (fun h => nomatch h) fun h => hroom h.1

end Requests

/-! ### Delivery -/

section Delivery

variable {jsonError : Bytes → String} {jobID runID : String} {d : Duration}

lemma ParseDuration_format (hd : Decimal.IsInt64 d) :
    ParseDuration (String.ofList (Durations.format d)) = .ok d := by
  rw [ParseDuration, String.toList_ofList, Durations.parse_format hd]
  rfl

/-- A frame of this type is accepted exactly if its payload is a list of requests. -/
lemma factory_subjobs (hjob : jobID ≠ "") (hrun : runID ≠ "") (hd : Decimal.IsInt64 d)
    {data : Bytes} {msg : ResultMessage} :
    resultV0Factory jsonError (subjobsMessage jobID runID d data) = .ok msg ↔
      ∃ jobs, unmarshalJobs data = some jobs ∧ jobs ≠ [] ∧
        msg = { JobID := jobID, RunID := runID, ParentJobID := "", ResultType := .subjobs,
                Duration := d, Jobs := jobs, Payload := some data } := by
  have htext : String.ofList (Durations.format d) ≠ "" := fun h =>
    Durations.format_ne_nil d (by simpa using congrArg String.toList h)
  have hflags (flags : FlagSet) (hflags : flags = (subjobsMessage jobID runID d data).flags) :
      requireFlag flags "job-id" = .ok jobID ∧ requireFlag flags "type" = .ok "subjobs" ∧
        requireFlag flags "run-id" = .ok runID ∧ Get flags "parent-job-id" = "" ∧
        flagOr ParseDuration (-1) flags "duration" = .ok d := by
    subst hflags
    exact ⟨requireFlag_of_lookup (by simp [subjobsMessage]) hjob,
      requireFlag_of_lookup (by simp [subjobsMessage]) (by decide),
      requireFlag_of_lookup (by simp [subjobsMessage]) hrun, by simp [subjobsMessage, Get, Lookup],
      flagOr_of_lookup (by simp [subjobsMessage]) htext (ParseDuration_format hd)⟩
  obtain ⟨h1, h2, h3, h4, h5⟩ := hflags _ rfl
  have hfactory : resultV0Factory jsonError (subjobsMessage jobID runID d data) =
      (if data = [] then throw "outcome subjobs: payload is required" else
        (unmarshalJobs data).elim (throw ("outcome subjobs: invalid payload: " ++ jsonError data))
          fun jobs => if jobs = [] then throw "outcome subjobs: payload must contain at least one job"
            else .ok { JobID := jobID, RunID := runID, ParentJobID := "", ResultType := .subjobs,
                       Duration := d, Jobs := jobs, Payload := some data }) := by
    have hpayload : (subjobsMessage jobID runID d data).payload = data := rfl
    simp only [resultV0Factory, h1, h2, h3, h4, h5, hpayload]
    rcases unmarshalJobs data with _ | _ | ⟨job, jobs⟩ <;> rfl
  rw [hfactory]
  split_ifs with hnil
  · subst hnil
    refine iff_of_false (fun h => by cases h) ?_
    rintro ⟨jobs, h, -⟩
    cases h
  · rcases hjobs : unmarshalJobs data with _ | _ | ⟨job, jobs⟩
    · simp [throw, throwThe, MonadExceptOf.throw]
    · simp [throw, throwThe, MonadExceptOf.throw]
    · simp [eq_comm]

/-- A string is refused, or taken for other bytes. -/
lemma not_sameRequest_of_str {job : ChildJob} {req : ChildJobRequest} {raw : Bytes}
    (hstr : job.Payload = .str raw) (h : decodeChildJobRequest job.encode = some req) :
    ¬SameRequest job req := by
  intro hsame
  have hok : StrOk raw := (hstr ▸ job.encoded).strOk
  obtain ⟨bs, v, hpayload, hparse, hmeaning⟩ := hsame.payload
  rw [decode_encode, hstr, UnmarshalJSON_str hok, Option.map_map] at h
  obtain ⟨b, hb, rfl⟩ := Option.map_eq_some_iff.mp h
  cases hpayload
  have hsymbols : unquote (escapeHTML raw) = unquote raw := by
    rw [unquote, unquote, symbols_escapeHTML hok]
  have hread : parse maxNestingDepth (render (.str raw)) = some (.str raw) := parse_render (.str hok)
  refine not_same_of_str hread (hsymbols ▸ hb) (.inr ⟨_, _, _, v, rfl, rfl, hread, hparse, ?_⟩)
  rw [hmeaning, hstr]

lemma sameRequest_of_passable {job : ChildJob} {req : ChildJobRequest}
    (hpass : Passable job.Payload) (h : decodeChildJobRequest job.encode = some req) :
    SameRequest job req := by
  have hread : parse maxNestingDepth (render job.Payload) = some job.Payload :=
    parse_render (job.encoded.mono (by have := hpass.2; omega))
  rw [decode_encode, UnmarshalJSON_other job.encoded hpass.1] at h
  cases h
  exact ⟨rfl, ⟨_, _, rfl, hread, rfl⟩, rfl, rfl⟩

lemma exists_forall₂ {jobs : List ChildJob} (h : ∀ job ∈ jobs, Passable job.Payload) :
    ∃ reqs, List.Forall₂ (fun job req => decodeChildJobRequest job.encode = some req) jobs reqs ∧
      List.Forall₂ SameRequest jobs reqs := by
  induction jobs with
  | nil => exact ⟨[], .nil, .nil⟩
  | cons job jobs ih =>
    obtain ⟨hpass, h⟩ := List.forall_mem_cons.mp h
    obtain ⟨reqs, hdecode, hsame⟩ := ih h
    have hjob := decode_encode job
    rw [UnmarshalJSON_other job.encoded hpass.1] at hjob
    exact ⟨_ :: reqs, .cons hjob hdecode, .cons (sameRequest_of_passable hpass hjob) hsame⟩

/-- No request of a delivered list has a string for its payload. -/
lemma not_str_of_forall₂ {jobs : List ChildJob} {reqs : List ChildJobRequest}
    (hdecode : List.Forall₂ (fun job req => decodeChildJobRequest job.encode = some req) jobs reqs)
    (hsame : List.Forall₂ SameRequest jobs reqs) :
    ∀ job ∈ jobs, ∀ raw, job.Payload ≠ .str raw := by
  induction hdecode with
  | nil => exact fun job hjob => nomatch hjob
  | cons hjob hdecode ih =>
    cases hsame with
    | cons hhead hsame =>
      refine List.forall_mem_cons.mpr ⟨fun raw hstr => ?_, ih hsame⟩
      exact not_sameRequest_of_str hstr hjob hhead

/-- **Requests are delivered** exactly when no payload is a JSON string or nested too deep. -/
theorem delivered_iff {jobs : List ChildJob} (hne : jobs ≠ []) (hjob : jobID ≠ "")
    (hrun : runID ≠ "") (hd : Decimal.IsInt64 d) :
    Delivered jsonError jobID runID d jobs ↔ ∀ job ∈ jobs, Passable job.Payload := by
  constructor
  · rintro ⟨msg, hmsg, hsame⟩
    obtain ⟨reqs, hreqs, -, rfl⟩ := (factory_subjobs hjob hrun hd).mp hmsg
    obtain ⟨hroom, hdecode⟩ := unmarshalJobs_EmitJobs.mp hreqs
    exact fun job hmem => ⟨not_str_of_forall₂ hdecode hsame job hmem, hroom job hmem⟩
  · intro hpass
    obtain ⟨reqs, hdecode, hsame⟩ := exists_forall₂ hpass
    have hread : unmarshalJobs (EmitJobs jobs) = some reqs :=
      unmarshalJobs_EmitJobs.mpr ⟨fun job hmem => (hpass job hmem).2, hdecode⟩
    have hreqs : reqs ≠ [] := by
      rintro rfl
      exact hne (List.forall₂_nil_right_iff.mp hsame)
    exact ⟨_, (factory_subjobs hjob hrun hd).mpr ⟨reqs, hread, hreqs, rfl⟩, hsame⟩

def objectRequest : ChildJob where
  Task := "process"
  Payload := .obj [member "id" (encodeInt 1)]
  encoded := by
    refine .obj (fun m hm => ?_) fun m hm => ?_
    · rw [List.mem_singleton.mp hm]
      exact strOk_quote _
    · rw [List.mem_singleton.mp hm]
      exact wellFormed_encodeInt 1

theorem delivered_iff_object : Delivered (fun _ => "") "j" "r" 0 [objectRequest] :=
  (delivered_iff (by decide) (by decide) (by decide) (by decide)).mpr fun job hmem => by
    rw [List.mem_singleton.mp hmem]
    exact ⟨fun raw h => Value.noConfusion h, by decide⟩

def stringRequest : ChildJob where
  Task := "greet"
  Payload := encodeString "hi"
  encoded := wellFormed_encodeString _

/-- **A string is refused**: the payload `"hi"` is taken for base64, which it is not, and the
whole frame is rejected. -/
theorem string_refused : ∃ err,
    resultV0Factory (fun _ => "") (subjobsMessage "j" "r" 0 (EmitJobs [stringRequest])) =
      .error err := by
  rcases hmsg : resultV0Factory (fun _ => "")
    (subjobsMessage "j" "r" 0 (EmitJobs [stringRequest])) with err | msg
  · exact ⟨err, rfl⟩
  · obtain ⟨reqs, hreqs, -⟩ :=
      (factory_subjobs (by decide) (by decide) (by decide)).mp hmsg
    obtain ⟨-, hdecode⟩ := unmarshalJobs_EmitJobs.mp hreqs
    cases hdecode with
    | cons hjob hdecode =>
      have hread : UnmarshalJSON (render stringRequest.Payload) = none := by
        rw [show stringRequest.Payload = .str (quote "hi".toList) from rfl,
          UnmarshalJSON_str (strOk_quote _), unquote_quote]
        decide
      rw [decode_encode, hread] at hjob
      cases hjob

end Delivery

end Workforce.Subjobs
