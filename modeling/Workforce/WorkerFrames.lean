import Workforce.LogWriter
import Workforce.Subjobs

/-!
What the manager makes of a worker's frames.

A frame of the worker is right if the factory of its verb accepts it with the identifiers of the
job and the run, the type of the path it was sent on, and the bytes that were sent. This is so for
identifiers that are single words, but for the two failures before the binary starts: one frame
lacks the run, which the factory requires, and both have their reason in a flag, where the factory
does not look.
-/

namespace Workforce.WorkerFrames

open Argv QuotedArgv WorkerSide Replies Decimal
open Frames hiding written received Plain proposed
open Contract hiding Bytes
open Json (Bytes)

/-! ### Arrival -/

/-- What the manager makes of a frame, with the factory of its verb. Nothing of the frame may be
left on the stream. -/
def received {α : Type} (verb : String) (factory : Message → Except String α) (w : Written) :
    Except String α :=
  match QuotedArgv.read w.text w.payload with
  | some (m, []) => if m.verb = verb then factory m else .error ("unknown verb " ++ m.verb)
  | _ => .error "malformed frame"

section Decodes

variable (jsonError : Bytes → String) (runID : String)

/-- A result arrives about the job and its run, with a type and some contents. -/
def Reports (w : Written) (jobID : String) (type : ResultType) (contents : ResultMessage → Prop) :
    Prop :=
  ∃ msg, received "result" (resultV0Factory jsonError) w = .ok msg ∧ msg.JobID = jobID ∧
    msg.RunID = runID ∧ msg.ResultType = type ∧ contents msg

/-- A frame arrives as what it was sent for, in the run of this identifier. -/
def Decodes (r : Reply) : Prop :=
  match r with
  | .reject jobID reason => received "reject" rejectV0Factory (written r) = .ok ⟨jobID, reason.text⟩
  | .accept jobID => received "accept" acceptV0Factory (written r) = .ok ⟨jobID⟩
  | .staged jobID _ => received "staged" stagedV0Factory (written r) = .ok ⟨jobID, runID⟩
  | .starting jobID _ => received "starting" startingV0Factory (written r) = .ok ⟨jobID, runID⟩
  | .log jobID _ line => received "log" logV0Factory (written r) = .ok ⟨⟨jobID, runID⟩, line⟩
  | .fetchFailed jobID err =>
    Reports jsonError runID (written r) jobID .error fun msg => msg.Reason = utf8 err
  | .tmpDirFailed jobID _ err =>
    Reports jsonError runID (written r) jobID .error fun msg => msg.Reason = utf8 err
  | .taskError jobID _ code _ reason =>
    Reports jsonError runID (written r) jobID .error fun msg =>
      msg.Reason = reason ∧ msg.ExitCode = code
  | .subjobs jobID _ _ data =>
    Reports jsonError runID (written r) jobID .subjobs fun msg => msg.Payload = some data
  | .success jobID _ _ data =>
    Reports jsonError runID (written r) jobID .success fun msg => msg.Payload = some data
  -- the manager has no factory for errors
  | .error _ _ => False

end Decodes

/-- What a dispatch and a run need for all their frames to arrive. -/
structure Delivers {F : Type} (dispatch : DispatchMessage F) (run : TaskRun) : Prop where
  job : OneWord dispatch.JobID
  runID : OneWord dispatch.RunID
  fetched : run.fetchErr = none
  /-- The one reason that can be told in a frame without a payload. -/
  tmpDir : ∀ err, run.mkdirErr = some err → err = ""
  /-- What a task hands over as requests for child jobs is a list of some. -/
  requests : run.mkdirErr = none → ∀ data children, run.outcome = .ok (data, children) →
    children ≠ [] → ∃ jobs, unmarshalJobs children = some jobs ∧ jobs ≠ []

/-! ### What a factory needs -/

section Inversion

variable {α β : Type} {verb : String} {factory : Message → Except String α} {w : Written} {a : α}

lemma exists_of_bind_ok {x : Except String α} {f : α → Except String β} {b : β}
    (h : (x >>= f) = .ok b) : ∃ a, x = .ok a ∧ f a = .ok b := by
  cases x with
  | error err => exact nomatch h
  | ok a => exact ⟨a, rfl, h⟩

lemma exists_of_received (h : received verb factory w = .ok a) :
    ∃ m, QuotedArgv.read w.text w.payload = some (m, []) ∧ factory m = .ok a := by
  unfold received at h
  split at h
  next m hread =>
    split_ifs at h
    exact ⟨m, hread, h⟩
  next => exact nomatch h

lemma received_of_read {m : Message} {data : Bytes} (hdata : w.payload = data)
    (h : QuotedArgv.read w.text data = some (m, [])) (hverb : m.verb = verb) :
    received verb factory w = factory m := by
  unfold received
  rw [hdata, h]
  exact if_pos hverb

variable {m : Message} {jobID runID : String}

lemma flags_of_runReference {ref : RunReference} (h : runReference m = .ok ref) :
    requireFlag m.flags "job-id" = .ok ref.JobID ∧ requireFlag m.flags "run-id" = .ok ref.RunID := by
  obtain ⟨jobID, hjob, h⟩ := exists_of_bind_ok h
  obtain ⟨runID, hrun, h⟩ := exists_of_bind_ok h
  cases h
  exact ⟨hjob, hrun⟩

lemma flags_of_result {jsonError : Bytes → String} {msg : ResultMessage}
    (h : resultV0Factory jsonError m = .ok msg) :
    requireFlag m.flags "job-id" = .ok msg.JobID ∧
      requireFlag m.flags "run-id" = .ok msg.RunID ∧
      (msg.ResultType = .error → msg.Reason = m.payload) := by
  obtain ⟨jobID, hjob, h⟩ := exists_of_bind_ok h
  obtain ⟨type, -, h⟩ := exists_of_bind_ok h
  obtain ⟨runID, hrun, h⟩ := exists_of_bind_ok h
  obtain ⟨d, -, h⟩ := exists_of_bind_ok h
  split at h
  · cases h
    exact ⟨hjob, hrun, fun h => nomatch h⟩
  · obtain ⟨code, -, h⟩ := exists_of_bind_ok h
    cases h
    exact ⟨hjob, hrun, fun _ => rfl⟩
  · split_ifs at h
    · cases h
    · split at h
      · cases h
      · cases h
      · cases h
        exact ⟨hjob, hrun, fun h => nomatch h⟩
  · cases h

lemma oneWord_job (hverb : Clean verb.toList) (tail : List Char)
    (htext : w.text.toList = line verb [] ++ ' ' :: (flag "job-id" jobID ++ tail))
    (hread : QuotedArgv.read w.text w.payload = some (m, []))
    (hjob : requireFlag m.flags "job-id" = .ok jobID) : OneWord jobID := by
  obtain ⟨hlookup, hne⟩ := lookup_of_requireFlag hjob
  exact ⟨hne, @clean_of_lookup _ _ _ m verb "job-id" jobID [] tail hverb (fun _ hf => nomatch hf)
    (fun _ hf => nomatch hf) (by decide) htext hread hlookup⟩

lemma oneWord_ids (hverb : Clean verb.toList) (tail : List Char)
    (htext : w.text.toList =
      line verb [] ++ ' ' :: (flag "job-id" jobID ++ ' ' :: (flag "run-id" runID ++ tail)))
    (hread : QuotedArgv.read w.text w.payload = some (m, []))
    (hjob : requireFlag m.flags "job-id" = .ok jobID)
    (hrun : requireFlag m.flags "run-id" = .ok runID) : OneWord jobID ∧ OneWord runID := by
  have hword := oneWord_job hverb _ htext hread hjob
  obtain ⟨hlookup, hne⟩ := lookup_of_requireFlag hrun
  refine ⟨hword, hne, @clean_of_lookup _ _ _ m verb "run-id" runID [("job-id", jobID)] tail hverb
    ?_ (by simp) (by decide) ?_ hread hlookup⟩
  · intro f hf
    obtain rfl := List.mem_singleton.mp hf
    exact ⟨(by decide : IsName "job-id"), hword.2⟩
  · rw [htext]
    simp [line]

end Inversion

/-! ### Frames without a payload -/

section Frames

variable {jsonError : Bytes → String} {jobID runID err : String} {d : Duration} {data : Bytes}

lemma cleanFlags_ids (hjob : OneWord jobID) (hrun : OneWord runID) {fs : FlagSet}
    (h : CleanFlags fs) : CleanFlags (("job-id", jobID) :: ("run-id", runID) :: fs) :=
  cleanFlags_cons (by decide) hjob.2 (cleanFlags_cons (by decide) hrun.2 h)

lemma decodes_accept_iff : Decodes jsonError runID (.accept jobID) ↔ OneWord jobID := by
  have htext : (written (.accept jobID)).text.toList =
      line "accept" [] ++ ' ' :: flag "job-id" jobID ++ ['\n'] := by
    simp [written, Send, line, flag]
  constructor
  · intro h
    obtain ⟨m, hread, h⟩ := exists_of_received h
    obtain ⟨job, hjob, h⟩ := exists_of_bind_ok h
    cases h
    exact @oneWord_job "accept" _ _ _ (by decide) ['\n'] (by simp [htext]) hread hjob
  · intro hjob
    have hread := read_clean (by decide) cleanFlags_nil (by decide) hjob.2 htext
    rw [Decodes, received_of_read rfl hread rfl, acceptV0Factory,
      requireFlag_of_lookup (by simp) hjob.1]
    rfl

lemma quotable_join (missing : List Dep) : Quotable (join missing).toList := by
  fun_induction join missing with
  | case1 => decide
  | case2 dep => exact dep.2
  | case3 dep rest _ ih =>
    refine ⟨?_, ?_⟩ <;> simp only [String.toList_append, List.mem_append, not_or]
    · exact ⟨⟨dep.2.1, by decide⟩, ih.1⟩
    · exact ⟨⟨dep.2.2, by decide⟩, ih.2⟩

lemma read_reject (hjob : OneWord jobID) (reason : RejectReason) :
    ∃ fs, QuotedArgv.read (written (.reject jobID reason)).text [] =
      some (⟨"reject", ("job-id", jobID) :: ("reason", reason.text) :: fs, []⟩, []) := by
  have hfs : CleanFlags [("job-id", jobID)] := cleanFlags_cons (by decide) hjob.2 cleanFlags_nil
  cases reason with
  | missingDeps missing =>
    have hfs : CleanFlags [("job-id", jobID), ("reason", "missing_deps")] :=
      cleanFlags_cons (by decide) hjob.2 (cleanFlags_cons (by decide) (by decide) cleanFlags_nil)
    exact ⟨[("detail", join missing)], @read_quoted _ "reject" "detail" _ _ (by decide) hfs
      (by decide) (by simp [written, Send, RejectReason.text, RejectReason.detail, inQuotes,
        quotedFlag, line, flag]) (quotable_join missing)⟩
  | draining | pressure | capacity =>
    exact ⟨[], @read_clean _ "reject" "reason" _ _ (by decide) hfs (by decide) (by decide)
      (by simp [written, Send, RejectReason.text, RejectReason.detail, line, flag])⟩

lemma decodes_reject_iff {reason : RejectReason} :
    Decodes jsonError runID (.reject jobID reason) ↔ OneWord jobID := by
  constructor
  · intro h
    obtain ⟨m, hread, h⟩ := exists_of_received h
    obtain ⟨job, hjob, h⟩ := exists_of_bind_ok h
    obtain ⟨text, -, h⟩ := exists_of_bind_ok h
    cases h
    exact @oneWord_job "reject" _ _ _ (by decide)
      (" --reason=" ++ reason.text ++ reason.detail ++ "\n").toList
      (by simp [written, Send, line, flag]) hread hjob
  · intro hjob
    obtain ⟨fs, hread⟩ := read_reject hjob reason
    have hreason : reason.text ≠ "" := by cases reason <;> simp [RejectReason.text]
    rw [Decodes, received_of_read rfl hread rfl, rejectV0Factory]
    rw [requireFlag_of_lookup (by simp) hjob.1, requireFlag_of_lookup (by simp) hreason]
    rfl

lemma runReference_iff {verb : String} {r : Reply} (hverb : Clean verb.toList)
    (htext : (written r).text.toList =
      line verb [flag "job-id" jobID] ++ ' ' :: flag "run-id" runID ++ ['\n'])
    (hpayload : (written r).payload = []) :
    received verb runReference (written r) = .ok ⟨jobID, runID⟩ ↔
      OneWord jobID ∧ OneWord runID := by
  constructor
  · intro h
    obtain ⟨m, hread, h⟩ := exists_of_received h
    obtain ⟨hjob, hrun⟩ := flags_of_runReference h
    exact oneWord_ids hverb ['\n'] (by simp [htext, line]) hread hjob hrun
  · rintro ⟨hjob, hrun⟩
    have hfs : CleanFlags [("job-id", jobID)] := cleanFlags_cons (by decide) hjob.2 cleanFlags_nil
    have hread := @read_clean _ verb "run-id" runID _ hverb hfs (by decide) hrun.2 htext
    rw [received_of_read hpayload hread rfl, runReference]
    rw [requireFlag_of_lookup (by simp) hjob.1, requireFlag_of_lookup (by simp) hrun.1]
    rfl

lemma decodes_staged_iff :
    Decodes jsonError runID (.staged jobID runID) ↔ OneWord jobID ∧ OneWord runID :=
  runReference_iff (by decide) (by simp [written, Send, line, flag]) rfl

lemma decodes_starting_iff :
    Decodes jsonError runID (.starting jobID runID) ↔ OneWord jobID ∧ OneWord runID :=
  runReference_iff (by decide) (by simp [written, Send, line, flag]) rfl

/-! ### Frames with a payload -/

lemma clean_durationString (d : Duration) : Clean (durationString d).toList := by
  rw [durationString, String.toList_ofList]
  have hne {c : Char} (hc : ¬Durations.Spelled c) : c ∉ Durations.format d :=
    fun h => hc (Durations.spelled_format d c h)
  exact ⟨hne (by simp [Durations.Spelled]), hne (by simp [Durations.Spelled]),
    hne (by rw [Durations.Spelled]; decide)⟩

lemma durationString_ne (d : Duration) : durationString d ≠ "" := fun h =>
  Durations.format_ne_nil d (by simpa [durationString] using congrArg String.toList h)

lemma decodes_log_iff :
    Decodes jsonError runID (.log jobID runID data) ↔ OneWord jobID ∧ OneWord runID := by
  have htext : (written (.log jobID runID data)).text.toList =
      line "log" [flag "job-id" jobID, flag "run-id" runID] ++
        ' ' :: (terminator ++ ' ' :: formatInt data.length) ++ ['\n'] := by
    simp [written, SendWithPayload, line, flag, terminator, formatD]
  constructor
  · intro h
    obtain ⟨m, hread, h⟩ := exists_of_received h
    obtain ⟨ref, href, h⟩ := exists_of_bind_ok h
    cases h
    obtain ⟨hjob, hrun⟩ := flags_of_runReference href
    exact @oneWord_ids "log" _ _ _ _ (by decide) _ (by simp [htext, line]; rfl) hread hjob hrun
  · rintro ⟨hjob, hrun⟩
    have hfs := cleanFlags_ids hjob hrun cleanFlags_nil
    have hread := @read_payload _ "log" _ data (by decide) hfs htext
    rw [Decodes, received_of_read rfl hread rfl, logV0Factory, runReference]
    rw [requireFlag_of_lookup (by simp) hjob.1, requireFlag_of_lookup (by simp) hrun.1]
    rfl

/-- The flags of a result with a payload: the identifiers, the type, and what else there is. -/
def resultFlags (jobID runID type : String) (fs : FlagSet) : FlagSet :=
  ("job-id", jobID) :: ("run-id", runID) :: ("type", type) :: fs

/-- Both identifiers of a result that is reported are single words. -/
lemma oneWord_of_reports {r : Reply} {type : ResultType} {contents : ResultMessage → Prop}
    (tail : List Char) (htext : (written r).text.toList =
      line "result" [] ++ ' ' :: (flag "job-id" jobID ++ ' ' :: (flag "run-id" runID ++ tail)))
    (h : Reports jsonError runID (written r) jobID type contents) :
    OneWord jobID ∧ OneWord runID := by
  obtain ⟨msg, hmsg, rfl, rfl, -⟩ := h
  obtain ⟨m, hread, hm⟩ := exists_of_received hmsg
  obtain ⟨hjob, hrun, -⟩ := flags_of_result hm
  exact oneWord_ids (by decide) tail htext hread hjob hrun

/-- A result with a payload arrives if both identifiers are single words and the factory makes of
its flags what `P` says. -/
lemma reports_iff {r : Reply} {type : ResultType} (name : String) (fs : FlagSet)
    {contents : ResultMessage → Prop} {P : Prop} (hname : Clean name.toList) (hfs : CleanFlags fs)
    (hpayload : (written r).payload = data)
    (htext : (written r).text.toList =
      line "result" ((resultFlags jobID runID name fs).map fun f => flag f.1 f.2) ++
        ' ' :: (terminator ++ ' ' :: formatInt data.length) ++ ['\n'])
    (hfactory : OneWord jobID → OneWord runID → ((∃ msg,
      resultV0Factory jsonError ⟨"result", resultFlags jobID runID name fs, data⟩ = .ok msg ∧
        msg.JobID = jobID ∧ msg.RunID = runID ∧ msg.ResultType = type ∧ contents msg) ↔ P)) :
    Reports jsonError runID (written r) jobID type contents ↔
      (OneWord jobID ∧ OneWord runID) ∧ P := by
  have hids (h : Reports jsonError runID (written r) jobID type contents) :=
    oneWord_of_reports _ (by simp [htext, resultFlags, line]; rfl) h
  rw [← and_iff_right_of_imp hids]
  refine and_congr_right fun h => ?_
  rw [← hfactory h.1 h.2, Reports, received_of_read hpayload (read_payload (by decide)
    (cleanFlags_ids h.1 h.2 (cleanFlags_cons (by decide) hname hfs)) htext) rfl]
  rfl

lemma flagOr_duration {flags : FlagSet} (hd : IsInt64 d)
    (h : Lookup flags "duration" = some (durationString d)) :
    flagOr ParseDuration (-1) flags "duration" = .ok d :=
  flagOr_of_lookup h (durationString_ne d) (Subjobs.ParseDuration_format hd)

lemma requireFlag_resultFlags {type : String} (fs : FlagSet) (hjob : jobID ≠ "")
    (hrun : runID ≠ "") (htype : type ≠ "") :
    requireFlag (resultFlags jobID runID type fs) "job-id" = .ok jobID ∧
      requireFlag (resultFlags jobID runID type fs) "type" = .ok type ∧
      requireFlag (resultFlags jobID runID type fs) "run-id" = .ok runID :=
  ⟨requireFlag_of_lookup (by simp [resultFlags]) hjob,
    requireFlag_of_lookup (by simp [resultFlags]) htype,
    requireFlag_of_lookup (by simp [resultFlags]) hrun⟩

/-- An error of these flags, with what is in its payload as the reason. -/
lemma factory_error {fs : FlagSet} {code : ℤ} (hjob : jobID ≠ "") (hrun : runID ≠ "")
    (hd : flagOr ParseDuration (-1) (resultFlags jobID runID "error" fs) "duration" = .ok d)
    (hcode : flagOr Atoi 0 (resultFlags jobID runID "error" fs) "exit-code" = .ok code) :
    ∃ msg, resultV0Factory jsonError ⟨"result", resultFlags jobID runID "error" fs, data⟩ =
      .ok msg ∧ msg.JobID = jobID ∧ msg.RunID = runID ∧ msg.ResultType = .error ∧
        msg.Reason = data ∧ msg.ExitCode = code := by
  have hflags := requireFlag_resultFlags fs hjob hrun (by decide : "error" ≠ "")
  generalize resultFlags jobID runID "error" fs = flags at hflags hd hcode
  obtain ⟨h1, h2, h3⟩ := hflags
  refine ⟨{ JobID := jobID, RunID := runID, ParentJobID := Get flags "parent-job-id",
            ResultType := .error, Duration := d, Reason := data, ExitCode := code },
    ?_, rfl, rfl, rfl, rfl, rfl⟩
  simp only [resultV0Factory, h1, h2, h3, hd]
  rw [hcode]
  rfl

lemma cleanFlags_duration (d : Duration) : CleanFlags [("duration", durationString d)] :=
  cleanFlags_cons (by decide) (clean_durationString d) cleanFlags_nil

lemma decodes_taskError_iff {code : ℤ} (hcode : IsInt64 code) (hd : IsInt64 d) :
    Decodes jsonError runID (.taskError jobID runID code d data) ↔
      OneWord jobID ∧ OneWord runID := by
  refine (reports_iff "error" [("exit-code", formatD code), ("duration", durationString d)]
    (by decide) (cleanFlags_cons (by decide) (clean_formatD code) (cleanFlags_duration d)) rfl ?_
    fun hjob hrun => iff_true_intro ?_).trans (iff_of_eq (and_true _))
  · simp [written, SendWithPayload, resultFlags, line, flag, terminator, formatD]
  · exact factory_error hjob.1 hrun.1 (flagOr_duration hd (by simp [resultFlags]))
      (flagOr_of_lookup (by simp [resultFlags]) (formatD_ne code) (Atoi_formatD hcode))

lemma decodes_success_iff (hd : IsInt64 d) :
    Decodes jsonError runID (.success jobID runID d data) ↔ OneWord jobID ∧ OneWord runID := by
  refine (reports_iff "result" _ (by decide) (cleanFlags_duration d) rfl ?_
    fun hjob hrun => iff_true_intro ?_).trans (iff_of_eq (and_true _))
  · simp [written, SendWithPayload, resultFlags, line, flag, terminator, formatD]
  · generalize hflags : resultFlags jobID runID "result" [("duration", durationString d)] = flags
    obtain ⟨h1, h2, h3⟩ := hflags ▸ requireFlag_resultFlags _ hjob.1 hrun.1 (by decide)
    have h4 : flagOr ParseDuration (-1) flags "duration" = .ok d :=
      flagOr_duration hd (by simp [← hflags, resultFlags])
    simp only [resultV0Factory, h1, h2, h3, h4]
    exact ⟨_, rfl, rfl, rfl, rfl, rfl⟩

lemma decodes_subjobs_iff (hd : IsInt64 d) :
    Decodes jsonError runID (.subjobs jobID runID d data) ↔ (OneWord jobID ∧ OneWord runID) ∧
      ∃ jobs, unmarshalJobs data = some jobs ∧ jobs ≠ [] := by
  refine reports_iff "subjobs" _ (by decide) (cleanFlags_duration d) rfl ?_ fun hjob hrun => ?_
  · simp [written, SendWithPayload, resultFlags, line, flag, terminator, formatD]
  constructor
  · rintro ⟨msg, hmsg, -⟩
    obtain ⟨jobs, hjobs, hne, -⟩ := (Subjobs.factory_subjobs hjob.1 hrun.1 hd).mp hmsg
    exact ⟨jobs, hjobs, hne⟩
  · rintro ⟨jobs, hjobs, hne⟩
    exact ⟨_, (Subjobs.factory_subjobs hjob.1 hrun.1 hd).mpr ⟨jobs, hjobs, hne, rfl⟩, rfl, rfl,
      rfl, rfl⟩

/-! ### Failures before the binary starts -/

lemma quote_notMem_sanitize (err : String) : quoteChar ∉ (sanitize err).toList := by
  rw [sanitize, String.toList_ofList]
  intro h
  obtain ⟨c, hc, hq⟩ := List.mem_flatMap.mp h
  have hsub := (List.dropWhile_sublist isTrimmed).subset (List.mem_reverse.mp hc)
  have hfilter := (List.dropWhile_sublist isTrimmed).subset (List.mem_reverse.mp hsub)
  have hne : c ≠ quoteChar := by simpa using (List.mem_filter.mp hfilter).2
  unfold escapeChar at hq
  split_ifs at hq
  · exact absurd hq (by decide)
  · exact absurd hq (by decide)
  · exact absurd hq (by decide)
  · exact absurd hq (by decide)
  · exact hne (List.mem_singleton.mp hq).symm

lemma utf8_eq_nil {s : String} : utf8 s = [] ↔ s = "" := by
  constructor
  · intro h
    have hsize : s.utf8ByteSize = 0 := by simpa [utf8, String.toUTF8] using congrArg List.length h
    exact String.utf8ByteSize_eq_zero_iff.mp hsize
  · rintro rfl
    rfl

/-- If the line can be read, the reason is its last flag. -/
lemma read_reason {text : String} {fs : FlagSet} {m : Message} {rest : Bytes} (hfs : CleanFlags fs)
    (htext : text.toList = line "result" (fs.map fun f => flag f.1 f.2) ++
      ' ' :: quotedFlag "reason" (sanitize err) ++ ['\n'])
    (hread : read text [] = some (m, rest)) :
    m = ⟨"result", fs ++ [("reason", sanitize err)], []⟩ := by
  have hquote := quote_notMem_sanitize err
  by_cases hline : '\n' ∈ (sanitize err).toList
  · cases hread.symm.trans (read_broken (by decide) hfs (by decide) htext hline hquote)
  · cases hread.symm.trans (read_quoted (by decide) hfs (by decide) htext ⟨hline, hquote⟩)
    rfl

/-- The frame of a failed fetch lacks the run. -/
lemma not_decodes_fetchFailed : ¬Decodes jsonError runID (.fetchFailed jobID err) := by
  rintro ⟨msg, hmsg, rfl, -⟩
  obtain ⟨m, hread, hm⟩ := exists_of_received hmsg
  obtain ⟨hjob, hrun, -⟩ := flags_of_result hm
  have hword := @oneWord_job "result" _ _ _ (by decide)
    (" --type=error --reason=" ++ inQuotes (sanitize err) ++ "\n").toList
    (by simp [written, Send, line, flag]) hread hjob
  have hfs : CleanFlags [("job-id", msg.JobID), ("type", "error")] :=
    cleanFlags_cons (by decide) hword.2 (cleanFlags_cons (by decide) (by decide) cleanFlags_nil)
  have htext : (written (.fetchFailed msg.JobID err)).text.toList =
      line "result" ([("job-id", msg.JobID), ("type", "error")].map fun f => flag f.1 f.2) ++
        ' ' :: quotedFlag "reason" (sanitize err) ++ ['\n'] := by
    simp [written, Send, inQuotes, quotedFlag, line, flag]
  obtain rfl := read_reason hfs htext hread
  obtain ⟨hlookup, -⟩ := lookup_of_requireFlag hrun
  simp [Lookup] at hlookup

/-- The frame of a directory that could not be made arrives without its reason. -/
lemma decodes_tmpDirFailed_iff : Decodes jsonError runID (.tmpDirFailed jobID runID err) ↔
    (OneWord jobID ∧ OneWord runID) ∧ err = "" := by
  have hfs (hids : OneWord jobID ∧ OneWord runID) :
      CleanFlags (resultFlags jobID runID "error" []) :=
    cleanFlags_ids hids.1 hids.2 (cleanFlags_cons (by decide) (by decide) cleanFlags_nil)
  have htext : (written (.tmpDirFailed jobID runID err)).text.toList =
      line "result" ((resultFlags jobID runID "error" []).map fun f => flag f.1 f.2) ++
        ' ' :: quotedFlag "reason" (sanitize err) ++ ['\n'] := by
    simp [written, Send, inQuotes, quotedFlag, resultFlags, line, flag]
  constructor
  · intro h
    have hids : OneWord jobID ∧ OneWord runID :=
      oneWord_of_reports _ (by simp [htext, resultFlags, line]; rfl) h
    obtain ⟨msg, hmsg, -, -, htype, hreason⟩ := h
    obtain ⟨m, hread, hm⟩ := exists_of_received hmsg
    obtain rfl := read_reason (hfs hids) htext hread
    exact ⟨hids, utf8_eq_nil.mp (hreason.symm.trans ((flags_of_result hm).2.2 htype))⟩
  · rintro ⟨hids, rfl⟩
    have hread := @read_quoted _ "result" "reason" _ _ (by decide) (hfs hids) (by decide) htext
      (by decide)
    obtain ⟨msg, hmsg, hjob, hrun, htype, hreason, -⟩ :=
      @factory_error jsonError jobID runID (-1) [] [("reason", sanitize "")] 0 hids.1.1 hids.2.1
        (by simp [flagOr, resultFlags, Get, Lookup]) (by simp [flagOr, resultFlags, Get, Lookup])
    exact ⟨msg, (received_of_read rfl hread rfl).trans hmsg, hjob, hrun, htype, hreason⟩

/-! ### All frames of a job -/

/-- A proposal is answered with a rejection or an acceptance of its job. -/
lemma decodes_handlePropose_iff {w : Worker} {host : Host} {msg : ProposeMessage} :
    Decodes jsonError runID (handlePropose w host msg).2 ↔ OneWord msg.JobID := by
  unfold handlePropose
  split_ifs
  · exact decodes_reject_iff
  · exact decodes_reject_iff
  · exact decodes_reject_iff
  · exact decodes_accept_iff
  · exact decodes_reject_iff

lemma decodes_sendOutcome_iff {run : TaskRun} :
    (∀ r ∈ sendOutcome jobID runID run, Decodes jsonError runID r) ↔
      (OneWord jobID ∧ OneWord runID) ∧ ∀ data children, run.outcome = .ok (data, children) →
        children ≠ [] → ∃ jobs, unmarshalJobs children = some jobs ∧ jobs ≠ [] := by
  unfold sendOutcome
  rcases hout : run.outcome with err | ⟨data, children⟩
  · have hcode : IsInt64 (IsExitError err).1 := by
      cases err with
      | exit code fits reason => exact fits
      | other text => exact (by decide : IsInt64 0)
    simp only [List.forall_mem_cons, decodes_log_iff, decodes_taskError_iff hcode run.fits]
    simp
  · by_cases hchildren : children = []
    · subst hchildren
      simp only [ne_eq, not_true_eq_false, if_false, List.forall_mem_cons, decodes_log_iff,
        decodes_success_iff run.fits]
      simp
    · simp only [ne_eq, hchildren, not_false_eq_true, if_true, List.forall_mem_cons,
        decodes_log_iff, decodes_subjobs_iff run.fits]
      simp [hchildren]

variable {F : Type} {workerID : String} {proposal : ProposeMessage} {dispatch : DispatchMessage F}
  {run : TaskRun}

lemma decodes_runJob_iff : (OneWord dispatch.JobID ∧ OneWord dispatch.RunID) ∧
    (∀ r ∈ runJob workerID proposal dispatch run, Decodes jsonError dispatch.RunID r) ↔
      Delivers dispatch run := by
  unfold runJob
  constructor
  · rintro ⟨⟨hjob, hrun⟩, h⟩
    rcases hfetch : run.fetchErr with _ | err
    · rw [hfetch] at h
      obtain ⟨-, h⟩ := List.forall_mem_cons.mp h
      rcases hmkdir : run.mkdirErr with _ | err
      · rw [hmkdir] at h
        obtain ⟨-, h⟩ := List.forall_mem_cons.mp h
        obtain ⟨-, hrequests⟩ := decodes_sendOutcome_iff.mp (List.forall_mem_append.mp h).2
        exact ⟨hjob, hrun, hfetch, (fun _ h => nomatch hmkdir.symm.trans h), fun _ => hrequests⟩
      · rw [hmkdir] at h
        obtain ⟨-, hempty⟩ := decodes_tmpDirFailed_iff.mp (h _ List.mem_cons_self)
        refine ⟨hjob, hrun, hfetch, fun err' h => ?_, fun h => nomatch hmkdir.symm.trans h⟩
        cases hmkdir.symm.trans h
        exact hempty
    · rw [hfetch] at h
      exact (not_decodes_fetchFailed (h _ List.mem_cons_self)).elim
  · rintro ⟨hjob, hrun, hfetch, hmkdir, hrequests⟩
    refine ⟨⟨hjob, hrun⟩, ?_⟩
    rw [hfetch]
    refine List.forall_mem_cons.mpr ⟨decodes_starting_iff.mpr ⟨hjob, hrun⟩, ?_⟩
    rcases hdir : run.mkdirErr with _ | err
    · refine List.forall_mem_cons.mpr ⟨decodes_log_iff.mpr ⟨hjob, hrun⟩,
        List.forall_mem_append.mpr ⟨fun r hr => ?_, ?_⟩⟩
      · obtain ⟨sent, hsent, -⟩ := LogWriter.lined_writes
          (LogWriter.lined_new dispatch.JobID dispatch.RunID) run.output
        rw [hsent] at hr
        obtain ⟨line, -, rfl⟩ := List.mem_map.mp hr
        exact decodes_log_iff.mpr ⟨hjob, hrun⟩
      · exact decodes_sendOutcome_iff.mpr ⟨⟨hjob, hrun⟩, hrequests hdir⟩
    · intro r hr
      obtain rfl := List.mem_singleton.mp hr
      exact decodes_tmpDirFailed_iff.mpr ⟨⟨hjob, hrun⟩, hmkdir err hdir⟩

/-- **Frames that arrive**: what a worker answers to a proposal arrives exactly if the job is one
word. All frames of a job that is dispatched arrive exactly if the job and the run are single
words, the artifact was fetched, no reason had to be told for want of a directory, and requests
for child jobs are a list of some. -/
theorem replies_decode_iff (w w' : Worker) (host : Host) (msg : ProposeMessage)
    (hpending : w'.pendingJobs.get dispatch.JobID = some proposal) :
    (Decodes jsonError runID (handlePropose w host msg).2 ↔ OneWord msg.JobID) ∧
      ((∀ r ∈ (handleDispatch w' dispatch).2.1 :: runJob workerID proposal dispatch run,
        Decodes jsonError dispatch.RunID r) ↔ Delivers dispatch run) := by
  refine ⟨decodes_handlePropose_iff, ?_⟩
  have hstaged : (handleDispatch w' dispatch).2.1 = .staged dispatch.JobID dispatch.RunID := by
    rw [handleDispatch, hpending]
  rw [List.forall_mem_cons, hstaged, decodes_staged_iff, decodes_runJob_iff]

end Frames

def accepted : Worker := (handlePropose { Capacity := 1 } {} proposed).1

theorem replies_decode_exit :
    accepted.pendingJobs.get dispatched.JobID = some proposed ∧
    ∀ r ∈ (handleDispatch accepted dispatched).2.1 :: runJob "w" proposed dispatched
        { outcome := .error (.exit 3 (by decide) [1, 2]), output := [[65, 10, 66]] },
      Decodes (fun _ => "") "r" r :=
  ⟨rfl, (@replies_decode_iff (fun _ => "") "r" Unit "w" proposed dispatched _ accepted accepted {}
    proposed rfl).2.mpr
    ⟨by decide, by decide, rfl, (fun _ h => nomatch h), (fun _ _ _ h => nomatch h)⟩⟩

/-- A failed fetch is refused by the manager; a failure to make the directory arrives with no
reason. -/
theorem failures_untold :
    received "result" (resultV0Factory fun _ => "") (written (.fetchFailed "j" "no route")) =
        .error "missing required flag --run-id" ∧
      (received "result" (resultV0Factory fun _ => "")
        (written (.tmpDirFailed "j" "r" "no space"))).map ResultMessage.Reason = .ok [] := by
  decide +kernel

end Workforce.WorkerFrames
