import Workforce.FSStore
import Workforce.Lines
import Workforce.StoredEntities

/-!
The journal as a file: one JSON object a line.

A mutation queues an entry whose data is the JSON text of the entity; the writer encodes the entry
as an object and a line end. At the next start the file is read line by line up to the first line
that is not valid, and each entry is applied to the maps.
-/

namespace Workforce.JournalLines

open Json Payloads Lines StoredRecords StoredEntities Decimal
open FSStore (Maps nacked)
open Contract hiding Bytes

variable (sp : Spelling)

/-! ### Entries -/

/-- The operation of an entry. Any text is accepted; one that is not known does nothing. -/
inductive journalOp
  | job | taskDef | taskDefDelete | webhookEnqueue | webhookAck | webhookNack | runCreate
  | runUpdate
  | other (text : String)
  deriving DecidableEq

def journalOp.text : journalOp → String
  | .job => "job"
  | .taskDef => "task_def"
  | .taskDefDelete => "task_def_delete"
  | .webhookEnqueue => "webhook_enqueue"
  | .webhookAck => "webhook_ack"
  | .webhookNack => "webhook_nack"
  | .runCreate => "run_create"
  | .runUpdate => "run_update"
  | .other text => text

def knownOps : List journalOp :=
  [.job, .taskDef, .taskDefDelete, .webhookEnqueue, .webhookAck, .webhookNack, .runCreate,
    .runUpdate]

def decodeOp : Decoder journalOp
  | op, .null => some op
  | _, .str raw =>
    let text := String.ofList (unquote raw)
    some ((knownOps.find? fun op => op.text = text).getD (.other text))
  | _, _ => none

/-- One line of the journal; `Data` is the text of an entity, or empty. -/
structure journalEntry where
  Op : journalOp := .other ""
  Ts : Time := 0
  Data : Bytes := []
  ID : String := ""
  Attempts : ℤ := 0
  NextAttemptAt : Time := 0

def entryNames : List String := ["op", "ts", "data", "id", "attempts", "next_attempt_at"]

lemma entryNames_distinct : DistinctNames entryNames := by decide +kernel

def dataValue (data : Bytes) : Option (Option Value) :=
  if data = [] then some none else (embed data).map some

/-- The members; data, identifier and attempts are left out when they are empty. -/
def entryValues (e : journalEntry) : Option (List (Option Value)) := do
  let ts ← encodeTime sp e.Ts
  let data ← dataValue e.Data
  let next ← encodeTime sp e.NextAttemptAt
  return [some (encodeString e.Op.text), some ts, data,
    if e.ID = "" then none else some (encodeString e.ID),
    if e.Attempts = 0 then none else some (encodeInt e.Attempts), some next]

def encodeEntry (e : journalEntry) : Option Value := (entryValues sp e).map (record entryNames)

/-- A raw message takes the text of the value as it stands. -/
def decodeRawMessage : Decoder Bytes := fun _ v => some (render v)

def decodeEntry (v : Value) : Option journalEntry := do
  let ms ← members v
  let Op ← field "op" decodeOp (.other "") ms
  let Ts ← field "ts" decodeTime 0 ms
  let Data ← field "data" decodeRawMessage [] ms
  let ID ← field "id" decodeString "" ms
  let Attempts ← field "attempts" decodeInt 0 ms
  let NextAttemptAt ← field "next_attempt_at" decodeTime 0 ms
  return { Op, Ts, Data, ID, Attempts, NextAttemptAt }

def unmarshal {X : Type} (decode : Value → Option X) (data : Bytes) : Option X :=
  (parse maxNestingDepth data).bind decode

/-- There is no text for a record with a time that cannot be written: the code panics. -/
def mustMarshal {X : Type} (C : Coding X) (x : X) : Option Bytes := (C.encode x).map render

def dataEntry {X : Type} (C : Coding X) (op : journalOp) (ts : Time) (x : X) :
    Option journalEntry :=
  (mustMarshal C x).map fun data => { Op := op, Ts := ts, Data := data }

/-- The entry a mutation queues at time `ts`. -/
def entryOf (ts : Time) : FSStore.journalEntry → Option journalEntry
  | .job data => dataEntry (jobCoding sp) .job ts data
  | .taskDef data => dataEntry (taskCoding sp) .taskDef ts data
  | .taskDefDelete id => some { Op := .taskDefDelete, Ts := ts, ID := id }
  | .webhookEnqueue data => dataEntry (webhookCoding sp) .webhookEnqueue ts data
  | .webhookAck id => some { Op := .webhookAck, Ts := ts, ID := id }
  | .webhookNack id attempts next =>
    some { Op := .webhookNack, Ts := ts, ID := id, Attempts := attempts, NextAttemptAt := next }
  | .runCreate data => dataEntry (runCoding sp) .runCreate ts data
  | .runUpdate data => dataEntry (runCoding sp) .runUpdate ts data

/-! ### Replaying -/

section Replay

-- the text of an error of `json.Unmarshal` is left open
variable (jsonError : Bytes → String)

/-- Read the data of an entry and store it. -/
def storeDecoded {X : Type} (decode : Value → Option X) (data : Bytes) (store : X → Maps) :
    Except String Maps :=
  match unmarshal decode data with
  | some x => .ok (store x)
  | none => .error (jsonError data)

def applyJournalEntry (e : journalEntry) (m : Maps) : Except String Maps :=
  match e.Op with
  | .job => storeDecoded jsonError decodeJob e.Data fun x => { m with jobs := m.jobs.put x }
  | .taskDef =>
    storeDecoded jsonError decodeTask e.Data fun x => { m with taskDefs := m.taskDefs.put x }
  | .taskDefDelete => .ok { m with taskDefs := m.taskDefs.erase e.ID }
  | .webhookEnqueue =>
    storeDecoded jsonError decodeWebhook e.Data fun x => { m with webhooks := m.webhooks.put x }
  | .webhookAck => .ok { m with webhooks := m.webhooks.erase e.ID }
  | .webhookNack =>
    .ok { m with webhooks := m.webhooks.modify e.ID (nacked e.Attempts e.NextAttemptAt) }
  | .runCreate | .runUpdate =>
    storeDecoded jsonError decodeRun e.Data fun x => { m with runs := m.runs.put x }
  | .other _ => .ok m

/-- The size of the buffer lines are read with. -/
def maxLine : ℕ := 2 ^ 20

/-- The loop over the lines; `tooLong` says that the reader stops with an error after them. -/
def replayLines (tooLong : Prop) [Decidable tooLong] : List Bytes → Maps → Except String Maps
  | [], m => if tooLong then .error "bufio.Scanner: token too long" else .ok m
  | line :: lines, m =>
    if ¬Valid line then .ok m
    else
      match unmarshal decodeEntry line with
      | none => .ok m
      | some e =>
        match applyJournalEntry jsonError e m with
        | .error err => .error ("replay op=" ++ e.Op.text ++ ": " ++ err)
        | .ok m => replayLines tooLong lines m

def replayJournal (file : Option Bytes) (m : Maps) : Except String Maps :=
  match file with
  | none => .ok m
  | some bs => replayLines jsonError (TooLong maxLine bs) (scanned maxLine bs) m

end Replay

def entriesRead : List Bytes → List journalEntry
  | [] => []
  | line :: lines =>
    if ¬Valid line then []
    else
      match unmarshal decodeEntry line with
      | none => []
      | some e => e :: entriesRead lines

/-! ### Entries and what they carry -/

def EntryFits : FSStore.journalEntry → Prop
  | .job data => JobFits data
  | .taskDef data => TaskFits data
  | .webhookEnqueue data => WebhookFits data
  | .webhookNack _ attempts _ => IsInt64 attempts
  | .runCreate data | .runUpdate data => RunFits data
  | .taskDefDelete _ | .webhookAck _ => True

def entryPayloads : FSStore.journalEntry → List JsonOrBytes
  | .job data => [data.Payload, data.Result]
  | .webhookEnqueue data => [data.Payload]
  | .runCreate data | .runUpdate data => [data.InputPayload, data.OutputPayload]
  | .taskDef _ | .taskDefDelete _ | .webhookAck _ | .webhookNack _ _ _ => []

/-- The entry with its payloads as they are read. -/
def rereadEntry : FSStore.journalEntry → Option FSStore.journalEntry
  | .job data => (rereadJob data).map .job
  | .webhookEnqueue data => (rereadWebhook data).map .webhookEnqueue
  | .runCreate data => (rereadRun data).map .runCreate
  | .runUpdate data => (rereadRun data).map .runUpdate
  | e => some e

section Entry

variable {sp} {jsonError : Bytes → String} {ts : Time} {e : FSStore.journalEntry}
  {q : journalEntry}

/-- An entry without data makes its change by itself. -/
structure Bare (jsonError : Bytes → String) (e : FSStore.journalEntry) (q : journalEntry) :
    Prop where
  data : q.Data = []
  payloads : entryPayloads e = []
  reread : rereadEntry e = some e
  apply : ∀ m, applyJournalEntry jsonError q m = .ok (FSStore.applyJournalEntry e m)

/-- An entry with data carries the text `v` of a record `x`. -/
structure Carries {X : Type} (jsonError : Bytes → String) (C : Coding X) (x : X) (v : Value)
    (wrap : X → FSStore.journalEntry) (e : FSStore.journalEntry) (q : journalEntry) : Prop where
  encoded : C.encode x = some v
  fits : C.Fits x
  data : q.Data = render v
  payloads : entryPayloads e = C.payloads x
  reread : rereadEntry e = (C.reread x).map wrap
  apply : ∀ m, applyJournalEntry jsonError q m =
    storeDecoded jsonError C.decode q.Data fun y => FSStore.applyJournalEntry (wrap y) m

lemma dataEntry_cases {X : Type} {C : Coding X} {op : journalOp} {x : X}
    (h : dataEntry C op ts x = some q) :
    ∃ v, C.encode x = some v ∧ q = { Op := op, Ts := ts, Data := render v } := by
  obtain ⟨d, hd, rfl⟩ := Option.map_eq_some_iff.mp h
  obtain ⟨v, hv, rfl⟩ := Option.map_eq_some_iff.mp hd
  exact ⟨v, hv, rfl⟩

/-- **The two kinds of entries.** -/
lemma entryOf_cases (jsonError : Bytes → String) (hfits : EntryFits e)
    (h : entryOf sp ts e = some q) :
    Bare jsonError e q ∨
      ∃ (X : Type) (C : Coding X) (x : X) (v : Value) (wrap : X → FSStore.journalEntry),
        Carries jsonError C x v wrap e q := by
  cases e with
  | taskDefDelete | webhookAck | webhookNack =>
    cases h
    exact .inl ⟨rfl, rfl, rfl, fun _ => rfl⟩
  | job data | taskDef data | webhookEnqueue data | runCreate data | runUpdate data =>
    obtain ⟨v, hv, rfl⟩ := dataEntry_cases h
    exact .inr ⟨_, _, data, v, _, hv, hfits, rfl, rfl, rfl, fun _ => rfl⟩

lemma op_of_entryOf (h : entryOf sp ts e = some q) : q.Op ∈ knownOps := by
  cases e with
  | taskDefDelete | webhookAck | webhookNack =>
    cases h
    simp [knownOps]
  | job | taskDef | webhookEnqueue | runCreate | runUpdate =>
    obtain ⟨v, -, rfl⟩ := dataEntry_cases h
    simp [knownOps]

lemma attempts_of_entryOf (hfits : EntryFits e) (h : entryOf sp ts e = some q) :
    IsInt64 q.Attempts := by
  have hzero : IsInt64 0 := by decide
  cases e with
  | taskDefDelete | webhookAck =>
    cases h
    exact hzero
  | webhookNack =>
    cases h
    exact hfits
  | job | taskDef | webhookEnqueue | runCreate | runUpdate =>
    obtain ⟨v, -, rfl⟩ := dataEntry_cases h
    exact hzero

/-- Data that was marshalled before is copied into the line as it stands. -/
lemma embed_of_escaped {v w : Value} (hv : WellFormed (maxNestingDepth + 1) v) (hesc : Escaped v)
    (h : embed (render v) = some w) : w = v ∧ WellFormed maxNestingDepth v := by
  rw [embed, parse_render_eq hv] at h
  split_ifs at h with hdepth
  · rw [Option.map_some, hesc] at h
    cases h
    exact ⟨rfl, hv.of_depth hdepth⟩
  · cases h

lemma dataValue_cases (jsonError : Bytes → String) {data : Option Value} (hfits : EntryFits e)
    (h : entryOf sp ts e = some q) (hdata : dataValue q.Data = some data) :
    Bare jsonError e q ∧ data = none ∨
      ∃ (X : Type) (C : Coding X) (x : X) (v : Value) (wrap : X → FSStore.journalEntry),
        Carries jsonError C x v wrap e q ∧ data = some v ∧ WellFormed maxNestingDepth v := by
  rcases entryOf_cases jsonError hfits h with hbare | ⟨X, C, x, v, wrap, hcarries⟩
  · rw [dataValue, hbare.data, if_pos rfl] at hdata
    cases hdata
    exact .inl ⟨hbare, rfl⟩
  · have hne : render v ≠ [] := by
      obtain ⟨vs, -, rfl, -⟩ := Coding.encode_cases hcarries.encoded
      simp [record, render]
    rw [dataValue, hcarries.data, if_neg hne] at hdata
    obtain ⟨w, hw, rfl⟩ := Option.map_eq_some_iff.mp hdata
    obtain ⟨rfl, hwf⟩ := embed_of_escaped (Coding.wellFormed_encode hcarries.encoded)
      (Coding.escaped_encode hcarries.encoded) hw
    exact .inr ⟨X, C, x, w, wrap, hcarries, rfl, hwf⟩

lemma decode_dataValue {data : Option Value} (hfits : EntryFits e)
    (h : entryOf sp ts e = some q) (hdata : dataValue q.Data = some data) :
    data.elim (some []) (decodeRawMessage []) = some q.Data := by
  rcases dataValue_cases (fun _ => "") hfits h hdata with
    ⟨hbare, rfl⟩ | ⟨X, C, x, v, wrap, hcarries, rfl, -⟩
  · rw [hbare.data]
    rfl
  · rw [hcarries.data]
    rfl

lemma entryValues_cases {values : List (Option Value)} (h : entryValues sp q = some values) :
    ∃ ts' data next, encodeTime sp q.Ts = some ts' ∧ dataValue q.Data = some data ∧
      encodeTime sp q.NextAttemptAt = some next ∧
      values = [some (encodeString q.Op.text), some ts', data,
        if q.ID = "" then none else some (encodeString q.ID),
        if q.Attempts = 0 then none else some (encodeInt q.Attempts), some next] := by
  simp only [entryValues, Option.bind_eq_bind, Option.bind_eq_some_iff, Option.pure_def,
    Option.some.injEq] at h
  obtain ⟨ts', hts, data, hdata, next, hnext, rfl⟩ := h
  exact ⟨ts', data, next, hts, hdata, hnext, rfl⟩

/-- Beside the data, a line holds only plain values. -/
lemma simple_of_mem {values : List (Option Value)} (h : entryValues sp q = some values) :
    ∃ data, dataValue q.Data = some data ∧ data ∈ values ∧ entryNames.length = values.length ∧
      ∀ v, some v ∈ values → Simple v ∨ data = some v := by
  obtain ⟨ts', data, next, hts, hdata, hnext, rfl⟩ := entryValues_cases h
  refine ⟨data, hdata, by simp, rfl, fun v hv => ?_⟩
  simp only [List.mem_cons, List.not_mem_nil, or_false, Option.some.injEq] at hv
  rcases hv with rfl | rfl | hv | hv | hv | rfl
  · exact .inl (simple_encodeString _)
  · exact .inl (simple_encodeTime hts)
  · exact .inr hv.symm
  · split_ifs at hv
    cases hv
    exact .inl (simple_encodeString _)
  · split_ifs at hv
    cases hv
    exact .inl (simple_encodeInt _)
  · exact .inl (simple_encodeTime hnext)

lemma decodeOp_text {op : journalOp} (h : op ∈ knownOps) (op' : journalOp) :
    decodeOp op' (encodeString op.text) = some op := by
  have hfind : (knownOps.find? fun b => b.text = op.text) = some op := by
    revert op
    decide
  rw [encodeString, decodeOp, unquote_quote, String.ofList_toList, hfind]
  rfl

/-- **A line is read as the entry it was written for.** -/
lemma decodeEntry_of_encode {value : Value} (hfits : EntryFits e)
    (h : entryOf sp ts e = some q) (hvalue : encodeEntry sp q = some value) :
    decodeEntry value = some q := by
  obtain ⟨values, hvalues, rfl⟩ := Option.map_eq_some_iff.mp hvalue
  obtain ⟨ts', data, next, hts, hdata, hnext, hrow⟩ := entryValues_cases hvalues
  have hfield {α : Type} {decode : Decoder α} (zero : α) {name : String} {ov : Option Value}
      (i : ℕ) (hname : entryNames[i]? = some name) (hv : values[i]? = some ov) :
      field name decode zero (recordMembers entryNames values) =
        ov.elim (some zero) (decode zero) :=
    field_record zero entryNames_distinct hname hv
  subst hrow
  have hid : (if q.ID = "" then none else some (encodeString q.ID)).elim (some "")
      (decodeString "") = some q.ID := by
    split_ifs with hempty
    · rw [hempty]
      rfl
    · exact decodeString_encodeString "" _
  have hattempts : (if q.Attempts = 0 then none else some (encodeInt q.Attempts)).elim (some 0)
      (decodeInt 0) = some q.Attempts := by
    split_ifs with hzero
    · rw [hzero]
      rfl
    · exact decodeInt_encodeInt 0 (attempts_of_entryOf hfits h)
  rw [decodeEntry, record, members, Option.bind_eq_bind, Option.bind_some]
  rw [hfield _ 0 rfl rfl, hfield _ 1 rfl rfl, hfield _ 2 rfl rfl, hfield _ 3 rfl rfl,
    hfield _ 4 rfl rfl, hfield _ 5 rfl rfl, decode_dataValue hfits h hdata, hid, hattempts,
    Option.elim_some, Option.elim_some, Option.elim_some, decodeOp_text (op_of_entryOf h),
    decodeTime_encodeTime hts, decodeTime_encodeTime hnext]
  rfl

/-- A line is an object, and only payloads make it deep: its data, and what is in its data, count
as two levels. -/
lemma line_object {value : Value} (hfits : EntryFits e) (h : entryOf sp ts e = some q)
    (hvalue : encodeEntry sp q = some value) :
    (∃ ms, value = .obj ms) ∧ WellFormed (maxNestingDepth + 1) value ∧
      (depth value ≤ maxNestingDepth ↔
        ∀ r ∈ entryPayloads e, depth (payloadValue r) + 2 ≤ maxNestingDepth) := by
  obtain ⟨values, hvalues, rfl⟩ := Option.map_eq_some_iff.mp hvalue
  obtain ⟨data, hdata, hmem, hlen, hsimple⟩ := simple_of_mem hvalues
  have hdepth : depth (record entryNames values) ≤ maxNestingDepth ↔
      ∀ v, data = some v → depth v ≤ maxNestingDepth - 1 := by
    refine (depth_record_le (d := maxNestingDepth - 1) hlen).trans ?_
    constructor
    · rintro hall v rfl
      exact hall v hmem
    · intro hall v hv
      rcases hsimple v hv with hv | hv
      · exact hv.1.depth_le.trans (by decide)
      · exact hall v hv
  refine ⟨⟨_, rfl⟩, wellFormed_record fun v hv => ?_, hdepth.trans ?_⟩
  · rcases hsimple v hv with hv | rfl
    · exact hv.1.mono (by decide)
    · rcases dataValue_cases (fun _ => "") hfits h hdata with
        ⟨-, hnone⟩ | ⟨X, C, x, w, wrap, -, hw, hwf⟩
      · cases hnone
      · cases hw
        exact hwf
  · rcases dataValue_cases (fun _ => "") hfits h hdata with
      ⟨hbare, rfl⟩ | ⟨X, C, x, w, wrap, hcarries, rfl, -⟩
    · simp [hbare.payloads]
    · rw [hcarries.payloads]
      have hrecord := Coding.depth_encode_le hcarries.encoded
        (show 2 ≤ maxNestingDepth - 1 by decide)
      simp only [Option.some.injEq, forall_eq', hrecord]
      refine forall₂_congr fun r _ => ?_
      omega

/-- **Applying an entry** that was read from its line. -/
lemma apply_entry (jsonError : Bytes → String) {data : Option Value} (hfits : EntryFits e)
    (h : entryOf sp ts e = some q) (hdata : dataValue q.Data = some data) (m : Maps) :
    applyJournalEntry jsonError q m =
      match rereadEntry e with
      | some e' => .ok (FSStore.applyJournalEntry e' m)
      | none => .error (jsonError q.Data) := by
  rcases dataValue_cases jsonError hfits h hdata with
    ⟨hbare, rfl⟩ | ⟨X, C, x, v, wrap, hcarries, rfl, hwf⟩
  · rw [hbare.reread, hbare.apply]
  · have hread : unmarshal C.decode q.Data = C.reread x := by
      rw [unmarshal, hcarries.data, parse_render hwf]
      exact Coding.decode_encode hcarries.fits hcarries.encoded
    rw [hcarries.apply, storeDecoded, hread, hcarries.reread]
    cases C.reread x <;> rfl

lemma rereadEntry_isSome (e : FSStore.journalEntry) :
    (rereadEntry e).isSome ↔ ∀ r ∈ entryPayloads e, Readable r := by
  simp only [← reread_isSome_iff]
  cases e with
  | job data =>
    rw [rereadEntry, Option.isSome_map]
    exact (jobCoding default).reread_isSome data
  | webhookEnqueue data =>
    rw [rereadEntry, Option.isSome_map]
    exact (webhookCoding default).reread_isSome data
  | runCreate data | runUpdate data =>
    rw [rereadEntry, Option.isSome_map]
    exact (runCoding default).reread_isSome data
  | taskDef | taskDefDelete | webhookAck | webhookNack => simp [rereadEntry, entryPayloads]

end Entry

end Workforce.JournalLines
