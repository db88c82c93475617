import Workforce.JournalLines

/-!
Snapshot files.

A snapshot is one JSON object with four arrays of records and a line end. Reading it gives the
records with their payloads as they are read; it fails as a whole if one payload cannot be read or
is nested too deep for its place, three levels inside the document.
-/

namespace Workforce.SnapshotFiles

open Tables Json Payloads StoredRecords StoredEntities JournalLines
open FSStore (Maps Key Entity snapshot Captures)
open Contract hiding Bytes

variable (sp : Spelling)

/-! ### The file -/

def snapshotNames : List String :=
  ["version", "written_at", "jobs", "task_defs", "webhooks", "runs"]

lemma snapshotNames_distinct : DistinctNames snapshotNames := by decide +kernel

def encodeSnapshot (writtenAt : Time) (s : snapshot) : Option Value := do
  let time ← encodeTime sp writtenAt
  let jobs ← s.Jobs.mapM (jobCoding sp).encode
  let taskDefs ← s.TaskDefs.mapM (taskCoding sp).encode
  let webhooks ← s.Webhooks.mapM (webhookCoding sp).encode
  let runs ← s.Runs.mapM (runCoding sp).encode
  return record snapshotNames
    ([encodeInt 1, time, .arr jobs, .arr taskDefs, .arr webhooks, .arr runs].map some)

def decodeSnapshot (v : Value) : Option snapshot := do
  let ms ← members v
  let _version ← field "version" decodeInt 0 ms
  let _writtenAt ← field "written_at" decodeTime 0 ms
  let Jobs ← field "jobs" (fun _ => decodeSlice decodeJob) [] ms
  let TaskDefs ← field "task_defs" (fun _ => decodeSlice decodeTask) [] ms
  let Webhooks ← field "webhooks" (fun _ => decodeSlice decodeWebhook) [] ms
  let Runs ← field "runs" (fun _ => decodeSlice decodeRun) [] ms
  return { Jobs, TaskDefs, Webhooks, Runs }

/-- The text of an error of the decoder is left open. -/
def loadSnapshot (jsonError : Bytes → String) (file : Option Bytes) : Except String Maps :=
  match file with
  | none => .ok (FSStore.loadSnapshot none)
  | some bs =>
    match unmarshal decodeSnapshot bs with
    | some s => .ok (FSStore.loadSnapshot (some s))
    | none => .error ("decode snapshot: " ++ jsonError bs)

structure SnapshotFits (s : snapshot) : Prop where
  jobs : ∀ job ∈ s.Jobs, JobFits job
  taskDefs : ∀ task ∈ s.TaskDefs, TaskFits task
  webhooks : ∀ entry ∈ s.Webhooks, WebhookFits entry
  runs : ∀ run ∈ s.Runs, RunFits run

def snapshotPayloads (s : snapshot) : List JsonOrBytes :=
  s.Jobs.flatMap (fun job => [job.Payload, job.Result]) ++
    (s.Webhooks.map WebhookEntry.Payload ++
      s.Runs.flatMap fun run => [run.InputPayload, run.OutputPayload])

/-- The snapshot with its payloads as they are read. -/
def rereadSnapshot (s : snapshot) : Option snapshot := do
  let jobs ← s.Jobs.mapM rereadJob
  let webhooks ← s.Webhooks.mapM rereadWebhook
  let runs ← s.Runs.mapM rereadRun
  return { s with Jobs := jobs, Webhooks := webhooks, Runs := runs }

/-! ### Lists of records -/

section Records

variable {X : Type} {C : Coding X} {xs : List X} {vs : List Value}

lemma mapM_decode (hfits : ∀ x ∈ xs, C.Fits x) (h : xs.mapM C.encode = some vs) :
    vs.mapM C.decode = xs.mapM C.reread := by
  have hall := mapM_eq_some.mp h
  clear h
  induction hall with
  | nil => rfl
  | cons hx _ ih =>
    obtain ⟨hfit, hfits⟩ := List.forall_mem_cons.mp hfits
    rw [List.mapM_cons, List.mapM_cons, Coding.decode_encode hfit hx, ih hfits]

lemma depth_arr_le {d : ℕ} : depth (.arr vs) ≤ d + 1 ↔ ∀ v ∈ vs, depth v ≤ d := by
  constructor
  · intro h v hv
    have hle : depthElems vs + 1 ≤ d + 1 := h
    exact (depth_le_depthElems hv).trans (by omega)
  · exact fun h => Nat.succ_le_succ (depthElems_le h)

lemma depth_records_le (h : xs.mapM C.encode = some vs) {d : ℕ} (hd : 2 ≤ d) :
    depth (.arr vs) ≤ d + 1 ↔
      ∀ x ∈ xs, ∀ r ∈ C.payloads x, depth (payloadValue r) + 1 ≤ d := by
  rw [depth_arr_le]
  have hall := mapM_eq_some.mp h
  clear h
  induction hall with
  | nil => simp
  | cons hx _ ih =>
    rw [List.forall_mem_cons, List.forall_mem_cons, Coding.depth_encode_le hx hd]
    exact and_congr_right fun _ => ih

lemma wellFormed_records (h : xs.mapM C.encode = some vs) :
    WellFormed (maxNestingDepth + 2) (.arr vs) := by
  refine .arr fun v hv => ?_
  obtain ⟨x, -, hx⟩ := exists_of_mapM_right h hv
  exact Coding.wellFormed_encode hx

end Records

/-! ### Reading a snapshot back -/

section Snapshot

variable {sp} {s : snapshot} {writtenAt : Time} {v : Value}

lemma encodeSnapshot_cases (h : encodeSnapshot sp writtenAt s = some v) :
    ∃ time jobs taskDefs webhooks runs, encodeTime sp writtenAt = some time ∧
      s.Jobs.mapM (jobCoding sp).encode = some jobs ∧
      s.TaskDefs.mapM (taskCoding sp).encode = some taskDefs ∧
      s.Webhooks.mapM (webhookCoding sp).encode = some webhooks ∧
      s.Runs.mapM (runCoding sp).encode = some runs ∧
      v = record snapshotNames
        ([encodeInt 1, time, .arr jobs, .arr taskDefs, .arr webhooks, .arr runs].map some) := by
  simp only [encodeSnapshot, Option.bind_eq_bind, Option.bind_eq_some_iff, Option.pure_def,
    Option.some.injEq] at h
  obtain ⟨time, ht, jobs, hj, taskDefs, htd, webhooks, hw, runs, hr, rfl⟩ := h
  exact ⟨time, jobs, taskDefs, webhooks, runs, ht, hj, htd, hw, hr, rfl⟩

lemma decodeSnapshot_encode (hfits : SnapshotFits s)
    (h : encodeSnapshot sp writtenAt s = some v) : decodeSnapshot v = rereadSnapshot s := by
  obtain ⟨time, jobs, taskDefs, webhooks, runs, ht, hj, htd, hw, hr, rfl⟩ :=
    encodeSnapshot_cases h
  obtain ⟨ms, hms, hfield⟩ := exists_laid snapshotNames_distinct
    [encodeInt 1, time, .arr jobs, .arr taskDefs, .arr webhooks, .arr runs]
  have hone := decodeInt_encodeInt 0 (show Decimal.IsInt64 1 by decide)
  have hjobs : decodeSlice decodeJob (.arr jobs) = s.Jobs.mapM rereadJob :=
    mapM_decode hfits.jobs hj
  have htasks : decodeSlice decodeTask (.arr taskDefs) = some s.TaskDefs :=
    (mapM_decode hfits.taskDefs htd).trans (mapM_eq_some.mpr (List.forall₂_same.mpr fun _ _ => rfl))
  have hwebhooks : decodeSlice decodeWebhook (.arr webhooks) = s.Webhooks.mapM rereadWebhook :=
    mapM_decode hfits.webhooks hw
  have hruns : decodeSlice decodeRun (.arr runs) = s.Runs.mapM rereadRun :=
    mapM_decode hfits.runs hr
  rw [decodeSnapshot, hms, Option.bind_eq_bind, Option.bind_some]
  rw [hfield 0 rfl rfl, hfield 1 rfl rfl, hfield 2 rfl rfl, hfield 3 rfl rfl, hfield 4 rfl rfl,
    hfield 5 rfl rfl, hone, decodeTime_encodeTime ht, hjobs, htasks, hwebhooks, hruns]
  rfl

lemma wellFormed_snapshot (h : encodeSnapshot sp writtenAt s = some v) :
    WellFormed (maxNestingDepth + 3) v := by
  obtain ⟨time, jobs, taskDefs, webhooks, runs, ht, hj, htd, hw, hr, rfl⟩ :=
    encodeSnapshot_cases h
  refine wellFormed_record fun w hmem => ?_
  have htime := (simple_encodeTime ht).1
  simp only [List.map_cons, List.map_nil, List.mem_cons, List.not_mem_nil, or_false,
    Option.some.injEq] at hmem
  rcases hmem with rfl | rfl | rfl | rfl | rfl | rfl
  · exact wellFormed_encodeInt 1
  · exact htime.mono (by decide)
  · exact wellFormed_records hj
  · exact wellFormed_records htd
  · exact wellFormed_records hw
  · exact wellFormed_records hr

/-- Payloads stand three levels inside a snapshot. -/
lemma depth_snapshot_le (h : encodeSnapshot sp writtenAt s = some v) :
    depth v ≤ maxNestingDepth ↔
      ∀ r ∈ snapshotPayloads s, depth (payloadValue r) + 3 ≤ maxNestingDepth := by
  obtain ⟨time, jobs, taskDefs, webhooks, runs, ht, hj, htd, hw, hr, rfl⟩ :=
    encodeSnapshot_cases h
  have htime := (simple_encodeTime ht).1.depth_le
  have hd : 2 ≤ maxNestingDepth - 2 := by decide
  have hle (x : ℕ) : x + 1 ≤ maxNestingDepth - 2 ↔ x + 3 ≤ maxNestingDepth := by
    omega
  have hrow : depth (record snapshotNames
      ([encodeInt 1, time, .arr jobs, .arr taskDefs, .arr webhooks, .arr runs].map some)) ≤
        maxNestingDepth ↔
      depth (.arr jobs) ≤ maxNestingDepth - 2 + 1 ∧
        depth (.arr taskDefs) ≤ maxNestingDepth - 2 + 1 ∧
        depth (.arr webhooks) ≤ maxNestingDepth - 2 + 1 ∧
        depth (.arr runs) ≤ maxNestingDepth - 2 + 1 := by
    refine (depth_record_le (d := maxNestingDepth - 1) rfl).trans ?_
    have hone : depth (encodeInt 1) ≤ maxNestingDepth - 1 := Nat.zero_le _
    have htime' : depth time ≤ maxNestingDepth - 1 := htime.trans (by decide)
    simp only [List.map_cons, List.map_nil, List.mem_cons, List.not_mem_nil, or_false,
      Option.some.injEq, forall_eq_or_imp, forall_eq, hone, htime', true_and]
    exact Iff.rfl
  rw [hrow, depth_records_le hj hd, depth_records_le htd hd, depth_records_le hw hd,
    depth_records_le hr hd]
  simp only [snapshotPayloads, List.forall_mem_append, List.forall_mem_flatMap,
    List.forall_mem_map, hle]
  have htasks : ∀ task ∈ s.TaskDefs, ∀ r ∈ (taskCoding sp).payloads task,
      depth (payloadValue r) + 3 ≤ maxNestingDepth := fun _ _ r hr => by cases hr
  have hwebhooks : (∀ entry ∈ s.Webhooks, ∀ r ∈ (webhookCoding sp).payloads entry,
      depth (payloadValue r) + 3 ≤ maxNestingDepth) ↔
      ∀ entry ∈ s.Webhooks, depth (payloadValue entry.Payload) + 3 ≤ maxNestingDepth :=
    forall₂_congr fun entry _ => List.forall_mem_singleton
  rw [hwebhooks, and_iff_right htasks]
  rfl

lemma rereadSnapshot_isSome (s : snapshot) :
    (rereadSnapshot s).isSome ↔ ∀ r ∈ snapshotPayloads s, Readable r := by
  have hjobs : (s.Jobs.mapM rereadJob).isSome ↔
      ∀ job ∈ s.Jobs, ∀ r ∈ [job.Payload, job.Result], (rereadPayload r).isSome :=
    mapM_isSome_iff.trans (forall₂_congr fun job _ => (jobCoding default).reread_isSome job)
  have hwebhooks : (s.Webhooks.mapM rereadWebhook).isSome ↔
      ∀ entry ∈ s.Webhooks, (rereadPayload entry.Payload).isSome :=
    mapM_isSome_iff.trans (forall₂_congr fun entry _ =>
      ((webhookCoding default).reread_isSome entry).trans List.forall_mem_singleton)
  have hruns : (s.Runs.mapM rereadRun).isSome ↔
      ∀ run ∈ s.Runs, ∀ r ∈ [run.InputPayload, run.OutputPayload], (rereadPayload r).isSome :=
    mapM_isSome_iff.trans (forall₂_congr fun run _ => (runCoding default).reread_isSome run)
  simp only [← reread_isSome_iff, snapshotPayloads, List.forall_mem_append,
    List.forall_mem_flatMap, List.forall_mem_map, ← hjobs, ← hwebhooks, ← hruns]
  rw [rereadSnapshot]
  cases s.Jobs.mapM rereadJob <;> cases s.Webhooks.mapM rereadWebhook <;>
    cases s.Runs.mapM rereadRun <;> simp

lemma rereadSnapshot_cases {s' : snapshot} (h : rereadSnapshot s = some s') :
    s.Jobs.mapM rereadJob = some s'.Jobs ∧ s'.TaskDefs = s.TaskDefs ∧
      s.Webhooks.mapM rereadWebhook = some s'.Webhooks ∧ s.Runs.mapM rereadRun = some s'.Runs := by
  simp only [rereadSnapshot, Option.bind_eq_bind, Option.bind_eq_some_iff, Option.pure_def,
    Option.some.injEq] at h
  obtain ⟨jobs, hj, webhooks, hw, runs, hr, rfl⟩ := h
  exact ⟨hj, rfl, hw, hr⟩

end Snapshot

structure SnapshotFile where
  content : snapshot
  writtenAt : Time
  value : Value
  fits : SnapshotFits content
  encoded : encodeSnapshot sp writtenAt content = some value

namespace SnapshotFile

variable {sp} (f : SnapshotFile sp)

def text : Bytes := render f.value ++ [newline]

/-- The file can be read: each payload by itself, and all of them in their place. -/
def Legible : Prop := ∀ r ∈ snapshotPayloads f.content,
  Readable r ∧ depth (payloadValue r) + 3 ≤ maxNestingDepth

/-- **Reading a snapshot file.** -/
theorem unmarshal_text : unmarshal decodeSnapshot f.text =
    if ∀ r ∈ snapshotPayloads f.content, depth (payloadValue r) + 3 ≤ maxNestingDepth then
      rereadSnapshot f.content
    else none := by
  rw [unmarshal, text, parse_render_newline (wellFormed_snapshot f.encoded)]
  simp only [depth_snapshot_le f.encoded]
  split_ifs
  · exact decodeSnapshot_encode f.fits f.encoded
  · rfl

lemma loadSnapshot_eq_ok {jsonError : Bytes → String} {m : Maps} :
    loadSnapshot jsonError (some f.text) = .ok m ↔
      f.Legible ∧ ∃ s, rereadSnapshot f.content = some s ∧ m = FSStore.loadSnapshot (some s) := by
  have hlegible : f.Legible ↔ (rereadSnapshot f.content).isSome ∧
      ∀ r ∈ snapshotPayloads f.content, depth (payloadValue r) + 3 ≤ maxNestingDepth := by
    rw [rereadSnapshot_isSome]
    exact forall₂_and
  rw [loadSnapshot, f.unmarshal_text, hlegible]
  split_ifs with hd
  · rcases rereadSnapshot f.content with _ | s
    · simp
    · simp only [Option.isSome_some, true_and, Except.ok.injEq, Option.some.injEq,
        exists_eq_left']
      rw [and_iff_right hd, eq_comm]
  · simp [hd]

end SnapshotFile

/-! ### Records of either kind -/

def entityPayloads : Entity → List JsonOrBytes
  | .job job => [job.Payload, job.Result]
  | .webhook entry => [entry.Payload]
  | .run run => [run.InputPayload, run.OutputPayload]
  | .task _ => []

def rereadEntity : Entity → Option Entity
  | .job job => (rereadJob job).map .job
  | .webhook entry => (rereadWebhook entry).map .webhook
  | .run run => (rereadRun run).map .run
  | .task task => some (.task task)

/-- A record that can be written, and that is read as it is if its payloads are. -/
structure Sound {X : Type} (C : Coding X) (x : X) : Prop where
  fits : C.Fits x
  encodable : (C.encode x).isSome
  normal : C.reread x = some x ↔ ∀ r ∈ C.payloads x, rereadPayload r = some r

lemma Sound.of_reread {X : Type} {C : Coding X} {x y : X} (hfits : C.Fits x)
    (hx : (C.encode x).isSome) (h : C.reread x = some y) : Sound C y :=
  ⟨C.reread_fits h hfits, C.encode_reread h hx, C.reread_fixed h⟩

def EntitySound : Entity → Prop
  | .job job => Sound (jobCoding sp) job
  | .webhook entry => Sound (webhookCoding sp) entry
  | .run run => Sound (runCoding sp) run
  | .task task => Sound (taskCoding sp) task

def SoundView (view : Key → Option Entity) : Prop := ∀ k x, view k = some x → EntitySound sp x

section Views

variable {sp} {s s' : snapshot}

lemma mem_of_view {k : Key} {x : Entity} (h : (FSStore.loadSnapshot (some s)).view k = some x) :
    match x with
    | .job job => job ∈ s.Jobs
    | .task task => task ∈ s.TaskDefs
    | .run run => run ∈ s.Runs
    | .webhook entry => entry ∈ s.Webhooks := by
  cases k with
  | job id | task id | run id | webhook id =>
    obtain ⟨x, hx, rfl⟩ := Option.map_eq_some_iff.mp h
    exact (mem_of_get_putAll hx).resolve_right (by simp)

lemma map_get_reread {V : Type} {key : V → String} {f : V → Option V} {wrap : V → Entity}
    (hkey : ∀ v w, f v = some w → key w = key v)
    (hwrap : ∀ v, rereadEntity (wrap v) = (f v).map wrap) {l l' : List V}
    (h : l.mapM f = some l') (id : String) :
    (((Table.empty key).putAll l').get id).map wrap =
      ((((Table.empty key).putAll l).get id).map wrap).bind rereadEntity := by
  have hempty : ∀ k, (Table.empty key).get k = ((Table.empty key).get k).bind f := fun _ => rfl
  rw [get_putAll_bind hkey (mapM_eq_some.mp h) hempty id]
  rcases ((Table.empty key).putAll l).get id with _ | v
  · rfl
  · exact (hwrap v).symm

/-- **What reading does to the maps**: it does it to each record. -/
lemma view_reread (h : rereadSnapshot s = some s') (k : Key) :
    (FSStore.loadSnapshot (some s')).view k =
      ((FSStore.loadSnapshot (some s)).view k).bind rereadEntity := by
  obtain ⟨hjobs, htasks, hwebhooks, hruns⟩ := rereadSnapshot_cases h
  cases k with
  | job id =>
    refine map_get_reread (fun v w hw => ?_) (fun _ => rfl) hjobs id
    obtain ⟨-, -, -, rfl⟩ := (jobCoding default).reread_cases hw
    rfl
  | task name =>
    have hsame : s.TaskDefs.mapM some = some s'.TaskDefs :=
      htasks ▸ mapM_eq_some.mpr (List.forall₂_same.mpr fun _ _ => rfl)
    refine map_get_reread (fun v w hw => ?_) (fun _ => rfl) hsame name
    cases hw
    rfl
  | run id =>
    refine map_get_reread (fun v w hw => ?_) (fun _ => rfl) hruns id
    obtain ⟨-, -, -, rfl⟩ := (runCoding default).reread_cases hw
    rfl
  | webhook id =>
    refine map_get_reread (fun v w hw => ?_) (fun _ => rfl) hwebhooks id
    obtain ⟨-, -, -, rfl⟩ := (webhookCoding default).reread_cases hw
    rfl

lemma SnapshotFile.sound (f : SnapshotFile sp) (h : rereadSnapshot f.content = some s) :
    SoundView sp (FSStore.loadSnapshot (some s)).view := by
  obtain ⟨time, jobs, taskDefs, webhooks, runs, -, hj, htd, hw, hr, -⟩ :=
    encodeSnapshot_cases f.encoded
  intro k y hy
  rw [view_reread h] at hy
  obtain ⟨x, hx, hy⟩ := Option.bind_eq_some_iff.mp hy
  have hmem := mem_of_view hx
  have hsome {X : Type} {C : Coding X} {xs : List X} {vs : List Value}
      (hvs : xs.mapM C.encode = some vs) {x : X} (hx : x ∈ xs) : (C.encode x).isSome := by
    obtain ⟨v, -, hv⟩ := exists_of_mapM_left hvs hx
    exact Option.isSome_iff_exists.mpr ⟨v, hv⟩
  cases x with
  | job x =>
    obtain ⟨y, hx', rfl⟩ := Option.map_eq_some_iff.mp hy
    exact .of_reread (f.fits.jobs x hmem) (hsome hj hmem) hx'
  | task x =>
    cases hy
    exact .of_reread (f.fits.taskDefs x hmem) (hsome htd hmem) rfl
  | run x =>
    obtain ⟨y, hx', rfl⟩ := Option.map_eq_some_iff.mp hy
    exact .of_reread (f.fits.runs x hmem) (hsome hr hmem) hx'
  | webhook x =>
    obtain ⟨y, hx', rfl⟩ := Option.map_eq_some_iff.mp hy
    exact .of_reread (f.fits.webhooks x hmem) (hsome hw hmem) hx'

end Views

/-! ### Writing the maps and reading them back -/

/-- Every payload in the maps is read as it is, also three levels inside a document. -/
def Stable (view : Key → Option Entity) : Prop :=
  ∀ k x, view k = some x →
    ∀ r ∈ entityPayloads x, Settled r ∧ depth (payloadValue r) + 3 ≤ maxNestingDepth

section Captured

variable {sp} {s : snapshot} {m : Maps} {writtenAt : Time} {v : Value}

lemma map_get_of_mem {V : Type} {key : V → String} {t : Table key} {l : List V}
    (h : l.Perm t.values) {x : V} (hx : x ∈ l) (wrap : V → Entity) :
    (t.get (key x)).map wrap = some (wrap x) := by
  rw [mem_values.mp (h.mem_iff.mp hx)]
  rfl

lemma rereadEntity_fixed {x : Entity} (h : EntitySound sp x) :
    rereadEntity x = some x ↔ ∀ r ∈ entityPayloads x, Settled r := by
  have hmap {X : Type} (wrap : X → Entity) (hwrap : Function.Injective wrap) (o : Option X)
      (x : X) : o.map wrap = some (wrap x) ↔ o = some x := by
    rw [Option.map_eq_some_iff]
    exact ⟨fun ⟨y, hy, hxy⟩ => hwrap hxy ▸ hy, fun ho => ⟨x, ho, rfl⟩⟩
  simp only [← reread_eq_self_iff]
  cases x with
  | job job => exact (hmap .job (fun _ _ => Entity.job.inj) _ job).trans h.normal
  | task task => exact iff_of_true rfl fun r hr => by cases hr
  | run run => exact (hmap .run (fun _ _ => Entity.run.inj) _ run).trans h.normal
  | webhook entry => exact (hmap .webhook (fun _ _ => Entity.webhook.inj) _ entry).trans h.normal

lemma mem_snapshotPayloads (hcap : Captures s m) {r : JsonOrBytes} :
    r ∈ snapshotPayloads s ↔ ∃ k x, m.view k = some x ∧ r ∈ entityPayloads x := by
  constructor
  · intro hr
    rcases List.mem_append.mp hr with hr | hr
    · obtain ⟨job, hj, hr⟩ := List.mem_flatMap.mp hr
      exact ⟨.job job.ID, .job job, map_get_of_mem hcap.jobs hj .job, hr⟩
    rcases List.mem_append.mp hr with hr | hr
    · obtain ⟨entry, he, rfl⟩ := List.mem_map.mp hr
      exact ⟨.webhook entry.ID, .webhook entry, map_get_of_mem hcap.webhooks he .webhook,
        List.mem_singleton.mpr rfl⟩
    · obtain ⟨run, hn, hr⟩ := List.mem_flatMap.mp hr
      exact ⟨.run run.ID, .run run, map_get_of_mem hcap.runs hn .run, hr⟩
  · rintro ⟨k, x, hx, hr⟩
    rw [← FSStore.view_loadSnapshot hcap] at hx
    have hmem := mem_of_view hx
    cases x with
    | job job => exact List.mem_append_left _ (List.mem_flatMap.mpr ⟨job, hmem, hr⟩)
    | task => cases hr
    | run run =>
      exact List.mem_append_right _ (List.mem_append_right _ (List.mem_flatMap.mpr ⟨run, hmem, hr⟩))
    | webhook entry =>
      cases List.mem_singleton.mp hr
      exact List.mem_append_right _ (List.mem_append_left _ (List.mem_map_of_mem hmem))

variable (hcap : Captures s m) (hsound : SoundView sp m.view)

include hcap hsound

lemma sound_of_captures :
    (∀ job ∈ s.Jobs, Sound (jobCoding sp) job) ∧ (∀ task ∈ s.TaskDefs, Sound (taskCoding sp) task) ∧
      (∀ entry ∈ s.Webhooks, Sound (webhookCoding sp) entry) ∧
      ∀ run ∈ s.Runs, Sound (runCoding sp) run :=
  ⟨fun job hj => hsound (.job job.ID) (.job job) (map_get_of_mem hcap.jobs hj .job),
    fun task ht => hsound (.task task.Name) (.task task) (map_get_of_mem hcap.taskDefs ht .task),
    fun entry he =>
      hsound (.webhook entry.ID) (.webhook entry) (map_get_of_mem hcap.webhooks he .webhook),
    fun run hr => hsound (.run run.ID) (.run run) (map_get_of_mem hcap.runs hr .run)⟩

lemma fits_of_captures : SnapshotFits s := by
  obtain ⟨hjobs, htasks, hwebhooks, hruns⟩ := sound_of_captures hcap hsound
  exact ⟨fun job hj => (hjobs job hj).fits, fun task ht => (htasks task ht).fits,
    fun entry he => (hwebhooks entry he).fits, fun run hr => (hruns run hr).fits⟩

/-- Sound maps can be written. -/
lemma exists_encodeSnapshot (htime : (encodeTime sp writtenAt).isSome) :
    ∃ v, encodeSnapshot sp writtenAt s = some v := by
  have hall {X : Type} {C : Coding X} {xs : List X} (h : ∀ x ∈ xs, Sound C x) :
      ∃ vs, xs.mapM C.encode = some vs :=
    Option.isSome_iff_exists.mp (mapM_isSome_iff.mpr fun x hx => (h x hx).encodable)
  obtain ⟨hjobs, htasks, hwebhooks, hruns⟩ := sound_of_captures hcap hsound
  obtain ⟨time, ht⟩ := Option.isSome_iff_exists.mp htime
  obtain ⟨jobs, hj⟩ := hall hjobs
  obtain ⟨taskDefs, htd⟩ := hall htasks
  obtain ⟨webhooks, hw⟩ := hall hwebhooks
  obtain ⟨runs, hr⟩ := hall hruns
  rw [encodeSnapshot, ht, hj, htd, hw, hr]
  exact ⟨_, rfl⟩

/-- **Reloading.** A snapshot of the maps is read as the maps if and only if every payload in them
is read as it is. -/
theorem reloads_iff (jsonError : Bytes → String)
    (hv : encodeSnapshot sp writtenAt s = some v) :
    (∃ m', loadSnapshot jsonError (some (render v ++ [newline])) = .ok m' ∧ m'.view = m.view) ↔
      Stable m.view := by
  let f : SnapshotFile sp := ⟨s, writtenAt, v, fits_of_captures hcap hsound, hv⟩
  have hview {s' : snapshot} (hs : rereadSnapshot s = some s') (k : Key) :
      (FSStore.loadSnapshot (some s')).view k = (m.view k).bind rereadEntity := by
    rw [view_reread hs, FSStore.view_loadSnapshot hcap]
  constructor
  · rintro ⟨m', hload, hsame⟩ k x hx r hr
    obtain ⟨hlegible, s', hs, rfl⟩ := f.loadSnapshot_eq_ok.mp hload
    refine ⟨?_, (hlegible r ((mem_snapshotPayloads hcap).mpr ⟨k, x, hx, hr⟩)).2⟩
    have hread : rereadEntity x = some x := by
      have hk := hview hs k
      rw [hsame, hx] at hk
      exact hk.symm
    exact (rereadEntity_fixed (hsound k x hx)).mp hread r hr
  · intro hstable
    have hlegible : f.Legible := by
      intro r hr
      obtain ⟨k, x, hx, hr⟩ := (mem_snapshotPayloads hcap).mp hr
      obtain ⟨hsettled, hd⟩ := hstable k x hx r hr
      rw [← reread_eq_self_iff] at hsettled
      exact ⟨(reread_isSome_iff r).mp (by rw [hsettled]; rfl), hd⟩
    obtain ⟨s', hs⟩ := Option.isSome_iff_exists.mp
      ((rereadSnapshot_isSome s).mpr fun r hr => (hlegible r hr).1)
    refine ⟨_, f.loadSnapshot_eq_ok.mpr ⟨hlegible, s', hs, rfl⟩, funext fun k => ?_⟩
    rw [hview hs]
    rcases hx : m.view k with _ | x
    · rfl
    · exact (rereadEntity_fixed (hsound k x hx)).mpr fun r hr => (hstable k x hx r hr).1

end Captured

end Workforce.SnapshotFiles
