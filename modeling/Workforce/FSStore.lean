import Workforce.Contract
import Workforce.Replay

/-!
The file-backed store: four maps in memory, a journal of their changes, and snapshots.

A mutation changes the maps under the store's lock and, after releasing it, sends a journal
entry to the background writer. JSON coding is left to the modules about bytes; here an entry
holds the entity itself.
-/

namespace Workforce.FSStore

open Tables Contract Replay

/-! ### The maps -/

structure Maps where
  jobs : Jobs
  taskDefs : Tasks
  runs : Runs
  webhooks : Webhooks

def Maps.empty : Maps := ⟨.empty _, .empty _, .empty _, .empty _⟩

inductive Key
  | job (id : String)
  | task (name : String)
  | run (id : String)
  | webhook (id : String)
  deriving DecidableEq

inductive Entity
  | job (j : Job)
  | task (t : Task)
  | run (r : JobRun)
  | webhook (e : WebhookEntry)
  deriving DecidableEq

/-- The four maps as one function; two maps are the same when their views are. -/
def Maps.view (m : Maps) : Key → Option Entity
  | .job id => (m.jobs.get id).map .job
  | .task name => (m.taskDefs.get name).map .task
  | .run id => (m.runs.get id).map .run
  | .webhook id => (m.webhooks.get id).map .webhook

/-! ### Journal entries -/

/-- One line of the journal: its operation and the fields that apply to it. -/
inductive journalEntry
  | job (data : Job)
  | taskDef (data : Task)
  | taskDefDelete (id : String)
  | webhookEnqueue (data : WebhookEntry)
  | webhookAck (id : String)
  | webhookNack (id : String) (attempts : ℤ) (nextAttemptAt : Time)
  | runCreate (data : JobRun)
  | runUpdate (data : JobRun)
  deriving DecidableEq

def nacked (attempts : ℤ) (nextAttemptAt : Time) (e : WebhookEntry) : WebhookEntry :=
  { e with Attempts := attempts, NextAttemptAt := nextAttemptAt }

def applyJournalEntry (e : journalEntry) (m : Maps) : Maps :=
  match e with
  | .job data => { m with jobs := m.jobs.put data }
  | .taskDef data => { m with taskDefs := m.taskDefs.put data }
  | .taskDefDelete id => { m with taskDefs := m.taskDefs.erase id }
  | .webhookEnqueue data => { m with webhooks := m.webhooks.put data }
  | .webhookAck id => { m with webhooks := m.webhooks.erase id }
  | .webhookNack id attempts next =>
    { m with webhooks := m.webhooks.modify id (nacked attempts next) }
  | .runCreate data | .runUpdate data => { m with runs := m.runs.put data }

/-- A nack adjusts a delivery that is there. -/
def adjust : ℤ × Time → Entity → Entity
  | (attempts, next), .webhook e => .webhook (nacked attempts next e)
  | _, x => x

def effect (e : journalEntry) (k : Key) : Effect (ℤ × Time) Entity :=
  match e with
  | .job data => if k = .job data.ID then .set (some (.job data)) else .keep
  | .taskDef data => if k = .task data.Name then .set (some (.task data)) else .keep
  | .taskDefDelete id => if k = .task id then .set none else .keep
  | .webhookEnqueue data => if k = .webhook data.ID then .set (some (.webhook data)) else .keep
  | .webhookAck id => if k = .webhook id then .set none else .keep
  | .webhookNack id attempts next => if k = .webhook id then .adjust (attempts, next) else .keep
  | .runCreate data | .runUpdate data =>
    if k = .run data.ID then .set (some (.run data)) else .keep

def journalEntry.key : journalEntry → Key
  | .job data => .job data.ID
  | .taskDef data => .task data.Name
  | .taskDefDelete id => .task id
  | .webhookEnqueue data => .webhook data.ID
  | .webhookAck id => .webhook id
  | .webhookNack id _ _ => .webhook id
  | .runCreate data | .runUpdate data => .run data.ID

lemma effect_of_ne {e : journalEntry} {k : Key} (h : e.key ≠ k) : effect e k = .keep := by
  cases e <;> exact if_neg (Ne.symm h)

def log : Log journalEntry Key (ℤ × Time) Entity where
  adj := adjust
  effect := effect
  absorb := by
    rintro ⟨a, n⟩ ⟨b, n'⟩ v
    cases v <;> rfl

section View

variable {key : String → Key} {V : Type} {idOf : V → String}

lemma map_get_put (t : Table idOf) (v : V) (wrap : V → Entity)
    (hkey : ∀ i j, key i = key j ↔ i = j) (i : String) :
    ((t.put v).get i).map wrap =
      Effect.run adjust (if key i = key (idOf v) then .set (some (wrap v)) else .keep)
        ((t.get i).map wrap) := by
  rw [get_put]
  by_cases h : i = idOf v
  · rw [if_pos h, if_pos ((hkey _ _).mpr h)]
    rfl
  · rw [if_neg h, if_neg fun hk => h ((hkey _ _).mp hk)]
    rfl

lemma map_get_erase (t : Table idOf) (i' : String) (wrap : V → Entity)
    (hkey : ∀ i j, key i = key j ↔ i = j) (i : String) :
    ((t.erase i').get i).map wrap =
      Effect.run adjust (if key i = key i' then .set none else .keep) ((t.get i).map wrap) := by
  rw [get_erase]
  by_cases h : i = i'
  · rw [if_pos h, if_pos ((hkey _ _).mpr h)]
    rfl
  · rw [if_neg h, if_neg fun hk => h ((hkey _ _).mp hk)]
    rfl

end View

/-- **Replay is log replay.** Applying an entry to the maps is applying it to their view. -/
theorem view_applyJournalEntry (e : journalEntry) (m : Maps) :
    (applyJournalEntry e m).view = log.apply e m.view := by
  funext k
  cases e with
  | job data =>
    cases k with
    | job id => exact map_get_put _ _ _ (fun _ _ => by simp) id
    | task | run | webhook => rfl
  | taskDef data =>
    cases k with
    | task id => exact map_get_put _ _ _ (fun _ _ => by simp) id
    | job | run | webhook => rfl
  | taskDefDelete name =>
    cases k with
    | task id => exact map_get_erase _ _ _ (fun _ _ => by simp) id
    | job | run | webhook => rfl
  | webhookEnqueue data =>
    cases k with
    | webhook id => exact map_get_put _ _ _ (fun _ _ => by simp) id
    | job | task | run => rfl
  | webhookAck id' =>
    cases k with
    | webhook id => exact map_get_erase _ _ _ (fun _ _ => by simp) id
    | job | task | run => rfl
  | webhookNack id' attempts next =>
    cases k with
    | webhook id =>
      show ((m.webhooks.modify id' (nacked attempts next)).get id).map Entity.webhook =
        Effect.run adjust (if Key.webhook id = .webhook id' then .adjust (attempts, next)
          else .keep) ((m.webhooks.get id).map .webhook)
      have hid : ∀ e, (nacked attempts next e).ID = e.ID := fun _ => rfl
      rw [get_modify _ _ _ hid]
      by_cases h : id = id'
      · subst h
        rw [if_pos rfl, if_pos rfl]
        cases m.webhooks.get id <;> rfl
      · rw [if_neg h, if_neg (by simpa using h)]
        rfl
    | job | task | run => rfl
  | runCreate data | runUpdate data =>
    cases k with
    | run id => exact map_get_put _ _ _ (fun _ _ => by simp) id
    | job | task | webhook => rfl

def replayEntries (es : List journalEntry) (m : Maps) : Maps :=
  es.foldl (fun m e => applyJournalEntry e m) m

lemma view_replayEntries (es : List journalEntry) (m : Maps) :
    (replayEntries es m).view = log.replay es m.view := by
  induction es generalizing m with
  | nil => rfl
  | cons e es ih =>
    show (replayEntries es (applyJournalEntry e m)).view = log.replay es (log.apply e m.view)
    rw [ih, view_applyJournalEntry]

/-! ### Mutations -/

/-- A `mutate` callback. None of the callers' callbacks touches the key of the record. -/
abbrev Callback {V : Type} (key : V → String) := { f : V → V // ∀ v, key (f v) = key v }

inductive Mutation
  | SaveJob (job : Job)
  | UpdateJob (id : String) (mutate : Callback Job.ID)
  | SaveTask (task : Task)
  | UpdateTask (name : String) (mutate : Callback Task.Name)
  | DeleteTask (name : String)
  | CreateRun (run : JobRun)
  | UpdateRun (id : String) (mutate : Callback JobRun.ID)
  | EnqueueWebhook (entry : WebhookEntry)
  | AckWebhook (id : String)
  | NackWebhook (id : String) (attempts : ℤ) (nextAttemptAt : Time)

/-- The change of the maps and the entry that is journaled for it; `none` when the method
returns not-found. -/
def Mutation.perform (mu : Mutation) (m : Maps) : Option (journalEntry × Maps) :=
  match mu with
  | .SaveJob job => some (.job job, { m with jobs := m.jobs.put job })
  | .UpdateJob id mutate =>
    (m.jobs.get id).map fun job =>
      (.job (mutate.1 job), { m with jobs := m.jobs.put (mutate.1 job) })
  | .SaveTask task => some (.taskDef task, { m with taskDefs := m.taskDefs.put task })
  | .UpdateTask name mutate =>
    (m.taskDefs.get name).map fun task =>
      (.taskDef (mutate.1 task), { m with taskDefs := m.taskDefs.put (mutate.1 task) })
  | .DeleteTask name =>
    (m.taskDefs.get name).map fun _ =>
      (.taskDefDelete name, { m with taskDefs := m.taskDefs.erase name })
  | .CreateRun run => some (.runCreate run, { m with runs := m.runs.put run })
  | .UpdateRun id mutate =>
    (m.runs.get id).map fun run =>
      (.runUpdate (mutate.1 run), { m with runs := m.runs.put (mutate.1 run) })
  | .EnqueueWebhook entry =>
    some (.webhookEnqueue entry, { m with webhooks := m.webhooks.put entry })
  | .AckWebhook id => some (.webhookAck id, { m with webhooks := m.webhooks.erase id })
  | .NackWebhook id attempts next =>
    (m.webhooks.get id).map fun entry =>
      (.webhookNack id attempts next,
        { m with webhooks := m.webhooks.put (nacked attempts next entry) })

def Mutation.key : Mutation → Key
  | .SaveJob job => .job job.ID
  | .UpdateJob id _ => .job id
  | .SaveTask task => .task task.Name
  | .UpdateTask name _ | .DeleteTask name => .task name
  | .CreateRun run => .run run.ID
  | .UpdateRun id _ => .run id
  | .EnqueueWebhook entry => .webhook entry.ID
  | .AckWebhook id | .NackWebhook id _ _ => .webhook id

lemma Mutation.perform_key {mu : Mutation} {m m' : Maps} {e : journalEntry}
    (h : mu.perform m = some (e, m')) : e.key = mu.key := by
  cases mu with
  | SaveJob | SaveTask | CreateRun | EnqueueWebhook | AckWebhook =>
    cases h
    rfl
  | UpdateJob id mutate =>
    obtain ⟨job, hget, h⟩ := Option.map_eq_some_iff.mp h
    cases h
    exact congrArg Key.job ((mutate.2 job).trans (key_of_get hget))
  | UpdateTask name mutate =>
    obtain ⟨task, hget, h⟩ := Option.map_eq_some_iff.mp h
    cases h
    exact congrArg Key.task ((mutate.2 task).trans (key_of_get hget))
  | UpdateRun id mutate =>
    obtain ⟨run, hget, h⟩ := Option.map_eq_some_iff.mp h
    cases h
    exact congrArg Key.run ((mutate.2 run).trans (key_of_get hget))
  | DeleteTask | NackWebhook =>
    obtain ⟨_, -, h⟩ := Option.map_eq_some_iff.mp h
    cases h
    rfl

/-- **The journal tells what happened**: the entry of a mutation makes the same change. -/
theorem Mutation.perform_eq {mu : Mutation} {m m' : Maps} {e : journalEntry}
    (h : mu.perform m = some (e, m')) : applyJournalEntry e m = m' := by
  cases mu with
  | SaveJob | SaveTask | CreateRun | EnqueueWebhook | AckWebhook =>
    cases h
    rfl
  | UpdateJob | UpdateTask | DeleteTask | UpdateRun =>
    obtain ⟨_, -, h⟩ := Option.map_eq_some_iff.mp h
    cases h
    rfl
  | NackWebhook id attempts next =>
    obtain ⟨entry, hget, h⟩ := Option.map_eq_some_iff.mp h
    cases h
    simp only [applyJournalEntry, Table.modify, hget]

/-! ### Snapshots -/

structure snapshot where
  Jobs : List Job
  TaskDefs : List Task
  Webhooks : List WebhookEntry
  Runs : List JobRun

/-- The maps a snapshot file holds; no file is the empty state of a first boot. -/
def loadSnapshot : Option snapshot → Maps
  | none => .empty
  | some s => ⟨(Table.empty _).putAll s.Jobs, (Table.empty _).putAll s.TaskDefs,
      (Table.empty _).putAll s.Runs, (Table.empty _).putAll s.Webhooks⟩

/-- The snapshot lists the maps, each in the order of one enumeration. -/
structure Captures (s : snapshot) (m : Maps) : Prop where
  jobs : s.Jobs.Perm m.jobs.values
  taskDefs : s.TaskDefs.Perm m.taskDefs.values
  runs : s.Runs.Perm m.runs.values
  webhooks : s.Webhooks.Perm m.webhooks.values

def snapshotOf (m : Maps) : snapshot :=
  ⟨m.jobs.values, m.taskDefs.values, m.webhooks.values, m.runs.values⟩

lemma captures_snapshotOf (m : Maps) : Captures (snapshotOf m) m :=
  ⟨.refl _, .refl _, .refl _, .refl _⟩

lemma view_loadSnapshot {s : snapshot} {m : Maps} (h : Captures s m) :
    (loadSnapshot (some s)).view = m.view := by
  funext k
  cases k with
  | job id => exact congrArg (Option.map Entity.job) (get_putAll_perm h.jobs id)
  | task name => exact congrArg (Option.map Entity.task) (get_putAll_perm h.taskDefs name)
  | run id => exact congrArg (Option.map Entity.run) (get_putAll_perm h.runs id)
  | webhook id => exact congrArg (Option.map Entity.webhook) (get_putAll_perm h.webhooks id)

/-! ### The background writer -/

structure FSStoreConfig where
  SyncInterval : Duration := 0
  CompactAfter : ℤ := 0
  JournalBufSize : ℤ := 0

def defaultCompactAfter : ℤ := 500
def defaultJournalBufSize : ℤ := 256

def FSStoreConfig.setDefaults (c : FSStoreConfig) : FSStoreConfig where
  SyncInterval := if c.SyncInterval < 0 then 0 else c.SyncInterval
  CompactAfter := if c.CompactAfter ≤ 0 then defaultCompactAfter else c.CompactAfter
  JournalBufSize := if c.JournalBufSize ≤ 0 then defaultJournalBufSize else c.JournalBufSize

/-- Where the writer goroutine is: waiting, past the encoding of an entry, about to compact,
with the maps copied, or past the rename of the new snapshot. -/
inductive Writer
  | idle
  | appended
  | compacting
  | taken (s : snapshot)
  | renamed

structure State where
  maps : Maps
  /-- The entry of a call that has changed the maps and not yet queued it. -/
  pending : Option journalEntry
  journalCh : List journalEntry
  /-- The entries encoded since the journal was last truncated. -/
  journal : List journalEntry
  /-- How many of them are known to be on disk. -/
  synced : ℕ
  snapshotFile : Option snapshot
  entryCount : ℤ
  writer : Writer

inductive Event
  | call (mu : Mutation)
  | queue
  | write
  | finish
  | tick
  | take
  | rename
  | truncate

/-- The steps of one client and of the writer. -/
def step (cfg : FSStoreConfig) (s : State) (ev : Event) (t : State) : Prop :=
  match ev with
  | .call mu =>
    s.pending = none ∧
      match mu.perform s.maps with
      | none => t = s
      | some (e, m) => t = { s with maps := m, pending := some e }
  | .queue =>
    ∃ e, s.pending = some e ∧ s.journalCh.length < cfg.JournalBufSize ∧
      t = { s with pending := none, journalCh := s.journalCh ++ [e] }
  | .write =>
    s.writer = .idle ∧ ∃ e rest, s.journalCh = e :: rest ∧
      t = { s with
        journalCh := rest, journal := s.journal ++ [e], entryCount := s.entryCount + 1,
        writer := .appended }
  | .finish =>
    s.writer = .appended ∧
      t = { s with
        synced := if cfg.SyncInterval = 0 then s.journal.length else s.synced
        writer := if cfg.CompactAfter ≤ s.entryCount then .compacting else .idle }
  | .tick => s.writer = .idle ∧ 0 < cfg.SyncInterval ∧ t = { s with synced := s.journal.length }
  | .take =>
    -- the maps are copied under the read lock, whatever is still queued
    s.writer = .compacting ∧ ∃ sn, Captures sn s.maps ∧ t = { s with writer := .taken sn }
  | .rename =>
    ∃ sn, s.writer = .taken sn ∧ t = { s with snapshotFile := some sn, writer := .renamed }
  | .truncate =>
    s.writer = .renamed ∧ t = { s with journal := [], synced := 0, entryCount := 0, writer := .idle }

/-- The maps an open finds: the snapshot with the journal applied. -/
def restore (file : Option snapshot) (es : List journalEntry) : Maps :=
  replayEntries es (loadSnapshot file)

/-- Opening the store on a snapshot file and a journal: load, replay, compact, and start the
writer. -/
def Opens (file : Option snapshot) (es : List journalEntry) (s : State) : Prop :=
  ∃ sn, Captures sn (restore file es) ∧
    s = ⟨restore file es, none, [], [], 0, some sn, 0, .idle⟩

end Workforce.FSStore
