import Workforce.SnapshotFiles
import Workforce.TornTail

/-!
Opening the store, with crashes on the way.

An open loads the snapshot, replays the journal over it, writes the maps to a temporary file,
renames this file over the snapshot and truncates the journal. It may be interrupted anywhere and
start again. Between the renaming and the truncation the disk holds a snapshot and a journal that
is in it already; that does no harm, since a journal may be applied twice. What does harm is that
the maps are written and read once more: a payload that is not read as it was written.
-/

namespace Workforce.Boot

open Runs Replay Json Payloads Lines StoredRecords StoredEntities JournalLines SnapshotFiles
open TornTail
open FSStore (Maps Key Entity Captures log effect adjust nacked replayEntries)
open Contract hiding Bytes

/-! ### The steps of an open -/

structure Disk where
  snapshotFile : Option Bytes
  tmpFile : Option Bytes
  journalFile : Option Bytes

inductive Phase
  | down
  | loaded (m : Maps)
  | replayed (m : Maps)
  | writing (m : Maps) (text : Bytes)
  | synced (m : Maps)
  | renamed (m : Maps)
  | opened (m : Maps)
  | failed (err : String)

structure State where
  disk : Disk
  phase : Phase

inductive Event
  | load
  | replay
  | create
  | write (n : ℕ)
  | sync
  | rename
  | truncate
  | interrupt

variable (sp : Spelling) (jsonError : Bytes → String)

def load (d : Disk) : Phase :=
  match loadSnapshot jsonError d.snapshotFile with
  | .ok m => .loaded m
  | .error err => .failed ("fsstore: load snapshot: " ++ err)

def replay (d : Disk) (m : Maps) : Phase :=
  match replayJournal jsonError d.journalFile m with
  | .ok m => .replayed m
  | .error err => .failed ("fsstore: replay journal: " ++ err)

/-- The steps of `OpenFSStore`, at a time that can be written. A file operation that fails ends
the open as an interruption does. -/
def step (s : State) (ev : Event) (t : State) : Prop :=
  match ev with
  | .load => s.phase = .down ∧ t = { s with phase := load jsonError s.disk }
  | .replay => ∃ m, s.phase = .loaded m ∧ t = { s with phase := replay jsonError s.disk m }
  | .create =>
    ∃ m sn writtenAt, s.phase = .replayed m ∧ Captures sn m ∧ (encodeTime sp writtenAt).isSome ∧
      match encodeSnapshot sp writtenAt sn with
      | some v => t = ⟨{ s.disk with tmpFile := some [] }, .writing m (render v ++ [newline])⟩
      | none =>
        ∃ err, t = ⟨{ s.disk with tmpFile := none },
          .failed ("fsstore: initial compact: compact: encode snapshot: " ++ err)⟩
  | .write n =>
    ∃ m text, s.phase = .writing m text ∧
      t = { s with disk := { s.disk with tmpFile := some (text.take n) } }
  | .sync =>
    ∃ m text, s.phase = .writing m text ∧ s.disk.tmpFile = some text ∧
      t = { s with phase := .synced m }
  | .rename =>
    ∃ m, s.phase = .synced m ∧
      t = ⟨{ s.disk with snapshotFile := s.disk.tmpFile, tmpFile := none }, .renamed m⟩
  | .truncate =>
    ∃ m, s.phase = .renamed m ∧ t = ⟨{ s.disk with journalFile := some [] }, .opened m⟩
  | .interrupt =>
    -- nothing is known of a temporary file that was not synced, and no open reads it
    ∃ tmp, t = ⟨{ s.disk with tmpFile := tmp }, .down⟩

/-- An uninterrupted open of the disk finds the maps. -/
def Reopens (d : Disk) (m : Maps) : Prop :=
  ∃ d', Leads (step sp jsonError) (fun _ ev => ev ≠ .interrupt) ⟨d, .down⟩ ⟨d', .opened m⟩

/-! ### What the disk holds -/

section Disk

variable {sp}

/-- The disk holds a snapshot the store has written, if any, and a journal of entries the store
has written, cut at some byte. -/
structure Holds (S : Option (SnapshotFile sp)) (ws : List (Written sp)) (n : ℕ) (d : Disk) :
    Prop where
  snapshotFile : d.snapshotFile = S.map SnapshotFile.text
  journalFile : d.journalFile.getD [] = (journalFile ws).take n

/-- The maps of a snapshot file. -/
def base : Option (SnapshotFile sp) → Option Maps
  | none => some (FSStore.loadSnapshot none)
  | some f => (rereadSnapshot f.content).map fun s => FSStore.loadSnapshot (some s)

/-- The journal applied to the snapshot, with the payloads both hold. -/
def applied (S : Option (SnapshotFile sp)) (ws : List (Written sp)) (n : ℕ) :
    Option Maps := do
  let m ← base S
  let es ← (complete ws n).mapM fun w => rereadEntry w.entry
  return replayEntries es m

/-- However often the open is interrupted and run again: every entry of the journal is read, an
open that is done has found the journal applied to the snapshot, and the next one will. -/
def CrashSafe (S : Option (SnapshotFile sp)) (ws : List (Written sp)) (n : ℕ) (d : Disk) :
    Prop :=
  entriesRead (scanned maxLine (d.journalFile.getD [])) = (complete ws n).map Written.queued ∧
    ∃ M, applied S ws n = some M ∧
      ∀ tr t, Run (step sp jsonError) ⟨d, .down⟩ tr t →
        (∀ err, t.phase ≠ .failed err) ∧ (∀ m, t.phase = .opened m → m.view = M.view) ∧
          ∃ m, Reopens sp jsonError t.disk m ∧ m.view = M.view

/-- Snapshot and journal can be read. -/
structure Loads (S : Option (SnapshotFile sp)) (ws : List (Written sp)) (n : ℕ) : Prop where
  snapshotFile : ∀ f ∈ S, f.Legible
  entries : ∀ w ∈ complete ws n, w.Legible
  short : ¬TooLong maxLine ((journalFile ws).take n)

/-- The records that are left after the journal can be written and read once more. -/
def Stays (S : Option (SnapshotFile sp)) (ws : List (Written sp)) (n : ℕ) : Prop :=
  ∀ M, applied S ws n = some M → Stable M.view

end Disk

/-! ### Sound records -/

section Sound

variable {sp}

lemma sound_nacked {entry : WebhookEntry} {attempts : ℤ} {next : Time}
    (h : Sound (webhookCoding sp) entry) (hattempts : Decimal.IsInt64 attempts)
    (hnext : (encodeTime sp next).isSome) :
    Sound (webhookCoding sp) (nacked attempts next entry) where
  fits := hattempts
  encodable := by
    have hvalues := h.encodable
    rw [Coding.encode, Option.isSome_map] at hvalues ⊢
    change (webhookValues sp _).isSome at hvalues ⊢
    rw [webhookValues, embed_MarshalJSON] at hvalues ⊢
    exact (isSome_pair _ _ _).mpr ⟨hnext, ((isSome_pair _ _ _).mp hvalues).2⟩
  normal := by
    have hself : ∀ e : WebhookEntry, rereadWebhook e = some e ↔
        rereadPayload e.Payload = some e.Payload ∧ distinctKeys e.Headers = e.Headers := by
      intro e
      constructor
      · intro he
        obtain ⟨payload, hp, heq⟩ := Option.map_eq_some_iff.mp he
        exact ⟨hp.trans (congrArg some (congrArg WebhookEntry.Payload heq)),
          congrArg WebhookEntry.Headers heq⟩
      · rintro ⟨hp, hh⟩
        simp [rereadWebhook, hp, hh]
    exact (hself _).trans ((hself entry).symm.trans h.normal)

variable (sp) in
def EffectSound : Effect (ℤ × Time) Entity → Prop
  | .keep => True
  | .set x => ∀ y ∈ x, EntitySound sp y
  | .adjust (attempts, next) => Decimal.IsInt64 attempts ∧ (encodeTime sp next).isSome

lemma sound_run {ef : Effect (ℤ × Time) Entity} (h : EffectSound sp ef) {x : Option Entity}
    (hx : ∀ y ∈ x, EntitySound sp y) : ∀ y ∈ ef.run adjust x, EntitySound sp y := by
  cases ef with
  | keep => exact hx
  | set o => exact h
  | adjust a =>
    intro y hy
    obtain ⟨x', rfl, rfl⟩ := Option.map_eq_some_iff.mp hy
    have hx' := hx x' rfl
    cases x' with
    | webhook entry => exact sound_nacked hx' h.1 h.2
    | job | task | run => exact hx'

lemma effectSound_ite {p : Prop} [Decidable p] {ef : Effect (ℤ × Time) Entity}
    (h : EffectSound sp ef) : EffectSound sp (if p then ef else .keep) := by
  split_ifs
  · exact h
  · trivial

lemma sound_of_dataEntry {X : Type} {C : Coding X} {op : journalOp} {ts : Time} {x y : X}
    {q : journalEntry} (h : dataEntry C op ts x = some q) (hfits : C.Fits x)
    (hy : C.reread x = some y) : Sound C y := by
  obtain ⟨v, hv, -⟩ := dataEntry_cases h
  exact .of_reread hfits (Option.isSome_iff_exists.mpr ⟨v, hv⟩) hy

lemma effectSound_reread (w : Written sp) {e : FSStore.journalEntry}
    (h : rereadEntry w.entry = some e) (k : Key) : EffectSound sp (effect e k) := by
  obtain ⟨entry, ts, q, value, hfits, hmade, hencoded⟩ := w
  have hset {x : Entity} (hx : EntitySound sp x) : ∀ y ∈ some x, EntitySound sp y :=
    fun y hy => Option.some.inj hy ▸ hx
  cases entry with
  | job data | webhookEnqueue data | runCreate data | runUpdate data =>
    obtain ⟨y, hy, rfl⟩ := Option.map_eq_some_iff.mp h
    exact effectSound_ite (hset (sound_of_dataEntry hmade hfits hy))
  | taskDef data =>
    cases h
    exact effectSound_ite (hset (sound_of_dataEntry hmade hfits rfl))
  | taskDefDelete | webhookAck =>
    cases h
    exact effectSound_ite fun y hy => by cases hy
  | webhookNack id attempts next =>
    cases h
    cases hmade
    obtain ⟨values, hvalues, -⟩ := Option.map_eq_some_iff.mp hencoded
    obtain ⟨-, -, next', -, -, hnext, -⟩ := entryValues_cases hvalues
    exact effectSound_ite ⟨hfits, Option.isSome_iff_exists.mpr ⟨next', hnext⟩⟩

lemma sound_replay {ws : List (Written sp)} {es : List FSStore.journalEntry}
    (h : ws.mapM (fun w => rereadEntry w.entry) = some es) {view : Key → Option Entity}
    (hview : SoundView sp view) : SoundView sp (log.replay es view) := by
  have hall := mapM_eq_some.mp h
  clear h
  induction hall generalizing view with
  | nil => exact hview
  | @cons w e ws es hw _ ih =>
    refine ih fun k x hx => ?_
    exact sound_run (effectSound_reread w hw k) (hview k) x hx

lemma sound_base {S : Option (SnapshotFile sp)} {m : Maps} (h : base S = some m) :
    SoundView sp m.view := by
  cases S with
  | none =>
    cases h
    intro k x hx
    cases k <;> cases hx
  | some f =>
    obtain ⟨s, hs, rfl⟩ := Option.map_eq_some_iff.mp h
    exact f.sound hs

end Sound

/-! ### Single steps -/

/-- The maps of an open that has replayed the journal. -/
def Phase.maps : Phase → Option Maps
  | .replayed m | .writing m _ | .synced m | .renamed m | .opened m => some m
  | .down | .loaded _ | .failed _ => none

def State.written (s : State) : Option (Maps × Option Bytes) :=
  match s.phase with
  | .writing m text => some (m, some text)
  | .synced m => some (m, s.disk.tmpFile)
  | .renamed m | .opened m => some (m, s.disk.snapshotFile)
  | .down | .loaded _ | .replayed _ | .failed _ => none

def Encodes (m : Maps) (file : Option Bytes) : Prop :=
  ∃ sn writtenAt v, Captures sn m ∧ encodeSnapshot sp writtenAt sn = some v ∧
    file = some (render v ++ [newline])

/-- The new snapshot is one of the maps. -/
def Coherent (s : State) : Prop := ∀ m file, s.written = some (m, file) → Encodes sp m file

/-- The maps an open of the disk finds. -/
def Finds (d : Disk) (m : Maps) : Prop :=
  ∃ m₁, loadSnapshot jsonError d.snapshotFile = .ok m₁ ∧
    replayJournal jsonError d.journalFile m₁ = .ok m

section Steps

variable {sp jsonError} {s t : State} {ev : Event}

lemma written_load (d : Disk) (d' : Disk) : State.written ⟨d', load jsonError d⟩ = none := by
  unfold load
  split <;> rfl

lemma written_replay (d d' : Disk) (m : Maps) :
    State.written ⟨d', replay jsonError d m⟩ = none := by
  unfold replay
  split <;> rfl

lemma coherent_step (hs : step sp jsonError s ev t) (h : Coherent sp s) :
    Coherent sp t := by
  obtain ⟨d, phase⟩ := s
  intro m file ht
  cases ev with
  | load =>
    obtain ⟨-, rfl⟩ := hs
    rw [written_load] at ht
    cases ht
  | replay =>
    obtain ⟨m₁, -, rfl⟩ := hs
    rw [written_replay] at ht
    cases ht
  | create =>
    obtain ⟨m₁, sn, writtenAt, -, hcap, -, hmatch⟩ := hs
    split at hmatch
    · next v hv =>
      subst hmatch
      cases ht
      exact ⟨sn, writtenAt, v, hcap, hv, rfl⟩
    · obtain ⟨err, rfl⟩ := hmatch
      cases ht
  | write n =>
    obtain ⟨m₁, text, rfl, rfl⟩ := hs
    exact h m file ht
  | sync =>
    obtain ⟨m₁, text, rfl, htmp, rfl⟩ := hs
    cases ht
    exact h m _ (congrArg (fun f => some (m, f)) htmp.symm)
  | rename =>
    obtain ⟨m₁, rfl, rfl⟩ := hs
    exact h m file ht
  | truncate =>
    obtain ⟨m₁, rfl, rfl⟩ := hs
    exact h m file ht
  | interrupt =>
    obtain ⟨tmp, rfl⟩ := hs
    cases ht

/-- What holds of the maps when the journal has been replayed holds of them from then on. -/
lemma maps_step {P : Maps → Prop} (hs : step sp jsonError s ev t)
    (h : ∀ m, s.phase.maps = some m → P m)
    (hreplay : ∀ m m', s.phase = .loaded m →
      replayJournal jsonError s.disk.journalFile m = .ok m' → P m') :
    ∀ m, t.phase.maps = some m → P m := by
  obtain ⟨d, phase⟩ := s
  intro m ht
  cases ev with
  | load =>
    obtain ⟨-, rfl⟩ := hs
    unfold load at ht
    split at ht <;> cases ht
  | replay =>
    obtain ⟨m₁, rfl, rfl⟩ := hs
    unfold replay at ht
    split at ht
    · next m₂ hm =>
      cases ht
      exact hreplay m₁ m rfl hm
    · cases ht
  | create =>
    obtain ⟨m₁, sn, writtenAt, rfl, -, -, hmatch⟩ := hs
    split at hmatch
    · subst hmatch
      exact h m ht
    · obtain ⟨err, rfl⟩ := hmatch
      cases ht
  | write n =>
    obtain ⟨m₁, text, rfl, rfl⟩ := hs
    exact h m ht
  | sync =>
    obtain ⟨m₁, text, rfl, -, rfl⟩ := hs
    exact h m ht
  | rename | truncate =>
    obtain ⟨m₁, rfl, rfl⟩ := hs
    exact h m ht
  | interrupt =>
    obtain ⟨tmp, rfl⟩ := hs
    cases ht

end Steps

/-! ### Uninterrupted opens -/

/-- How an open that started on the disk `d` stands. -/
structure Tracks (d : Disk) (s : State) : Prop where
  coherent : Coherent sp s
  maps : ∀ m, s.phase.maps = some m → Finds jsonError d m
  down : s.phase = .down →
    s.disk.snapshotFile = d.snapshotFile ∧ s.disk.journalFile = d.journalFile
  loaded : ∀ m, s.phase = .loaded m →
    loadSnapshot jsonError d.snapshotFile = .ok m ∧ s.disk.journalFile = d.journalFile
  opened : ∀ m, s.phase = .opened m → s.disk.journalFile = some []

section Uninterrupted

variable {sp jsonError} {d d' : Disk} {s t : State} {ev : Event} {m : Maps}

lemma tracks_step (h : Tracks sp jsonError d s) (hev : ev ≠ .interrupt)
    (hs : step sp jsonError s ev t) : Tracks sp jsonError d t := by
  have hcoherent := coherent_step hs h.coherent
  have hmaps := maps_step hs h.maps fun m₁ m hm hreplay => by
    obtain ⟨hload, hjournal⟩ := h.loaded m₁ hm
    exact ⟨m₁, hload, hjournal ▸ hreplay⟩
  -- beside these, a step only has to say how it enters its phase
  cases ev with
  | load =>
    obtain ⟨hphase, rfl⟩ := hs
    obtain ⟨hsnapshot, hjournal⟩ := h.down hphase
    refine ⟨hcoherent, hmaps, fun ht => ?_, fun m ht => ?_, fun m ht => ?_⟩ <;>
      unfold load at ht <;> split at ht <;> cases ht
    next hload => exact ⟨hsnapshot ▸ hload, hjournal⟩
  | replay =>
    obtain ⟨m₁, -, rfl⟩ := hs
    refine ⟨hcoherent, hmaps, fun ht => ?_, fun m ht => ?_, fun m ht => ?_⟩ <;>
      unfold replay at ht <;> split at ht <;> cases ht
  | create =>
    obtain ⟨m₁, sn, writtenAt, -, -, -, hmatch⟩ := hs
    split at hmatch
    · subst hmatch
      exact ⟨hcoherent, hmaps, nofun, nofun, nofun⟩
    · obtain ⟨err, rfl⟩ := hmatch
      exact ⟨hcoherent, hmaps, nofun, nofun, nofun⟩
  | write n =>
    obtain ⟨d₁, phase⟩ := s
    obtain ⟨m₁, text, rfl, rfl⟩ := hs
    exact ⟨hcoherent, hmaps, nofun, nofun, nofun⟩
  | sync =>
    obtain ⟨m₁, text, -, -, rfl⟩ := hs
    exact ⟨hcoherent, hmaps, nofun, nofun, nofun⟩
  | rename =>
    obtain ⟨m₁, -, rfl⟩ := hs
    exact ⟨hcoherent, hmaps, nofun, nofun, nofun⟩
  | truncate =>
    obtain ⟨m₁, -, rfl⟩ := hs
    exact ⟨hcoherent, hmaps, nofun, nofun, fun _ _ => rfl⟩
  | interrupt => exact absurd rfl hev

/-- An open that is done has found the maps, written them and emptied the journal. -/
lemma cases_of_opened
    (h : Leads (step sp jsonError) (fun _ ev => ev ≠ .interrupt) ⟨d, .down⟩ ⟨d', .opened m⟩) :
    Finds jsonError d m ∧ Encodes sp m d'.snapshotFile ∧ d'.journalFile = some [] := by
  obtain ⟨tr, hrun, hmeets⟩ := h
  have hstart : Tracks sp jsonError d ⟨d, .down⟩ :=
    ⟨nofun, nofun, fun _ => ⟨rfl, rfl⟩, nofun, nofun⟩
  have hend := hrun.invariant (fun _ _ _ hI hev hs => tracks_step hI hev hs) hmeets hstart _
    Run.last_mem
  exact ⟨hend.maps m rfl, hend.coherent m _ rfl, hend.opened m rfl⟩

/-- **Progress.** An open of a disk with sound maps comes to its end. -/
lemma exists_open (hclock : ∃ now, (encodeTime sp now).isSome) (hfinds : Finds jsonError d m)
    (hsound : SoundView sp m.view) :
    ∃ text, Leads (step sp jsonError) (fun _ ev => ev ≠ .interrupt) ⟨d, .down⟩
      ⟨⟨some text, none, some []⟩, .opened m⟩ := by
  obtain ⟨now, hnow⟩ := hclock
  obtain ⟨m₁, hload, hreplay⟩ := hfinds
  have hcap := FSStore.captures_snapshotOf m
  obtain ⟨v, hv⟩ := exists_encodeSnapshot hcap hsound hnow
  refine ⟨render v ++ [newline], ?_⟩
  have h1 : step sp jsonError ⟨d, .down⟩ .load ⟨d, .loaded m₁⟩ := by
    refine ⟨rfl, ?_⟩
    simp only [load, hload]
  have h2 : step sp jsonError ⟨d, .loaded m₁⟩ .replay ⟨d, .replayed m⟩ := by
    refine ⟨m₁, rfl, ?_⟩
    simp only [replay, hreplay]
  have h3 : step sp jsonError ⟨d, .replayed m⟩ .create
      ⟨{ d with tmpFile := some [] }, .writing m (render v ++ [newline])⟩ := by
    refine ⟨m, _, now, rfl, hcap, hnow, ?_⟩
    rw [hv]
  have h4 : step sp jsonError
      ⟨{ d with tmpFile := some [] }, .writing m (render v ++ [newline])⟩
      (.write (render v ++ [newline]).length)
      ⟨{ d with tmpFile := some (render v ++ [newline]) }, .writing m (render v ++ [newline])⟩ := by
    refine ⟨m, _, rfl, ?_⟩
    rw [List.take_length]
  exact .cons h1 (by simp) <| .cons h2 (by simp) <| .cons h3 (by simp) <| .cons h4 (by simp) <|
    .cons (l := .sync) ⟨m, _, rfl, rfl, rfl⟩ (by simp) <|
    .cons (l := .rename) ⟨m, rfl, rfl⟩ (by simp) <|
    .cons (l := .truncate) ⟨m, rfl, rfl⟩ (by simp) <| .refl _

end Uninterrupted

/-! ### Interruptions -/

/-- An open of the disk finds the records of `V`, and its journal changes nothing in them. -/
def Ready (V : Key → Option Entity) (d : Disk) : Prop :=
  ∃ m es, loadSnapshot jsonError d.snapshotFile = .ok m ∧
    (∀ m', replayJournal jsonError d.journalFile m' = .ok (replayEntries es m')) ∧
    log.replay es m.view = V ∧ log.replay es V = V

structure Fine (V : Key → Option Entity) (s : State) : Prop where
  coherent : Coherent sp s
  ready : Ready jsonError V s.disk
  maps : ∀ m, s.phase.maps = some m → m.view = V
  loaded : ∀ m, s.phase = .loaded m → loadSnapshot jsonError s.disk.snapshotFile = .ok m
  notFailed : ∀ err, s.phase ≠ .failed err

section Interrupted

variable {sp jsonError} {V : Key → Option Entity} {d : Disk} {s t : State} {ev : Event}
  {m : Maps}

lemma Ready.finds (h : Ready jsonError V d) : ∃ m, Finds jsonError d m ∧ m.view = V := by
  obtain ⟨m, es, hload, hreplay, hV, -⟩ := h
  exact ⟨_, ⟨m, hload, hreplay m⟩, (FSStore.view_replayEntries es m).trans hV⟩

lemma Ready.view_eq (h : Ready jsonError V d) (hm : Finds jsonError d m) : m.view = V := by
  obtain ⟨m', ⟨m₁, hload, hreplay⟩, hV⟩ := h.finds
  obtain ⟨m₂, hload', hreplay'⟩ := hm
  cases hload.symm.trans hload'
  cases hreplay.symm.trans hreplay'
  exact hV

lemma replayJournal_empty (m : Maps) : replayJournal jsonError (some []) m = .ok m := by
  have hshort : ¬TooLong maxLine [] := by simp [TooLong, segments]
  show replayLines jsonError (TooLong maxLine []) [] m = .ok m
  rw [replayLines, if_neg hshort]

lemma replayJournal_getD (file : Option Bytes) (m : Maps) :
    replayJournal jsonError file m = replayJournal jsonError (some (file.getD [])) m := by
  cases file with
  | none => exact (replayJournal_empty m).symm
  | some bs => rfl

variable (jsonError) in
lemma exists_reload (hsound : SoundView sp V) (hstable : Stable V) (hm : m.view = V)
    {file : Option Bytes} (hfile : Encodes sp m file) :
    ∃ m', loadSnapshot jsonError file = .ok m' ∧ m'.view = V := by
  obtain ⟨sn, writtenAt, v, hcap, hv, rfl⟩ := hfile
  subst hm
  exact (reloads_iff hcap hsound jsonError hv).mpr hstable

lemma Ready.rename (h : Ready jsonError V d) {file tmp : Option Bytes}
    (hfile : ∃ m, loadSnapshot jsonError file = .ok m ∧ m.view = V) :
    Ready jsonError V ⟨file, tmp, d.journalFile⟩ := by
  obtain ⟨-, es, -, hreplay, -, hV⟩ := h
  obtain ⟨m, hload, hm⟩ := hfile
  exact ⟨m, es, hload, hreplay, hm ▸ hV, hV⟩

lemma Ready.truncate {file tmp : Option Bytes}
    (hfile : ∃ m, loadSnapshot jsonError file = .ok m ∧ m.view = V) :
    Ready jsonError V ⟨file, tmp, some []⟩ := by
  obtain ⟨m, hload, hm⟩ := hfile
  exact ⟨m, [], hload, replayJournal_empty, hm, rfl⟩

lemma fine_step (hsound : SoundView sp V) (hstable : Stable V) (h : Fine sp jsonError V s)
    (hs : step sp jsonError s ev t) : Fine sp jsonError V t := by
  have hcoherent := coherent_step hs h.coherent
  have hmaps := maps_step hs h.maps fun m₁ m hm hreplay =>
    h.ready.view_eq ⟨m₁, h.loaded m₁ hm, hreplay⟩
  obtain ⟨d, phase⟩ := s
  cases ev with
  | load =>
    obtain ⟨-, rfl⟩ := hs
    obtain ⟨m, es, hload, -⟩ := h.ready
    have hphase : load jsonError d = .loaded m := by simp only [load, hload]
    refine ⟨hcoherent, h.ready, hmaps, fun m' ht => ?_, fun err ht => ?_⟩
    · cases hphase.symm.trans ht
      exact hload
    · cases hphase.symm.trans ht
  | replay =>
    obtain ⟨m, rfl, rfl⟩ := hs
    obtain ⟨m', es, -, hreplay, -⟩ := h.ready
    have hphase : replay jsonError d m = .replayed (replayEntries es m) := by
      simp only [replay, hreplay]
    refine ⟨hcoherent, h.ready, hmaps, fun m' ht => ?_, fun err ht => ?_⟩ <;>
      cases hphase.symm.trans ht
  | create =>
    obtain ⟨m, sn, writtenAt, rfl, hcap, hnow, hmatch⟩ := hs
    obtain rfl := h.maps m rfl
    obtain ⟨v, hv⟩ := exists_encodeSnapshot hcap hsound hnow
    rw [hv] at hmatch
    subst hmatch
    exact ⟨hcoherent, h.ready, hmaps, nofun, nofun⟩
  | write n =>
    obtain ⟨m, text, rfl, rfl⟩ := hs
    exact ⟨hcoherent, h.ready, hmaps, nofun, nofun⟩
  | sync =>
    obtain ⟨m, text, rfl, -, rfl⟩ := hs
    exact ⟨hcoherent, h.ready, hmaps, nofun, nofun⟩
  | rename =>
    obtain ⟨m, rfl, rfl⟩ := hs
    have hreload :=
      exists_reload jsonError hsound hstable (h.maps m rfl) (h.coherent m d.tmpFile rfl)
    exact ⟨hcoherent, h.ready.rename hreload, hmaps, nofun, nofun⟩
  | truncate =>
    obtain ⟨m, rfl, rfl⟩ := hs
    have hreload :=
      exists_reload jsonError hsound hstable (h.maps m rfl) (h.coherent m d.snapshotFile rfl)
    exact ⟨hcoherent, .truncate hreload, hmaps, nofun, nofun⟩
  | interrupt =>
    obtain ⟨tmp, rfl⟩ := hs
    exact ⟨hcoherent, h.ready, hmaps, nofun, nofun⟩

/-- **Crashes do no harm** to a disk with sound records that are read as they are written. -/
lemma fine_run (hsound : SoundView sp V) (hstable : Stable V) (h : Ready jsonError V d)
    {tr : List (State × Event)} (hrun : Run (step sp jsonError) ⟨d, .down⟩ tr t) :
    Fine sp jsonError V t :=
  hrun.invariant (G := fun _ _ => True) (fun _ _ _ hI _ hs => fine_step hsound hstable hI hs)
    (fun _ _ => trivial) ⟨nofun, h, nofun, nofun, nofun⟩ t Run.last_mem

end Interrupted

/-! ### The first open -/

section First

variable {sp jsonError} {S : Option (SnapshotFile sp)} {ws : List (Written sp)} {n : ℕ}
  {d : Disk} {m M : Maps}

lemma applied_cases (h : applied S ws n = some M) :
    ∃ m es, base S = some m ∧ (complete ws n).mapM (fun w => rereadEntry w.entry) = some es ∧
      M = replayEntries es m := by
  simp only [applied, Option.bind_eq_bind, Option.bind_eq_some_iff, Option.pure_def,
    Option.some.injEq] at h
  obtain ⟨m, hm, es, hes, rfl⟩ := h
  exact ⟨m, es, hm, hes, rfl⟩

lemma sound_applied (h : applied S ws n = some M) : SoundView sp M.view := by
  obtain ⟨m, es, hm, hes, rfl⟩ := applied_cases h
  rw [FSStore.view_replayEntries]
  exact sound_replay hes (sound_base hm)

lemma Holds.load_eq_ok (hd : Holds S ws n d) : loadSnapshot jsonError d.snapshotFile = .ok m ↔
    (∀ f ∈ S, f.Legible) ∧ base S = some m := by
  rw [hd.snapshotFile]
  cases S with
  | none => simp [loadSnapshot, base]
  | some f =>
    rw [Option.map_some, f.loadSnapshot_eq_ok]
    simp [base, eq_comm]

variable (jsonError) in
lemma Loads.ready (h : Loads S ws n) (hd : Holds S ws n d) :
    ∃ M, applied S ws n = some M ∧ Finds jsonError d M ∧ Ready jsonError M.view d := by
  obtain ⟨es, hes⟩ := exists_reread_of_legible h.entries
  obtain ⟨m, hm⟩ : ∃ m, base S = some m := by
    cases S with
    | none => exact ⟨_, rfl⟩
    | some f =>
      obtain ⟨s, hs⟩ := Option.isSome_iff_exists.mp
        ((rereadSnapshot_isSome f.content).mpr fun r hr => (h.snapshotFile f rfl r hr).1)
      exact ⟨_, congrArg (Option.map _) hs⟩
  have hload : loadSnapshot jsonError d.snapshotFile = .ok m :=
    hd.load_eq_ok.mpr ⟨h.snapshotFile, hm⟩
  have hreplay : ∀ m', replayJournal jsonError d.journalFile m' = .ok (replayEntries es m') := by
    intro m'
    rw [replayJournal_getD, hd.journalFile]
    exact replayJournal_of_legible jsonError h.entries h.short hes m'
  refine ⟨replayEntries es m, by simp [applied, hm, hes], ⟨m, hload, hreplay m⟩, m, es, hload,
    hreplay, ?_, ?_⟩
  · rw [FSStore.view_replayEntries]
  · rw [FSStore.view_replayEntries]
    exact log.replay_replay es m.view

/-- **Recovery.** A disk that can be read, and once more after that, survives every crash. -/
lemma crashSafe_of_loads (hclock : ∃ now, (encodeTime sp now).isSome) (hd : Holds S ws n d)
    (hloads : Loads S ws n) (hstays : Stays S ws n) : CrashSafe jsonError S ws n d := by
  obtain ⟨M, hM, -, hready⟩ := hloads.ready jsonError hd
  have hsound := sound_applied hM
  refine ⟨?_, M, hM, fun tr t hrun => ?_⟩
  · rw [hd.journalFile]
    exact trace_of_legible hloads.entries hloads.short
  · have hfine := fine_run hsound (hstays M hM) hready hrun
    refine ⟨hfine.notFailed, fun m ht => hfine.maps m (by rw [ht]; rfl), ?_⟩
    obtain ⟨m, hfinds, hm⟩ := hfine.ready.finds
    obtain ⟨text, hopen⟩ := exists_open hclock hfinds (hm ▸ hsound)
    exact ⟨m, ⟨_, hopen⟩, hm⟩

lemma CrashSafe.loads (h : CrashSafe jsonError S ws n d) (hd : Holds S ws n d) : Loads S ws n := by
  obtain ⟨htrace, M, hM, hall⟩ := h
  obtain ⟨-, -, m, ⟨d', hopen⟩, -⟩ := hall [] _ (.nil _)
  obtain ⟨⟨m₁, hload, hreplay⟩, -, -⟩ := cases_of_opened hopen
  obtain ⟨-, es, -, hes, -⟩ := applied_cases hM
  rw [replayJournal_getD, hd.journalFile] at hreplay
  rw [hd.journalFile] at htrace
  obtain ⟨hentries, hshort⟩ := legible_of_trace htrace (applyAll_eq hes m₁) hreplay
  exact ⟨(hd.load_eq_ok.mp hload).1, hentries, hshort⟩

/-- The maps are read as they were by an open after the first one. -/
lemma CrashSafe.stays (h : CrashSafe jsonError S ws n d) : Stays S ws n := by
  obtain ⟨-, M, hM, hall⟩ := h
  intro M' hM'
  cases hM.symm.trans hM'
  have hsound := sound_applied hM
  obtain ⟨-, -, m, ⟨d', hopen⟩, hm⟩ := hall [] _ (.nil _)
  obtain ⟨-, ⟨sn, writtenAt, v, hcap, hv, hfile⟩, hjournal⟩ := cases_of_opened hopen
  -- the process stops once the store is open, and the store is opened again
  obtain ⟨tr, hrun, -⟩ := hopen
  have hcrash : step sp jsonError ⟨d', .opened m⟩ .interrupt ⟨d', .down⟩ := ⟨d'.tmpFile, rfl⟩
  obtain ⟨-, -, m', ⟨d'', hopen'⟩, hm'⟩ := hall _ _ (hrun.append (.cons hcrash (.nil _)))
  obtain ⟨⟨m₁, hload, hreplay⟩, -, -⟩ := cases_of_opened hopen'
  rw [hjournal, replayJournal_empty] at hreplay
  cases hreplay
  rw [← hm] at hsound ⊢
  refine (reloads_iff hcap hsound jsonError hv).mp ⟨m', hfile ▸ hload, hm'.trans hm.symm⟩

end First

/-! ### Journals of one job -/

section Single

variable {sp} {w : Written sp} {job : Job}

/-- The disk of a store that was never compacted, with a leftover temporary file. -/
def journalOnly (w : Written sp) : Disk := ⟨none, some [], some (journalFile [w])⟩

lemma holds_journalOnly (w : Written sp) :
    Holds none [w] (journalFile [w]).length (journalOnly w) :=
  ⟨rfl, List.take_length.symm⟩

lemma applied_single (h : rereadEntry w.entry = some (.job job)) :
    applied none [w] (journalFile [w]).length =
      some (FSStore.applyJournalEntry (.job job) .empty) := by
  rw [applied, complete_length, List.mapM_cons, h]
  rfl

lemma view_single (k : Key) : (FSStore.applyJournalEntry (.job job) .empty).view k =
    if k = .job job.ID then some (.job job) else none := by
  rw [FSStore.view_applyJournalEntry]
  show (effect (.job job) k).run adjust (Maps.empty.view k) = _
  rw [effect]
  split_ifs
  · rfl
  · cases k <;> rfl

lemma loads_single (h : w.Legible) (hshort : w.object.length < maxLine) :
    Loads none [w] (journalFile [w]).length where
  snapshotFile := nofun
  entries := by
    rw [complete_length]
    exact List.forall_mem_singleton.mpr h
  short := by
    rw [not_tooLong_iff, complete_length, tail_length]
    simpa using hshort

end Single

/-- **Crash-safe boot.** However often the open is interrupted and run again, it finds the journal
applied to the snapshot, if and only if the two can be read, and the payloads of the records they
leave are read as they are once these have been written to the next snapshot. -/
theorem crashSafe_iff (hclock : ∃ now, (encodeTime sp now).isSome)
    {S : Option (SnapshotFile sp)} {ws : List (Written sp)} {n : ℕ} {d : Disk}
    (hd : Holds S ws n d) : CrashSafe jsonError S ws n d ↔ Loads S ws n ∧ Stays S ws n :=
  ⟨fun h => ⟨h.loads hd, h.stays⟩, fun h => crashSafe_of_loads hclock hd h.1 h.2⟩

/-- A job whose payload is the JSON text `{}`. -/
def objectJob : Job := { ID := "j", Payload := some (render (.obj [])) }

lemma objectJob_fits : JobFits objectJob := ⟨by decide, by decide, by decide, by simp [objectJob]⟩

def objectEntry : Written utc :=
  write (.job objectJob) objectJob_fits (by decide +kernel) (by decide +kernel)

theorem crashSafe_objectEntry :
    Holds none [objectEntry] (journalFile [objectEntry]).length (journalOnly objectEntry) ∧
      CrashSafe (fun _ => "") none [objectEntry] (journalFile [objectEntry]).length
        (journalOnly objectEntry) := by
  have hholds := holds_journalOnly objectEntry
  have hread : rereadEntry objectEntry.entry =
      some (.job { objectJob with Result := some (render .null) }) := by decide +kernel
  refine ⟨hholds, (crashSafe_iff utc _ ⟨0, by decide +kernel⟩ hholds).mpr ⟨?_, ?_⟩⟩
  · refine loads_single ?_ (by decide +kernel)
    show ∀ r ∈ [objectJob.Payload, objectJob.Result],
      Readable r ∧ depth (payloadValue r) + 2 ≤ maxNestingDepth
    simp only [← reread_isSome_iff]
    decide +kernel
  · intro M hM k x hx
    cases (applied_single hread).symm.trans hM
    rw [view_single] at hx
    split_ifs at hx
    cases hx
    show ∀ r ∈ [objectJob.Payload, some (render .null)],
      Settled r ∧ depth (payloadValue r) + 3 ≤ maxNestingDepth
    simp only [← reread_eq_self_iff]
    decide +kernel

/-- A job whose payload is the JSON text `"IjEi"`; this is the base64 text of `"1"`. -/
def base64Job : Job := { ID := "j", Payload := some (render (encodeString "IjEi")) }

lemma base64Job_fits : JobFits base64Job := ⟨by decide, by decide, by decide, by simp [base64Job]⟩

def base64Entry : Written utc :=
  write (.job base64Job) base64Job_fits (by decide +kernel) (by decide +kernel)

/-- The payload is read as `"1"`, which is written inline to the snapshot and cannot be read from
there: the store opens once, and after a crash never again. -/
theorem base64Entry_lost :
    Holds none [base64Entry] (journalFile [base64Entry]).length (journalOnly base64Entry) ∧
      (∃ m, Reopens utc (fun _ => "illegal base64 data") (journalOnly base64Entry) m) ∧
      (∃ tr t, Run (step utc fun _ => "illegal base64 data") ⟨journalOnly base64Entry, .down⟩ tr t ∧
        t.phase = .failed "fsstore: load snapshot: decode snapshot: illegal base64 data") ∧
      ¬CrashSafe (fun _ => "illegal base64 data") none [base64Entry]
        (journalFile [base64Entry]).length (journalOnly base64Entry) := by
  have hholds := holds_journalOnly base64Entry
  let one : Job :=
    { ID := "j", Payload := some (render (encodeString "1")), Result := some (render .null) }
  have hread : rereadEntry base64Entry.entry = some (.job one) := by decide +kernel
  have happlied := applied_single hread
  have hloads : Loads none [base64Entry] (journalFile [base64Entry]).length := by
    refine loads_single ?_ (by decide +kernel)
    show ∀ r ∈ [base64Job.Payload, base64Job.Result],
      Readable r ∧ depth (payloadValue r) + 2 ≤ maxNestingDepth
    simp only [← reread_isSome_iff]
    decide +kernel
  obtain ⟨M, hM, hfinds, -⟩ := hloads.ready (fun _ => "illegal base64 data") hholds
  cases happlied.symm.trans hM
  have hsound := sound_applied hM
  -- the first open
  obtain ⟨text, hopen⟩ := exists_open ⟨0, by decide +kernel⟩ hfinds hsound
  obtain ⟨-, ⟨sn, writtenAt, v, hcap, hv, htext⟩, -⟩ := cases_of_opened hopen
  cases htext
  -- the second one meets the payload in the snapshot
  have hunread : rereadSnapshot sn = none := by
    rw [← Option.not_isSome_iff_eq_none, rereadSnapshot_isSome]
    intro hall
    have hone : Readable one.Payload := hall _ <| (mem_snapshotPayloads hcap).mpr
      ⟨.job "j", .job one, (view_single _).trans (if_pos rfl), List.mem_cons_self⟩
    rw [← reread_isSome_iff] at hone
    exact absurd hone (by decide +kernel)
  let d : Disk := ⟨some (render v ++ [newline]), none, some []⟩
  have hload : load (fun _ => "illegal base64 data") d =
      .failed "fsstore: load snapshot: decode snapshot: illegal base64 data" := by
    have hnone : unmarshal decodeSnapshot (render v ++ [newline]) = none := by
      refine (SnapshotFile.unmarshal_text
        ⟨sn, writtenAt, v, fits_of_captures hcap hsound, hv⟩).trans ?_
      simp only [hunread, ite_self]
    simp only [load, loadSnapshot, d, hnone]
    rfl
  obtain ⟨tr, hrun, hmeets⟩ := hopen
  have hcrash (m : Maps) :
      step utc (fun _ => "illegal base64 data") ⟨d, .opened m⟩ .interrupt ⟨d, .down⟩ := ⟨none, rfl⟩
  have hstart : step utc (fun _ => "illegal base64 data") ⟨d, .down⟩ .load ⟨d, load _ d⟩ :=
    ⟨rfl, rfl⟩
  have hagain := hrun.append (.cons (hcrash _) (.cons hstart (.nil _)))
  refine ⟨hholds, ⟨_, _, tr, hrun, hmeets⟩, ⟨_, _, hagain, hload⟩, fun hsafe => ?_⟩
  obtain ⟨-, M', -, hall⟩ := hsafe
  exact (hall _ _ hagain).1 _ hload

end Workforce.Boot
