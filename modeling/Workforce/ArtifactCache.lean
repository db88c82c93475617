import Workforce.Contract
import Workforce.Runs

/-!
The worker's cache of downloaded artifacts.

A call of `Fetch` looks the hash up, joins or leads the download that is in flight for it, and as
the leader inserts what it has downloaded and evicts until the cache is within its limit. The
lookup, the join and the insertion are three separate critical sections, so calls interleave
between them. A hash is a hex digest: the files of different hashes have different names.
-/

namespace Workforce.ArtifactCache

open Contract Runs Tables

/-! ### The cache -/

structure Entry where
  hash : String
  size : ℕ
  lastUsed : Time
  deriving DecidableEq

structure Config where
  maxSize : ℤ
  ttl : Duration
  sha256 : Bytes → String

/-- What the mutex protects, and the files in the directory, by hash. -/
structure Cache where
  entries : Table Entry.hash
  total : ℤ
  files : Finset String

def removeLocked (c : Cache) (hash : String) : Cache :=
  match c.entries.get hash with
  | none => c
  | some e =>
    { entries := c.entries.erase hash
      total := c.total - e.size
      files := c.files.erase hash }

/-- The loop over the items, least recently used first. -/
def evictLoop (maxSize : ℤ) : Cache → List Entry → Cache
  | c, [] => c
  | c, item :: rest =>
    if c.total ≤ maxSize then c else evictLoop maxSize (removeLocked c item.hash) rest

/-- The entries as `evictLocked` may sort them: by their last use, in any order where that is the
same. -/
structure Order (c : Cache) (items : List Entry) : Prop where
  perm : items.Perm c.entries.values
  sorted : items.Pairwise fun a b => a.lastUsed ≤ b.lastUsed

def evictLocked (cfg : Config) (c : Cache) (items : List Entry) : Cache :=
  if cfg.maxSize ≤ 0 ∨ c.total ≤ cfg.maxSize then c else evictLoop cfg.maxSize c items

/-- Look a hash up; the answer is whether it is there. -/
def get (cfg : Config) (c : Cache) (hash : String) (now : Time) : Cache × Bool :=
  match c.entries.get hash with
  | none => (c, false)
  | some e =>
    if 0 < cfg.ttl ∧ cfg.ttl < now - e.lastUsed then (removeLocked c hash, false)
    else ({ c with entries := c.entries.put { e with lastUsed := now } }, true)

/-- The start of the section at the end of `Obtain`. -/
def insert (c : Cache) (hash : String) (size : ℕ) (now : Time) : Cache :=
  { c with entries := c.entries.put ⟨hash, size, now⟩, total := c.total + size }

/-! ### Calls -/

inductive Phase
  | called
  | missed
  | waiting (leader : ℕ)
  | downloading
  | renamed (size : ℕ)
  /-- `Obtain` has returned, with or without a path. -/
  | obtained (ok : Bool)
  | finished (ok : Bool)
  deriving DecidableEq

structure Call where
  id : ℕ
  hash : String
  phase : Phase
  deriving DecidableEq

structure State where
  cache : Cache
  calls : Table Call.id
  /-- The leader of the download in flight for a hash. -/
  inFlight : AList fun _ : String => ℕ

def State.initial : State := ⟨⟨.empty _, 0, ∅⟩, .empty _, ∅⟩

def State.advance (s : State) (call : Call) (phase : Phase) : State :=
  { s with calls := s.calls.put { call with phase := phase } }

inductive Event
  | fetch (id : ℕ) (hash : String)
  | lookup (id : ℕ) (now : Time)
  | join (id : ℕ)
  | download (id : ℕ) (data : Bytes)
  /-- The download, the rename or the change of mode fails. -/
  | fail (id : ℕ)
  | obtain (id : ℕ) (now : Time) (items : List Entry)
  | finish (id : ℕ)
  | wake (id : ℕ)

def step (cfg : Config) (s : State) : Event → State → Prop
  | .fetch id hash, t =>
    s.calls.get id = none ∧ t = { s with calls := s.calls.put ⟨id, hash, .called⟩ }
  | .lookup id now, t => ∃ call, s.calls.get id = some call ∧ call.phase = .called ∧
      t = { s with cache := (get cfg s.cache call.hash now).1 }.advance call
        (if (get cfg s.cache call.hash now).2 then .finished true else .missed)
  | .join id, t => ∃ call, s.calls.get id = some call ∧ call.phase = .missed ∧
      t = match s.inFlight.lookup call.hash with
        | some leader => s.advance call (.waiting leader)
        | none => { s with inFlight := s.inFlight.insert call.hash id }.advance call .downloading
  | .download id data, t => ∃ call, s.calls.get id = some call ∧ call.phase = .downloading ∧
      t = if call.hash ≠ "" ∧ cfg.sha256 data ≠ call.hash then s.advance call (.obtained false)
        else { s with cache.files := Insert.insert call.hash s.cache.files }.advance call
          (.renamed data.length)
  | .fail id, t => ∃ call, s.calls.get id = some call ∧
      (call.phase = .downloading ∨ ∃ size, call.phase = .renamed size) ∧
      t = s.advance call (.obtained false)
  | .obtain id now items, t => ∃ call size, s.calls.get id = some call ∧
      call.phase = .renamed size ∧ Order (insert s.cache call.hash size now) items ∧
      t = { s with cache := evictLocked cfg (insert s.cache call.hash size now) items }.advance
        call (.obtained true)
  | .finish id, t => ∃ call ok, s.calls.get id = some call ∧ call.phase = .obtained ok ∧
      t = { s with inFlight := s.inFlight.erase call.hash }.advance call (.finished ok)
  | .wake id, t => ∃ call leader done ok, s.calls.get id = some call ∧
      call.phase = .waiting leader ∧ s.calls.get leader = some done ∧
      done.phase = .finished ok ∧ t = s.advance call (.finished ok)

/-! ### Accounting -/

variable {cfg : Config} {c : Cache} {s t : State} {hash : String}

def Cache.sum (c : Cache) : ℤ := c.entries.total fun e => (e.size : ℤ)

/-- What the running total is off by. -/
def Cache.drift (c : Cache) : ℤ := c.total - c.sum

@[simp] lemma drift_removeLocked (c : Cache) (hash : String) :
    (removeLocked c hash).drift = c.drift := by
  unfold removeLocked Cache.drift Cache.sum
  split
  · rfl
  · rename_i e he
    dsimp only
    rw [total_erase he]
    omega

lemma drift_evictLoop (maxSize : ℤ) (c : Cache) (items : List Entry) :
    (evictLoop maxSize c items).drift = c.drift := by
  induction items generalizing c with
  | nil => rfl
  | cons item rest ih =>
    unfold evictLoop
    split_ifs
    · rfl
    · rw [ih, drift_removeLocked]

lemma drift_evictLocked (cfg : Config) (c : Cache) (items : List Entry) :
    (evictLocked cfg c items).drift = c.drift := by
  unfold evictLocked
  split_ifs
  · rfl
  · exact drift_evictLoop _ _ _

lemma drift_get (cfg : Config) (c : Cache) (hash : String) (now : Time) :
    (get cfg c hash now).1.drift = c.drift := by
  unfold get
  split
  · rfl
  · rename_i e he
    split_ifs
    · exact drift_removeLocked c hash
    · -- the entry is written back with its size
      unfold Cache.drift Cache.sum
      have hkey : c.entries.get e.hash = some e := by rw [key_of_get he]; exact he
      rw [total_put]
      dsimp only
      rw [hkey, Option.map_some, Option.getD_some]
      omega

/-- An entry that is replaced stays in the total. -/
lemma drift_insert (c : Cache) (hash : String) (size : ℕ) (now : Time) :
    (insert c hash size now).drift =
      c.drift + ((c.entries.get hash).map fun e => (e.size : ℤ)).getD 0 := by
  unfold insert Cache.drift Cache.sum
  rw [total_put]
  dsimp only
  omega

/-- With a true total and every entry among the items, the loop ends within the limit. -/
lemma evictLoop_le {maxSize : ℤ} (hmax : 0 < maxSize) {items : List Entry} (hdrift : c.drift = 0)
    (hitems : ∀ e ∈ c.entries.values, e.hash ∈ items.map Entry.hash) :
    (evictLoop maxSize c items).total ≤ maxSize := by
  induction items generalizing c with
  | nil =>
    have hnil : c.entries.values = [] := List.eq_nil_iff_forall_not_mem.mpr fun e he => by
      simpa using hitems e he
    have hsum : c.sum = 0 := by rw [Cache.sum, Table.total, hnil]; rfl
    unfold Cache.drift at hdrift
    unfold evictLoop
    omega
  | cons item rest ih =>
    unfold evictLoop
    split_ifs with hle
    · exact hle
    · refine ih (by rw [drift_removeLocked, hdrift]) fun e he => ?_
      unfold removeLocked at he
      split at he
      · rename_i hnone
        rcases List.mem_cons.mp (hitems e he) with heq | hmem
        · rw [← heq, mem_values.mp he] at hnone
          cases hnone
        · exact hmem
      · have hne : e.hash ≠ item.hash := by
          intro heq
          have hget := mem_values.mp he
          rw [get_erase, if_pos heq] at hget
          cases hget
        exact (List.mem_cons.mp (hitems e (mem_values_of_mem_erase he))).resolve_left hne

lemma evictLocked_le (hmax : 0 < cfg.maxSize) {items : List Entry} (hdrift : c.drift = 0)
    (horder : Order c items) : (evictLocked cfg c items).total ≤ cfg.maxSize := by
  unfold evictLocked
  split_ifs with h
  · exact h.resolve_left (not_le.mpr hmax)
  · exact evictLoop_le hmax hdrift fun e he =>
      List.mem_map_of_mem (horder.perm.mem_iff.mpr he)

/-- The total is the sum of the sizes, and within the limit if there is one. -/
structure Accounted (cfg : Config) (c : Cache) : Prop where
  sum : c.total = c.sum
  limit : 0 < cfg.maxSize → c.total ≤ cfg.maxSize

/-- An insertion does not replace an entry, unless one of size zero. -/
def InsertsNew (s : State) : Event → Prop
  | .obtain id _ _ => ∀ call, s.calls.get id = some call →
      ∀ e, s.cache.entries.get call.hash = some e → e.size = 0
  | _ => True

lemma accounted_get (h : Accounted cfg c) (hash : String) (now : Time) :
    Accounted cfg (get cfg c hash now).1 := by
  have hdrift := drift_get cfg c hash now
  have hle : (get cfg c hash now).1.total ≤ c.total := by
    unfold get removeLocked
    split
    · rfl
    · split_ifs
      · exact Int.sub_le_self _ (Int.natCast_nonneg _)
      · rfl
  unfold Cache.drift at hdrift
  have := h.sum
  exact ⟨by omega, fun hmax => hle.trans (h.limit hmax)⟩

lemma accounted_obtain_iff {size : ℕ} {now : Time} {items : List Entry} (h : Accounted cfg c)
    (horder : Order (insert c hash size now) items) :
    Accounted cfg (evictLocked cfg (insert c hash size now) items) ↔
      ∀ e, c.entries.get hash = some e → e.size = 0 := by
  have hdrift : (evictLocked cfg (insert c hash size now) items).drift =
      ((c.entries.get hash).map fun e => (e.size : ℤ)).getD 0 := by
    have hzero : c.drift = 0 := sub_eq_zero.mpr h.sum
    rw [drift_evictLocked, drift_insert, hzero, zero_add]
  constructor
  · intro hafter e he
    have hzero := sub_eq_zero.mpr hafter.sum
    rw [← Cache.drift, hdrift, he, Option.map_some, Option.getD_some] at hzero
    exact_mod_cast hzero
  · intro hnew
    have hzero : (evictLocked cfg (insert c hash size now) items).drift = 0 := by
      rw [hdrift]
      rcases hget : c.entries.get hash with _ | e
      · rfl
      · rw [Option.map_some, Option.getD_some, hnew e hget]
        rfl
    refine ⟨sub_eq_zero.mp hzero, fun hmax => evictLocked_le hmax ?_ horder⟩
    rwa [drift_evictLocked] at hzero

/-- A step keeps the account exactly if it does not replace an entry. -/
lemma accounted_step_iff {e : Event} (h : Accounted cfg s.cache) (hstep : step cfg s e t) :
    InsertsNew s e ↔ Accounted cfg t.cache := by
  have hsame (hcache : t.cache = s.cache) (he : InsertsNew s e) :
      InsertsNew s e ↔ Accounted cfg t.cache := by
    rw [hcache]
    exact iff_of_true he h
  cases e with
  | fetch id hash =>
    obtain ⟨-, rfl⟩ := hstep
    exact hsame rfl trivial
  | lookup id now =>
    obtain ⟨call, -, -, rfl⟩ := hstep
    exact iff_of_true trivial (accounted_get h call.hash now)
  | join id =>
    obtain ⟨call, -, -, rfl⟩ := hstep
    exact hsame (by split <;> rfl) trivial
  | download id data =>
    obtain ⟨call, -, -, rfl⟩ := hstep
    split_ifs
    · exact iff_of_true trivial h
    · exact iff_of_true trivial ⟨h.sum, h.limit⟩
  | fail id =>
    obtain ⟨call, -, -, rfl⟩ := hstep
    exact hsame rfl trivial
  | obtain id now items =>
    obtain ⟨call, size, hcall, -, horder, rfl⟩ := hstep
    show (∀ c, _) ↔ _
    rw [hcall]
    refine Iff.trans ?_ (accounted_obtain_iff h horder).symm
    exact ⟨fun hnew => hnew call rfl, fun hnew c hc => by cases hc; exact hnew⟩
  | finish id =>
    obtain ⟨call, ok, -, -, rfl⟩ := hstep
    exact hsame rfl trivial
  | wake id =>
    obtain ⟨call, leader, done, ok, -, -, -, -, rfl⟩ := hstep
    exact hsame rfl trivial

/-! ### One download after another -/

def small : Config := ⟨10, 0, fun _ => "h"⟩

def fetched (s : State) (id : ℕ) : State := { s with calls := s.calls.put ⟨id, "h", .called⟩ }

def missed (s : State) (id : ℕ) : State :=
  { s with cache := (get small s.cache "h" 0).1 }.advance ⟨id, "h", .called⟩ .missed

def leading (s : State) (id : ℕ) : State :=
  { s with inFlight := s.inFlight.insert "h" id }.advance ⟨id, "h", .missed⟩ .downloading

def downloaded (s : State) (id : ℕ) (data : Bytes) : State :=
  { s with cache.files := Insert.insert "h" s.cache.files }.advance ⟨id, "h", .downloading⟩
    (.renamed data.length)

def obtained (s : State) (id : ℕ) (size : ℕ) (now : Time) : State :=
  { s with cache := evictLocked small (insert s.cache "h" size now) [⟨"h", size, now⟩] }.advance
    ⟨id, "h", .renamed size⟩ (.obtained true)

def finished (s : State) (id : ℕ) : State :=
  { s with inFlight := s.inFlight.erase "h" }.advance ⟨id, "h", .obtained true⟩ (.finished true)

/-- The first call has downloaded the artifact, after both have missed it. -/
def bothMissed : State := missed (missed (fetched (fetched .initial 0) 1) 0) 1
def firstLoaded : State := downloaded (leading bothMissed 0) 0 [1, 2, 3, 4]
def firstDone : State := finished (obtained firstLoaded 0 4 1) 0
def secondLoaded : State := downloaded (leading firstDone 1) 1 [1, 2, 3, 4]

def firstRun : List (State × Event) :=
  [(.initial, .fetch 0 "h"), (fetched .initial 0, .fetch 1 "h"),
    (fetched (fetched .initial 0) 1, .lookup 0 0),
    (missed (fetched (fetched .initial 0) 1) 0, .lookup 1 0), (bothMissed, .join 0),
    (leading bothMissed 0, .download 0 [1, 2, 3, 4]),
    (firstLoaded, .obtain 0 1 [⟨"h", 4, 1⟩]), (obtained firstLoaded 0 4 1, .finish 0)]

lemma firstDone_run : Run (step small) .initial firstRun firstDone := by
  refine .cons ⟨rfl, rfl⟩ (.cons ⟨by decide, rfl⟩ (.cons ⟨⟨0, "h", .called⟩, by decide, rfl, rfl⟩
    (.cons ⟨⟨1, "h", .called⟩, by decide, rfl, rfl⟩ (.cons ⟨⟨0, "h", .missed⟩, by decide, rfl, rfl⟩
    (.cons ⟨⟨0, "h", .downloading⟩, by decide, rfl, rfl⟩
    (.cons ⟨⟨0, "h", .renamed 4⟩, 4, by decide, rfl, ⟨by decide, by decide⟩, rfl⟩
    (.cons ⟨⟨0, "h", .obtained true⟩, true, by decide, rfl, rfl⟩ (.nil _))))))))

/-- **Accounting.** However the calls interleave, the total is the sum of the sizes of the entries
and within the limit in every state, exactly if no insertion replaces an entry with a size. -/
theorem accounted_iff (cfg : Config) {tr : List (State × Event)} {t : State}
    (hrun : Run (step cfg) .initial tr t) :
    (∀ s ∈ states tr t, Accounted cfg s.cache) ↔ Meets InsertsNew tr := by
  refine Run.always_iff (I := fun s => Accounted cfg s.cache) (J := fun _ => True)
    (fun _ _ _ _ _ => trivial) (fun _ _ _ _ h hstep => accounted_step_iff h hstep) hrun trivial ?_
  exact ⟨rfl, fun hmax => hmax.le⟩

theorem accounted_firstRun : Run (step small) .initial firstRun firstDone ∧
    ∀ s ∈ states firstRun firstDone, Accounted small s.cache := by
  refine ⟨firstDone_run, (accounted_iff small firstDone_run).mpr ?_⟩
  simp only [firstRun, meets_cons, meets_nil, and_true]
  refine ⟨trivial, trivial, trivial, trivial, trivial, trivial, ?_, trivial⟩
  -- there is no entry yet
  intro call hcall e he
  cases hcall
  cases he

/-- **The same artifact counted twice.** Both calls have missed the artifact before the first has
downloaded it. The second then finds no download in flight and does its own, and the entry it
replaces stays in the total. -/
theorem entry_counted_twice :
    Run (step small) .initial (firstRun ++ [(firstDone, .join 1),
      (leading firstDone 1, .download 1 [1, 2, 3, 4]),
      (secondLoaded, .obtain 1 2 [⟨"h", 4, 2⟩])]) (obtained secondLoaded 1 4 2) ∧
    (obtained secondLoaded 1 4 2).cache.total = 8 ∧
    (obtained secondLoaded 1 4 2).cache.sum = 4 := by
  refine ⟨firstDone_run.append (.cons ⟨⟨1, "h", .missed⟩, by decide, rfl, rfl⟩
    (.cons ⟨⟨1, "h", .downloading⟩, by decide, rfl, rfl⟩
    (.cons ⟨⟨1, "h", .renamed 4⟩, 4, by decide, rfl, ⟨by decide, by decide⟩, rfl⟩ (.nil _)))),
    by decide, by decide⟩

/-! ### Downloads in flight -/

/-- The call is inside `Obtain`, or about to leave it. -/
def Phase.Leads : Phase → Bool
  | .downloading | .renamed _ | .obtained _ => true
  | _ => false

def Flights (s : State) : Prop := ∀ id call, s.calls.get id = some call → call.phase.Leads →
  s.inFlight.lookup call.hash = some id

lemma Flights.put (h : Flights s) (call : Call) (hcalls : t.calls = s.calls.put call)
    (hothers : ∀ hash id, id ≠ call.id → s.inFlight.lookup hash = some id →
      t.inFlight.lookup hash = some id)
    (hown : call.phase.Leads → t.inFlight.lookup call.hash = some call.id) : Flights t := by
  intro id c hget hleads
  rw [hcalls, get_put] at hget
  split_ifs at hget with hid
  · cases hget
    exact hid ▸ hown hleads
  · exact hothers _ _ hid (h id c hget hleads)

lemma flights_step {e : Event} (h : Flights s) (hs : step cfg s e t) : Flights t := by
  -- a call that is in flight only if it was
  have hadvance {id : ℕ} {call : Call} (hget : s.calls.get id = some call) (phase : Phase)
      (cache : Cache) (hleads : phase.Leads → call.phase.Leads) :
      Flights ({ s with cache := cache }.advance call phase) := by
    obtain rfl := key_of_get hget
    exact h.put { call with phase := phase } rfl (fun _ _ _ hl => hl)
      fun hl => h call.id call hget (hleads hl)
  cases e with
  | fetch id hash =>
    obtain ⟨-, rfl⟩ := hs
    exact h.put ⟨id, hash, .called⟩ rfl (fun _ _ _ hl => hl)
      fun hl => absurd hl Bool.false_ne_true
  | lookup id now =>
    obtain ⟨call, hget, -, rfl⟩ := hs
    split_ifs <;> exact hadvance hget _ _ fun hl => absurd hl Bool.false_ne_true
  | join id =>
    obtain ⟨call, hget, -, rfl⟩ := hs
    obtain rfl := key_of_get hget
    rcases hlookup : s.inFlight.lookup call.hash with _ | leader
    · refine h.put { call with phase := .downloading } rfl (fun hash id _ hl => ?_)
        fun _ => AList.lookup_insert _
      have hne : hash ≠ call.hash := by
        rintro rfl
        cases hlookup.symm.trans hl
      exact (AList.lookup_insert_ne hne).trans hl
    · exact hadvance hget _ s.cache fun hl => absurd hl Bool.false_ne_true
  | download id data =>
    obtain ⟨call, hget, hphase, rfl⟩ := hs
    split_ifs <;> exact hadvance hget _ _ fun _ => by rw [hphase]; rfl
  | fail id =>
    obtain ⟨call, hget, hphase, rfl⟩ := hs
    refine hadvance hget _ s.cache fun _ => ?_
    rcases hphase with hphase | ⟨size, hphase⟩ <;> rw [hphase] <;> rfl
  | obtain id now items =>
    obtain ⟨call, size, hget, hphase, -, rfl⟩ := hs
    exact hadvance hget _ _ fun _ => by rw [hphase]; rfl
  | finish id =>
    obtain ⟨call, ok, hget, hphase, rfl⟩ := hs
    obtain rfl := key_of_get hget
    refine h.put { call with phase := .finished ok } rfl (fun hash id hid hl => ?_)
      fun hl => absurd hl Bool.false_ne_true
    have hne : hash ≠ call.hash := by
      rintro rfl
      cases (h _ _ hget (by rw [hphase]; rfl)).symm.trans hl
      exact hid rfl
    exact (AList.lookup_erase_ne hne).trans hl
  | wake id =>
    obtain ⟨call, leader, done, ok, hget, -, -, -, rfl⟩ := hs
    exact hadvance hget _ s.cache fun hl => absurd hl Bool.false_ne_true

/-- **One download at a time.** However the calls of `Fetch` interleave, at most one of them is
obtaining an artifact. -/
theorem one_download (cfg : Config) {tr : List (State × Event)} {t : State}
    (hrun : Run (step cfg) .initial tr t) : ∀ s ∈ states tr t, ∀ id call id' call',
      s.calls.get id = some call → s.calls.get id' = some call' →
      call.phase.Leads → call'.phase.Leads → call.hash = call'.hash → id = id' := by
  intro s hs id call id' call' hget hget' hl hl' hhash
  have h : Flights s := hrun.invariant (G := fun _ _ => True)
    (fun _ _ _ h _ hstep => flights_step h hstep) (fun _ _ => trivial) (fun _ _ h => by cases h)
    s hs
  have hsame := h id call hget hl
  rw [hhash, h id' call' hget' hl'] at hsame
  exact (Option.some.inj hsame).symm

theorem one_download_first :
    (leading bothMissed 0).calls.get 0 = some ⟨0, "h", .downloading⟩ ∧
    ∀ id call, (leading bothMissed 0).calls.get id = some call → call.phase.Leads →
      call.hash = "h" → id = 0 := by
  have hmem : leading bothMissed 0 ∈ states firstRun firstDone := by simp [firstRun, states]
  exact ⟨by decide, fun id call hget hl hhash =>
    one_download small firstDone_run _ hmem id call 0 ⟨0, "h", .downloading⟩ hget (by decide) hl
      (by decide) hhash⟩

end Workforce.ArtifactCache
