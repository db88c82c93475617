import Workforce.FSStore
import Workforce.Runs

/-!
Concurrent clients of the file-backed store.

A mutation changes the maps under the store's lock and queues its entry after releasing it, so
the entries of two clients may cross. For one key this goes unnoticed as long as no client
changes the key while the entry of another change of it is still unsent.
-/

namespace Workforce.JournalOrder

open Contract Replay FSStore Runs

/-- A change of the maps: its place in the order of changes, and its entry. -/
structure Change where
  seq : ℕ
  entry : journalEntry
  deriving DecidableEq

structure State where
  maps : Maps
  /-- The clients between their change and the queuing of its entry. -/
  unsent : List (ℕ × Change)
  /-- The changes in the order in which they were made. -/
  applied : List Change
  /-- The changes in the order in which their entries entered the journal. -/
  journal : List Change

inductive Event
  | change (client : ℕ) (mu : Mutation)
  | send (client : ℕ)

/-- A client changes the maps, or queues the entry of its last change. -/
def step (s : State) (ev : Event) (t : State) : Prop :=
  match ev with
  | .change client mu =>
    client ∉ s.unsent.map Prod.fst ∧
      match mu.perform s.maps with
      | none => t = s
      | some (e, m) =>
        t = { s with
          maps := m
          unsent := s.unsent ++ [(client, ⟨s.applied.length, e⟩)]
          applied := s.applied ++ [⟨s.applied.length, e⟩] }
  | .send client =>
    ∃ c before after, s.unsent = before ++ (client, c) :: after ∧
      t = { s with unsent := before ++ after, journal := s.journal ++ [c] }

def ofKey (k : Key) (l : List Change) : List Change := l.filter fun c => c.entry.key = k

def unsentOf (k : Key) (s : State) : List Change := ofKey k (s.unsent.map Prod.snd)

/-- The entries of a key enter the journal in the order of its changes, and
once all have, replaying the journal over the maps as they were at the start gives the value
in memory. -/
def InOrder (start : Maps) (s : State) (k : Key) : Prop :=
  ofKey k s.journal <+: ofKey k s.applied ∧
    (unsentOf k s = [] →
      log.replay (s.journal.map Change.entry) start.view k = s.maps.view k)

/-- **The condition on a step**: a change is not made while the entry of an earlier change of
the same key is unsent. -/
def NotCrossing (s : State) : Event → Prop
  | .change _ mu => unsentOf mu.key s = []
  | .send _ => True

/-- For every key the changes so far are those in the journal and at most one unsent one. -/
structure Sound (start : Maps) (s : State) : Prop where
  split : ∀ k, ofKey k s.applied = ofKey k s.journal ++ unsentOf k s
  single : ∀ k, (unsentOf k s).length ≤ 1
  maps : s.maps.view = log.replay (s.applied.map Change.entry) start.view

lemma ofKey_append (k : Key) (l l' : List Change) : ofKey k (l ++ l') = ofKey k l ++ ofKey k l' :=
  List.filter_append ..

lemma ofKey_single (k : Key) (c : Change) :
    ofKey k [c] = if c.entry.key = k then [c] else [] := by
  unfold ofKey
  by_cases h : c.entry.key = k <;> simp [h]

/-- **One step** that does not cross another keeps the account. -/
theorem sound_step {start : Maps} {s t : State} {ev : Event} (h : Sound start s)
    (hev : NotCrossing s ev) (hs : step s ev t) : Sound start t := by
  cases ev with
  | change client mu =>
    obtain ⟨-, hs⟩ := hs
    rcases hm : mu.perform s.maps with _ | ⟨e, m⟩
    · rw [hm] at hs
      exact hs ▸ h
    rw [hm] at hs
    subst hs
    set c : Change := ⟨s.applied.length, e⟩ with hc
    have hkey : c.entry.key = mu.key := Mutation.perform_key hm
    have hunsent (k : Key) : unsentOf k
        { s with maps := m, unsent := s.unsent ++ [(client, c)], applied := s.applied ++ [c] } =
        unsentOf k s ++ ofKey k [c] := by
      unfold unsentOf
      rw [List.map_append, ofKey_append]
      rfl
    refine ⟨fun k => ?_, fun k => ?_, ?_⟩
    · rw [hunsent, ofKey_append, h.split, List.append_assoc]
    · rw [hunsent, List.length_append, ofKey_single]
      have hle := h.single k
      split_ifs with hk
      · -- the key of the new change had nothing unsent
        rw [show unsentOf k s = [] from by rw [← hk, hkey]; exact hev]
        simp
      · simpa using hle
    · rw [List.map_append, List.map_singleton, Log.replay_concat, ← h.maps,
        ← view_applyJournalEntry, Mutation.perform_eq hm]
  | send client =>
    obtain ⟨c, before, after, hu, rfl⟩ := hs
    have hunsent (k : Key) : unsentOf k s =
        ofKey k (before.map Prod.snd) ++ (ofKey k [c] ++ ofKey k (after.map Prod.snd)) := by
      unfold unsentOf
      rw [hu, List.map_append, List.map_cons, ofKey_append, ← List.singleton_append (x := c),
        ofKey_append]
    have hunsent' (k : Key) : unsentOf k
        { s with unsent := before ++ after, journal := s.journal ++ [c] } =
        ofKey k (before.map Prod.snd) ++ ofKey k (after.map Prod.snd) := by
      unfold unsentOf
      rw [List.map_append, ofKey_append]
    refine ⟨fun k => ?_, fun k => ?_, h.maps⟩
    · rw [hunsent', h.split, hunsent, ofKey_append, ofKey_single]
      have hle := h.single k
      rw [hunsent, ofKey_single] at hle
      split_ifs at hle ⊢ with hk
      · -- the entry sent is the only unsent one of its key
        simp only [List.length_append, List.length_singleton] at hle
        have hbefore : ofKey k (before.map Prod.snd) = [] :=
          List.length_eq_zero_iff.mp (by omega)
        rw [hbefore]
        simp
      · simp
    · have hle := h.single k
      rw [hunsent] at hle
      rw [hunsent']
      simp only [List.length_append] at hle ⊢
      omega

lemma inOrder_of_sound {start : Maps} {s : State} (h : Sound start s) (k : Key) :
    InOrder start s k := by
  refine ⟨⟨unsentOf k s, (h.split k).symm⟩, fun hnone => ?_⟩
  have hsplit := h.split k
  rw [hnone, List.append_nil] at hsplit
  have hkeep : ∀ e : journalEntry, decide (e.key = k) = false → log.effect e k = .keep :=
    fun e he => effect_of_ne (by simpa using he)
  have hfilter (l : List Change) :
      (l.map Change.entry).filter (fun e => e.key = k) = (ofKey k l).map Change.entry := by
    rw [List.filter_map]
    rfl
  rw [h.maps, ← log.replay_filter _ hkeep (s.journal.map Change.entry),
    ← log.replay_filter _ hkeep (s.applied.map Change.entry), hfilter, hfilter, hsplit]

def begin (m : Maps) : State := ⟨m, [], [], []⟩

/-- **The order of entries.** In every run of any number of clients whose steps all meet the
condition, every state has the entries of every key in the order of the changes. -/
theorem inOrder_of_notCrossing {m : Maps} {tr : List (State × Event)} {t : State}
    (hr : Run step (begin m) tr t) (hG : Meets NotCrossing tr) :
    ∀ u ∈ states tr t, ∀ k, InOrder m u k := by
  have hstart : Sound m (begin m) := ⟨fun _ => rfl, fun _ => Nat.zero_le 1, rfl⟩
  have hinv := hr.invariant (fun _ _ _ h hev hs => sound_step h hev hs) hG hstart
  exact fun u hu k => inOrder_of_sound (hinv u hu) k

def oneJob : Maps := { Maps.empty with jobs := Maps.empty.jobs.put { ID := "j" } }

def setStatus (st : JobStatus) : Callback Job.ID := ⟨fun j => { j with Status := st }, fun _ => rfl⟩

/-- The change that sets the job's status, as the `n`-th change. -/
def statusChange (n : ℕ) (st : JobStatus) : Change := ⟨n, .job { ID := "j", Status := st }⟩

def started : State where
  maps := { Maps.empty with jobs := oneJob.jobs.put { ID := "j", Status := .running } }
  unsent := [(0, statusChange 0 .running)]
  applied := [statusChange 0 .running]
  journal := []

lemma begin_started : step (begin oneJob) (.change 0 (.UpdateJob "j" (setStatus .running)))
    started := ⟨by decide, rfl⟩

/-- Between two updates of the job by one client, another client saves a job. -/
theorem inOrder_twice :
    ∃ tr t, Run step (begin oneJob) tr t ∧
      t.journal = [statusChange 0 .running, ⟨1, .job { ID := "k" }⟩, statusChange 2 .completed] ∧
      ∀ u ∈ states tr t, ∀ k, InOrder oneJob u k := by
  have hrun : Run step (begin oneJob)
      [(begin oneJob, .change 0 (.UpdateJob "j" (setStatus .running))),
        (started, .change 1 (.SaveJob { ID := "k" })), (_, .send 0),
        (_, .change 0 (.UpdateJob "j" (setStatus .completed))), (_, .send 1), (_, .send 0)] _ :=
    .cons begin_started <| .cons ⟨by decide, rfl⟩ <| .cons ⟨_, [], _, rfl, rfl⟩ <|
      .cons ⟨by decide, rfl⟩ <| .cons ⟨_, [], _, rfl, rfl⟩ <| .cons ⟨_, [], _, rfl, rfl⟩ (.nil _)
  refine ⟨_, _, hrun, rfl, inOrder_of_notCrossing hrun ?_⟩
  simp only [meets_cons]
  exact ⟨rfl, rfl, trivial, rfl, trivial, trivial, meets_nil⟩

/-- Another client has set it completed and queued its entry; then the first queues its own. -/
def crossed : State where
  maps := { Maps.empty with jobs := started.maps.jobs.put { ID := "j", Status := .completed } }
  unsent := []
  applied := [statusChange 0 .running, statusChange 1 .completed]
  journal := [statusChange 1 .completed, statusChange 0 .running]

/-- **Entries cross.** Two updates of one job by two clients enter the journal in the opposite
order, and a restart finds the job running again. -/
theorem updates_cross :
    ∃ tr t, Run step (begin oneJob) tr t ∧ ¬∀ u ∈ states tr t, ∀ k, InOrder oneJob u k := by
  have h2 : step started (.change 1 (.UpdateJob "j" (setStatus .completed)))
      { crossed with
        unsent := [(0, statusChange 0 .running), (1, statusChange 1 .completed)]
        journal := [] } := ⟨by decide, rfl⟩
  have h3 : step { crossed with
        unsent := [(0, statusChange 0 .running), (1, statusChange 1 .completed)]
        journal := [] } (.send 1)
      { crossed with
        unsent := [(0, statusChange 0 .running)]
        journal := [statusChange 1 .completed] } :=
    ⟨statusChange 1 .completed, [(0, statusChange 0 .running)], [], rfl, rfl⟩
  have h4 : step { crossed with
        unsent := [(0, statusChange 0 .running)]
        journal := [statusChange 1 .completed] } (.send 0) crossed :=
    ⟨statusChange 0 .running, [], [], rfl, rfl⟩
  refine ⟨_, _, .cons begin_started (.cons h2 (.cons h3 (.cons h4 (.nil _)))), fun h => ?_⟩
  have hord := (h crossed Run.last_mem (.job "j")).1
  exact absurd hord (by decide)

end Workforce.JournalOrder
