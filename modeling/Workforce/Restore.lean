import Workforce.FSStore
import Workforce.Runs

/-!
A restart finds what was in memory.

A snapshot is taken whatever is still queued, so it may contain changes whose entries are
written to the new journal later; and for a moment the new snapshot stands beside the whole
old journal. Both are harmless, because entries may be replayed over a state that contains
them.
-/

namespace Workforce.Restore

open Contract Replay FSStore Runs

variable {cfg : FSStoreConfig} {s t : State}

def outstanding (s : State) : List journalEntry := s.journalCh ++ s.pending.toList

/-- The maps are what the log gives over the file's snapshot, and over the snapshot being
written, with the old journal or without it. -/
structure Consistent (s : State) : Prop where
  file : log.replay (s.journal ++ outstanding s) (loadSnapshot s.snapshotFile).view = s.maps.view
  taken : ∀ sn, s.writer = .taken sn →
    log.replay (s.journal ++ outstanding s) (loadSnapshot (some sn)).view = s.maps.view ∧
      log.replay (outstanding s) (loadSnapshot (some sn)).view = s.maps.view
  renamed : s.writer = .renamed →
    log.replay (outstanding s) (loadSnapshot s.snapshotFile).view = s.maps.view

/-- A call appends its entry to what is outstanding, whatever stands before it. -/
lemma consistent_call {e : journalEntry} {m : Maps} {mu : Mutation} (h : Consistent s)
    (hp : s.pending = none) (hm : mu.perform s.maps = some (e, m)) :
    Consistent { s with maps := m, pending := some e } := by
  have hview : m.view = log.apply e s.maps.view := by
    rw [← view_applyJournalEntry, Mutation.perform_eq hm]
  have hout : outstanding { s with maps := m, pending := some e } = outstanding s ++ [e] := by
    unfold outstanding
    rw [hp]
    simp
  have hstep (es : List journalEntry) {v : Key → Option Entity}
      (hv : log.replay (es ++ outstanding s) v = s.maps.view) :
      log.replay (es ++ outstanding { s with maps := m, pending := some e }) v = m.view := by
    rw [hout, ← List.append_assoc, Log.replay_concat, hv, hview]
  refine ⟨hstep _ h.file, fun sn hw => ⟨hstep _ (h.taken sn hw).1, ?_⟩, fun hw => ?_⟩
  · exact hstep [] (h.taken sn hw).2
  · exact hstep [] (h.renamed hw)

/-- **One step** keeps the store consistent. -/
theorem consistent_step {ev : Event} (h : Consistent s) (hs : step cfg s ev t) :
    Consistent t := by
  cases ev with
  | call mu =>
    obtain ⟨hp, hs⟩ := hs
    rcases hm : mu.perform s.maps with _ | ⟨e, m⟩
    · rw [hm] at hs
      exact hs ▸ h
    · rw [hm] at hs
      subst hs
      exact consistent_call h hp hm
  | queue =>
    obtain ⟨e, hp, -, rfl⟩ := hs
    have hout : outstanding { s with pending := none, journalCh := s.journalCh ++ [e] } =
        outstanding s := by
      unfold outstanding
      rw [hp]
      simp
    refine ⟨?_, ?_, ?_⟩ <;> rw [hout]
    · exact h.file
    · exact h.taken
    · exact h.renamed
  | write =>
    obtain ⟨hw, e, rest, hch, rfl⟩ := hs
    refine ⟨?_, fun sn hw' => (nomatch hw'), fun hw' => (nomatch hw')⟩
    have hfile := h.file
    unfold outstanding at hfile ⊢
    rw [hch] at hfile
    simpa using hfile
  | finish =>
    obtain ⟨hw, rfl⟩ := hs
    refine ⟨h.file, fun sn hw' => ?_, fun hw' => ?_⟩
    · dsimp only at hw'
      split at hw' <;> cases hw'
    · dsimp only at hw'
      split at hw' <;> cases hw'
  | tick =>
    obtain ⟨-, -, rfl⟩ := hs
    exact ⟨h.file, h.taken, h.renamed⟩
  | take =>
    obtain ⟨-, sn, hsn, rfl⟩ := hs
    refine ⟨h.file, fun sn' hw => ?_, fun hw => (nomatch hw)⟩
    cases hw
    -- the snapshot is the present state, which contains every entry so far
    rw [view_loadSnapshot hsn]
    have hfile := h.file
    refine ⟨?_, ?_⟩
    · rw [← hfile]
      exact log.replay_replay _ _
    · rw [← hfile]
      exact log.replay_suffix _ _ _
  | rename =>
    obtain ⟨sn, hw, rfl⟩ := hs
    obtain ⟨hall, hrest⟩ := h.taken sn hw
    exact ⟨hall, fun sn' hw' => (nomatch hw'), fun _ => hrest⟩
  | truncate =>
    obtain ⟨hw, rfl⟩ := hs
    exact ⟨h.renamed hw, fun sn' hw' => (nomatch hw'), fun hw' => (nomatch hw')⟩

lemma consistent_of_opens {file : Option snapshot} {es : List journalEntry}
    (h : Opens file es s) : Consistent s := by
  obtain ⟨sn, hsn, rfl⟩ := h
  exact ⟨view_loadSnapshot hsn, fun _ hw => (nomatch hw), fun hw => (nomatch hw)⟩

/-! ### Closing -/

/-- Events of the writer goroutine. -/
def Event.OfWriter : Event → Prop
  | .call _ | .queue => False
  | _ => True

/-- The writer, left alone, gets from one state to the other. -/
def WriterRun (cfg : FSStoreConfig) (s t : State) : Prop :=
  ∃ tr, Run (step cfg) s tr t ∧ ∀ p ∈ tr, Event.OfWriter p.2

/-- `Close`: the writer drains the channel and returns. -/
def Closes (cfg : FSStoreConfig) (s t : State) : Prop :=
  WriterRun cfg s t ∧ t.journalCh = [] ∧ t.writer = .idle

lemma WriterRun.refl (s : State) : WriterRun cfg s s := ⟨[], .nil s, by simp⟩

lemma WriterRun.cons {u : State} {ev : Event} (hs : step cfg s ev u) (hev : Event.OfWriter ev)
    (h : WriterRun cfg u t) : WriterRun cfg s t := by
  obtain ⟨tr, hr, htr⟩ := h
  refine ⟨_, .cons hs hr, fun p hp => ?_⟩
  rcases List.mem_cons.mp hp with rfl | hp
  · exact hev
  · exact htr p hp

lemma WriterRun.maps (h : WriterRun cfg s t) : t.maps = s.maps ∧ t.pending = s.pending := by
  obtain ⟨tr, hr, htr⟩ := h
  induction hr with
  | nil => exact ⟨rfl, rfl⟩
  | @cons s u t ev tr hs hr ih =>
    obtain ⟨hm, hp⟩ := ih fun p hp => htr p (by simp [hp])
    have hev : Event.OfWriter ev := htr (s, ev) (by simp)
    rw [hm, hp]
    cases ev with
    | call | queue => exact hev.elim
    | write =>
      obtain ⟨-, e, rest, -, rfl⟩ := hs
      exact ⟨rfl, rfl⟩
    | finish | truncate =>
      obtain ⟨-, rfl⟩ := hs
      exact ⟨rfl, rfl⟩
    | tick =>
      obtain ⟨-, -, rfl⟩ := hs
      exact ⟨rfl, rfl⟩
    | take =>
      obtain ⟨-, sn, -, rfl⟩ := hs
      exact ⟨rfl, rfl⟩
    | rename =>
      obtain ⟨sn, -, rfl⟩ := hs
      exact ⟨rfl, rfl⟩

lemma exists_idle (cfg : FSStoreConfig) (s : State) :
    ∃ t, WriterRun cfg s t ∧ t.writer = .idle ∧ t.journalCh = s.journalCh := by
  have hrenamed (s : State) (hw : s.writer = .renamed) :
      ∃ t, WriterRun cfg s t ∧ t.writer = .idle ∧ t.journalCh = s.journalCh := by
    have hstep : step cfg s .truncate { s with
        journal := [], synced := 0, entryCount := 0, writer := .idle } := ⟨hw, rfl⟩
    exact ⟨_, .cons hstep trivial (.refl _), rfl, rfl⟩
  have htaken (s : State) (sn : snapshot) (hw : s.writer = .taken sn) :
      ∃ t, WriterRun cfg s t ∧ t.writer = .idle ∧ t.journalCh = s.journalCh := by
    have hstep : step cfg s .rename { s with snapshotFile := some sn, writer := .renamed } :=
      ⟨sn, hw, rfl⟩
    obtain ⟨t, ht, hidle, hch⟩ := hrenamed { s with snapshotFile := some sn, writer := .renamed } rfl
    exact ⟨t, .cons hstep trivial ht, hidle, hch⟩
  have hcompacting (s : State) (hw : s.writer = .compacting) :
      ∃ t, WriterRun cfg s t ∧ t.writer = .idle ∧ t.journalCh = s.journalCh := by
    have hstep : step cfg s .take { s with writer := .taken (snapshotOf s.maps) } :=
      ⟨hw, _, captures_snapshotOf _, rfl⟩
    obtain ⟨t, ht, hidle, hch⟩ := htaken { s with writer := .taken (snapshotOf s.maps) } _ rfl
    exact ⟨t, .cons hstep trivial ht, hidle, hch⟩
  rcases hw : s.writer with _ | _ | _ | sn | _
  · exact ⟨s, .refl s, hw, rfl⟩
  · set u : State := { s with
      synced := if cfg.SyncInterval = 0 then s.journal.length else s.synced
      writer := if cfg.CompactAfter ≤ s.entryCount then .compacting else .idle } with hu
    have hstep : step cfg s .finish u := ⟨hw, rfl⟩
    by_cases hc : cfg.CompactAfter ≤ s.entryCount
    · obtain ⟨t, ht, hidle, hch⟩ := hcompacting u (if_pos hc)
      exact ⟨t, .cons hstep trivial ht, hidle, hch⟩
    · exact ⟨u, .cons hstep trivial (.refl u), if_neg hc, rfl⟩
  · exact hcompacting s hw
  · exact htaken s sn hw
  · exact hrenamed s hw

lemma WriterRun.trans {u : State} (h : WriterRun cfg s u) (h' : WriterRun cfg u t) :
    WriterRun cfg s t := by
  obtain ⟨tr, hr, htr⟩ := h
  obtain ⟨tr', hr', htr'⟩ := h'
  refine ⟨_, hr.append hr', fun p hp => ?_⟩
  rcases List.mem_append.mp hp with hp | hp
  · exact htr p hp
  · exact htr' p hp

lemma exists_closes (cfg : FSStoreConfig) (s : State) : ∃ t, Closes cfg s t := by
  -- by the number of entries still queued
  induction hn : s.journalCh.length generalizing s with
  | zero =>
    obtain ⟨t, ht, hidle, hch⟩ := exists_idle cfg s
    exact ⟨t, ht, hch.trans (List.length_eq_zero_iff.mp hn), hidle⟩
  | succ n ih =>
    obtain ⟨t, ht, hidle, hch⟩ := exists_idle cfg s
    obtain ⟨e, rest, hrest⟩ := List.exists_cons_of_length_eq_add_one hn
    set u : State := { t with
      journalCh := rest, journal := t.journal ++ [e], entryCount := t.entryCount + 1,
      writer := .appended } with hu
    have hstep : step cfg t .write u := ⟨hidle, e, rest, hch.trans hrest, rfl⟩
    obtain ⟨v, hv, hempty, hidle'⟩ := ih u (by rw [hrest] at hn; simpa [hu] using hn)
    exact ⟨v, ht.trans (.cons hstep trivial hv), hempty, hidle'⟩

/-! ### Main result -/

lemma restore_view {file : Option snapshot} {es : List journalEntry} :
    (restore file es).view = log.replay es (loadSnapshot file).view := view_replayEntries _ _

/-- **Nothing is lost or invented.** From any opened store, for every sequence of mutations and
every schedule of the writer: whenever no call is between its change and its entry, the
snapshot with the journal and the queued entries applied is what is in memory; and closing the
store, which always comes to an end, and opening it again restores the same maps. -/
theorem restore_eq_maps {file : Option snapshot} {es : List journalEntry} (hopen : Opens file es s)
    {tr : List (State × Event)} (hr : Run (step cfg.setDefaults) s tr t) :
    (∀ u ∈ states tr t, u.pending = none →
      (restore u.snapshotFile (u.journal ++ u.journalCh)).view = u.maps.view) ∧
    (t.pending = none → (∃ u, Closes cfg.setDefaults t u) ∧
      ∀ u s', Closes cfg.setDefaults t u → Opens u.snapshotFile u.journal s' →
        s'.maps.view = t.maps.view) := by
  have hinv {s t : State} {tr : List (State × Event)} (hs : Consistent s)
      (hr : Run (step cfg.setDefaults) s tr t) : ∀ u ∈ states tr t, Consistent u :=
    hr.invariant (G := fun _ _ => True) (fun _ _ _ h _ hs => consistent_step h hs)
      (fun _ _ => trivial) hs
  have hquiet {u : State} (hu : Consistent u) (hp : u.pending = none) :
      (restore u.snapshotFile (u.journal ++ u.journalCh)).view = u.maps.view := by
    have hfile := hu.file
    unfold outstanding at hfile
    rw [hp, Option.toList_none, List.append_nil] at hfile
    rw [restore_view, hfile]
  have hall := hinv (consistent_of_opens hopen) hr
  refine ⟨fun u hu hp => hquiet (hall u hu) hp, fun hp => ⟨exists_closes _ t, ?_⟩⟩
  rintro u s' ⟨hrun, hempty, -⟩ ⟨sn, -, rfl⟩
  obtain ⟨hmaps, hpend⟩ := hrun.maps
  obtain ⟨tr', hr', -⟩ := hrun
  have hu := hquiet (hinv (hall t Run.last_mem) hr' u Run.last_mem) (hpend.trans hp)
  rw [hempty, List.append_nil, hmaps] at hu
  exact hu

def firstBoot : State := ⟨.empty, none, [], [], 0, some ⟨[], [], [], []⟩, 0, .idle⟩

lemma opens_firstBoot : Opens none [] firstBoot :=
  ⟨⟨[], [], [], []⟩, ⟨.refl _, .refl _, .refl _, .refl _⟩, rfl⟩

def saves (id : String) : Event := .call (.SaveJob { ID := id })

/-- A second job is saved while the writer compacts because of the first. -/
theorem restore_eq_maps_compacted :
    ∃ tr t, Run (step (FSStoreConfig.setDefaults { CompactAfter := 1 })) firstBoot tr t ∧
      t.snapshotFile = some ⟨[{ ID := "j" }], [], [], []⟩ ∧ t.journal = [] ∧
      t.journalCh = [.job { ID := "k" }] ∧
      (restore t.snapshotFile (t.journal ++ t.journalCh)).view = t.maps.view := by
  have hrun : Run (step (FSStoreConfig.setDefaults { CompactAfter := 1 })) firstBoot _ _ :=
    .cons (l := saves "j") ⟨rfl, rfl⟩ <|
    .cons (l := Event.queue) ⟨_, rfl, by decide, rfl⟩ <|
    .cons (l := Event.write) ⟨rfl, _, _, rfl, rfl⟩ <|
    .cons (l := Event.finish) ⟨rfl, rfl⟩ <|
    .cons (l := Event.take)
      ⟨rfl, ⟨[{ ID := "j" }], [], [], []⟩, ⟨.refl _, .refl _, .refl _, .refl _⟩, rfl⟩ <|
    .cons (l := saves "k") ⟨rfl, rfl⟩ <|
    .cons (l := Event.rename) ⟨_, rfl, rfl⟩ <|
    .cons (l := Event.queue) ⟨_, rfl, by decide, rfl⟩ <|
    .cons (l := Event.truncate) ⟨rfl, rfl⟩ (.nil _)
  exact ⟨_, _, hrun, rfl, rfl, rfl,
    (restore_eq_maps opens_firstBoot hrun).1 _ Run.last_mem rfl⟩

end Workforce.Restore
