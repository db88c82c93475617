import Workforce.Operations

/-!
Where the manager holds a job, and how often.

A job that still has work to do is in the dispatch heap, in the in-flight set of a pooled
connection, behind a retry timer, or in a re-queue that has been started. While an operation
moves it, the operation itself holds it: `Holds l s` says that, with the jobs in `l` in the
hands of the running operation, no job is held twice.
-/

namespace Workforce.Copies

open Tables Contract Shared Calls Operations Footprints

/-! ### Places -/

def pool (s : World) : Finset ConnID :=
  (s.workers.entries.map Sigma.snd).toFinset ∪ (s.platform.entries.flatMap Sigma.snd).toFinset

def inFlightOf (s : World) (w : ConnID) : Finset String :=
  ((s.conns.get w).map WorkerConn.inFlight).getD ∅

/-- The pooled connections that have the job in flight. -/
def holders (s : World) (j : String) : Finset ConnID :=
  (pool s).filter fun w => j ∈ inFlightOf s w

def queued (s : World) (j : String) : ℕ := (s.queue.map Job.ID).count j

/-- How often the job is held. -/
def copies (s : World) (j : String) : ℕ :=
  queued s j + (holders s j).card + s.timers.count j + s.requeues.flatten.count j

variable {s t : World} {w : ConnID}

lemma mem_pool : w ∈ pool s ↔ (∃ id, s.workers.lookup id = some w) ∨ ∃ k, w ∈ platformList s k := by
  unfold pool platformList
  simp only [Finset.mem_union, List.mem_toFinset, List.mem_map, List.mem_flatMap]
  refine or_congr ⟨?_, ?_⟩ ⟨?_, ?_⟩
  · rintro ⟨⟨id, w'⟩, he, rfl⟩
    exact ⟨id, AList.mem_lookup_iff.mpr he⟩
  · rintro ⟨id, h⟩
    exact ⟨⟨id, w⟩, AList.mem_lookup_iff.mp h, rfl⟩
  · rintro ⟨⟨k, ws⟩, he, hw⟩
    refine ⟨k, ?_⟩
    rw [AList.mem_lookup_iff.mpr he]
    exact hw
  · rintro ⟨k, hw⟩
    rcases hk : s.platform.lookup k with _ | ws
    · rw [hk] at hw
      exact absurd hw List.not_mem_nil
    · rw [hk] at hw
      exact ⟨⟨k, ws⟩, AList.mem_lookup_iff.mp hk, hw⟩

variable {j : String}

lemma mem_holders : w ∈ holders s j ↔ w ∈ pool s ∧ j ∈ inFlightOf s w := by
  unfold holders
  rw [Finset.mem_filter]

/-- The indexes agree with the connections: every entry is under its connection's own worker
ID or platform, and no connection is listed twice. -/
structure Indexed (s : World) : Prop where
  workers : ∀ id w, s.workers.lookup id = some w → ∃ c, s.conns.get w = some c ∧ c.workerID = id
  platform : ∀ k w, w ∈ platformList s k → ∃ c, s.conns.get w = some c ∧ key c = k
  nodup : ∀ k, (platformList s k).Nodup

lemma Indexed.of_eq (h : Indexed s) (hc : t.conns = s.conns) (hw : t.workers = s.workers)
    (hp : t.platform = s.platform) : Indexed t := by
  refine ⟨fun id w h' => ?_, fun k w h' => ?_, fun k => ?_⟩
  · rw [hw] at h'
    rw [hc]
    exact h.workers id w h'
  · unfold platformList at h'
    rw [hp] at h'
    rw [hc]
    exact h.platform k w h'
  · unfold platformList
    rw [hp]
    exact h.nodup k

/-- The job is held somewhere, connection `w` apart. -/
def Elsewhere (s : World) (w : ConnID) (j : String) : Prop :=
  j ∈ s.queue.map Job.ID ∨ (∃ w' ∈ pool s, w' ≠ w ∧ j ∈ inFlightOf s w') ∨
    j ∈ s.timers ∨ j ∈ s.requeues.flatten

/-- How often the job is held, connection `w` apart. -/
def copiesBut (w : ConnID) (s : World) (j : String) : ℕ :=
  queued s j + ((holders s j).erase w).card + s.timers.count j + s.requeues.flatten.count j

lemma copiesBut_eq_zero (h : ¬Elsewhere s w j) : copiesBut w s j = 0 := by
  unfold Elsewhere at h
  simp only [not_or, not_exists, not_and] at h
  obtain ⟨hq, hf, ht, hr⟩ := h
  have hempty : (holders s j).erase w = ∅ := by
    refine Finset.eq_empty_of_forall_notMem fun w' hw' => ?_
    obtain ⟨hne, hmem⟩ := Finset.mem_erase.mp hw'
    obtain ⟨hp, hj⟩ := mem_holders.mp hmem
    exact hf w' hp hne hj
  unfold copiesBut queued
  rw [hempty, List.count_eq_zero_of_not_mem hq, List.count_eq_zero_of_not_mem ht,
    List.count_eq_zero_of_not_mem hr, Finset.card_empty]

lemma copies_eq : copies s j = copiesBut w s j + if w ∈ holders s j then 1 else 0 := by
  unfold copies copiesBut
  split_ifs with h
  · have := Finset.card_erase_add_one h
    omega
  · rw [Finset.erase_eq_of_notMem h]
    omega

/-! ### Jobs in the hands of an operation -/

/-- With the jobs in `l` in the hands of the running operation, no job is held twice, and a
job that waits for its children is not held at all. -/
structure Holds (l : List String) (s : World) : Prop where
  once : ∀ j, copies s j + l.count j ≤ 1
  waiting : ∀ j job, s.jobs.get j = some job → job.Status = .awaitingChildren →
    copies s j + l.count j = 0
  issued : ∀ j, j ∉ s.issued → copies s j + l.count j = 0
  stored : ∀ j, s.jobs.get j ≠ none → j ∈ s.issued
  indexed : Indexed s

variable {l : List String}

lemma Holds.mem_issued (h : Holds l s) (hj : j ∈ l) : j ∈ s.issued := by
  by_contra hn
  have hz := h.issued j hn
  have hpos := List.count_pos_iff.mpr hj
  omega

lemma Holds.drop {l' : List String} (h : Holds l s) (hl : ∀ j, l'.count j ≤ l.count j) :
    Holds l' s where
  once j := by have := h.once j; have := hl j; omega
  waiting j job hj hst := by have := h.waiting j job hj hst; have := hl j; omega
  issued j hj := by have := h.issued j hj; have := hl j; omega
  stored := h.stored
  indexed := h.indexed

lemma Holds.take {id : String} (h : Holds l s) (hzero : copies s id + l.count id = 0)
    (hissued : id ∈ s.issued)
    (hwait : ∀ job, s.jobs.get id = some job → job.Status ≠ .awaitingChildren) :
    Holds (id :: l) s where
  once j := by
    by_cases hji : id = j
    · subst hji
      rw [List.count_cons_self]
      omega
    · rw [List.count_cons_of_ne hji]
      exact h.once j
  waiting j job hj hst := by
    have hne : id ≠ j := by
      rintro rfl
      exact hwait job hj hst
    rw [List.count_cons_of_ne hne]
    exact h.waiting j job hj hst
  issued j hj := by
    have hne : id ≠ j := by
      rintro rfl
      exact hj hissued
    rw [List.count_cons_of_ne hne]
    exact h.issued j hj
  stored := h.stored
  indexed := h.indexed

/-- Moving jobs between places and the operation's hands. -/
lemma Holds.move {l' : List String} (h : Holds l s)
    (hc : ∀ j, copies t j + l'.count j ≤ copies s j + l.count j) (hjobs : t.jobs = s.jobs)
    (hissued : t.issued = s.issued) (hidx : Indexed t) : Holds l' t where
  once j := by have := h.once j; have := hc j; omega
  waiting j job hj hst := by
    rw [hjobs] at hj
    have := h.waiting j job hj hst
    have := hc j
    omega
  issued j hj := by
    rw [hissued] at hj
    have := h.issued j hj
    have := hc j
    omega
  stored j hj := by
    rw [hissued]
    rw [hjobs] at hj
    exact h.stored j hj
  indexed := hidx

/-- The places are untouched, and so are the records, as far as waiting is concerned. -/
structure SamePlaces (s t : World) : Prop where
  queue : t.queue.map Job.ID = s.queue.map Job.ID
  conns : t.conns = s.conns
  workers : t.workers = s.workers
  platform : t.platform = s.platform
  timers : t.timers = s.timers
  requeues : t.requeues = s.requeues

section Same

variable {s t : World} (h : SamePlaces s t)

include h

lemma SamePlaces.pool : pool t = pool s := by
  unfold Copies.pool
  rw [h.workers, h.platform]

lemma SamePlaces.inFlightOf (w : ConnID) : inFlightOf t w = inFlightOf s w := by
  unfold Copies.inFlightOf
  rw [h.conns]

lemma SamePlaces.holders (j : String) : holders t j = holders s j := by
  unfold Copies.holders
  simp only [h.pool, h.inFlightOf]

lemma SamePlaces.copies (j : String) : copies t j = copies s j := by
  unfold Copies.copies queued
  rw [h.holders, h.queue, h.timers, h.requeues]

lemma SamePlaces.copiesBut (w : ConnID) (j : String) : copiesBut w t j = copiesBut w s j := by
  unfold Copies.copiesBut queued
  rw [h.holders, h.queue, h.timers, h.requeues]

lemma SamePlaces.indexed (hi : Indexed s) : Indexed t := hi.of_eq h.conns h.workers h.platform

end Same

lemma SamePlaces.of_same (h : Same s t) : SamePlaces s t :=
  ⟨by rw [h.queue], h.conns, h.workers, h.platform, h.timers, h.requeues⟩

lemma Holds.records (h : Holds l s) (hp : SamePlaces s t) (hissued : s.issued ⊆ t.issued)
    (hstored : ∀ j, t.jobs.get j ≠ none → j ∈ t.issued)
    (hwait : ∀ j job, t.jobs.get j = some job → job.Status = .awaitingChildren →
      ∃ job', s.jobs.get j = some job' ∧ job'.Status = .awaitingChildren) : Holds l t where
  once j := by rw [hp.copies]; exact h.once j
  waiting j job hj hst := by
    obtain ⟨job', hj', hst'⟩ := hwait j job hj hst
    rw [hp.copies]
    exact h.waiting j job' hj' hst'
  issued j hj := by
    rw [hp.copies]
    exact h.issued j fun hm => hj (hissued hm)
  stored := hstored
  indexed := hp.indexed h.indexed

lemma Holds.same (h : Holds l s) (hs : Same s t) : Holds l t := by
  refine h.records (.of_same hs) hs.issued (fun j hj => hs.issued (h.stored j (hs.jobs ▸ hj))) ?_
  intro j job hj hst
  exact ⟨job, hs.jobs ▸ hj, hst⟩

/-! ### Changing a connection -/

section Conns

variable {s : World} {w : ConnID} {f : WorkerConn → WorkerConn}

lemma inFlightOf_modify (hf : ∀ c, (f c).conn = c.conn) (w' : ConnID) :
    inFlightOf { s with conns := s.conns.modify w f } w' =
      if w' = w then ((s.conns.get w).map fun c => (f c).inFlight).getD ∅
      else inFlightOf s w' := by
  unfold inFlightOf
  rw [get_modify _ _ _ hf]
  split_ifs with h
  · rw [Option.map_map]
    rfl
  · rfl

lemma indexed_modify (hf : ∀ c, (f c).conn = c.conn) (hid : ∀ c, (f c).workerID = c.workerID)
    (hkey : ∀ c, key (f c) = key c) (hi : Indexed s) :
    Indexed { s with conns := s.conns.modify w f } := by
  -- a connection of the new table is one of the old table, possibly changed
  have hget (w' : ConnID) (c : WorkerConn) (hc : s.conns.get w' = some c) :
      ∃ c', (s.conns.modify w f).get w' = some c' ∧ c'.workerID = c.workerID ∧ key c' = key c := by
    rw [get_modify _ _ _ hf]
    split_ifs with h
    · subst h
      exact ⟨f c, by rw [hc]; rfl, hid c, hkey c⟩
    · exact ⟨c, hc, rfl, rfl⟩
  refine ⟨fun id w' hw => ?_, fun k w' hw => ?_, hi.nodup⟩
  · obtain ⟨c, hc, rfl⟩ := hi.workers id w' hw
    obtain ⟨c', hc', hid', -⟩ := hget w' c hc
    exact ⟨c', hc', hid'⟩
  · obtain ⟨c, hc, rfl⟩ := hi.platform k w' hw
    obtain ⟨c', hc', -, hkey'⟩ := hget w' c hc
    exact ⟨c', hc', hkey'⟩

lemma holds_modify {l : List String} (h : Holds l s) (hf : ∀ c, (f c).conn = c.conn)
    (hid : ∀ c, (f c).workerID = c.workerID) (hkey : ∀ c, key (f c) = key c)
    (hfl : ∀ c, (f c).inFlight = c.inFlight) :
    Holds l { s with conns := s.conns.modify w f } := by
  refine h.move (fun j => le_of_eq ?_) rfl rfl (indexed_modify hf hid hkey h.indexed)
  have hsame (w' : ConnID) :
      inFlightOf { s with conns := s.conns.modify w f } w' = inFlightOf s w' := by
    rw [inFlightOf_modify hf]
    split_ifs with hw
    · subst hw
      simp only [hfl]
      rfl
    · rfl
  have hh : holders { s with conns := s.conns.modify w f } j = holders s j := by
    ext w'
    rw [mem_holders, mem_holders, hsame]
    rfl
  unfold copies
  rw [hh]
  rfl

lemma holders_complete (id j : String) (cost : ℤ) :
    holders { s with conns := s.conns.modify w fun c => c.CompleteTask id cost } j =
      if j = id then (holders s j).erase w else holders s j := by
  ext w'
  have hfl := inFlightOf_modify (s := s) (w := w) (f := fun c => c.CompleteTask id cost)
    (fun _ => rfl) w'
  have hpool : pool { s with conns := s.conns.modify w fun c => c.CompleteTask id cost } =
      pool s := rfl
  rw [mem_holders, hfl, hpool]
  by_cases hw : w' = w
  · subst hw
    by_cases hj : j = id
    · subst hj
      rcases hc : s.conns.get w' with _ | c <;> simp [WorkerConn.CompleteTask]
    · rw [if_neg hj, mem_holders]
      unfold inFlightOf
      rcases hc : s.conns.get w' with _ | c <;> simp [WorkerConn.CompleteTask, hj]
  · rw [if_neg hw, ← mem_holders]
    split_ifs with hj
    · rw [Finset.mem_erase]
      exact ⟨fun h => ⟨hw, h⟩, fun h => h.2⟩
    · rfl

lemma copies_complete_self (id : String) (cost : ℤ) :
    copies { s with conns := s.conns.modify w fun c => c.CompleteTask id cost } id =
      copiesBut w s id := by
  unfold copies copiesBut
  rw [holders_complete, if_pos rfl]
  rfl

lemma copies_complete_of_ne {id j : String} (hj : j ≠ id) (cost : ℤ) :
    copies { s with conns := s.conns.modify w fun c => c.CompleteTask id cost } j = copies s j := by
  unfold copies
  rw [holders_complete, if_neg hj]
  rfl

lemma copies_complete_le (id j : String) (cost : ℤ) :
    copies { s with conns := s.conns.modify w fun c => c.CompleteTask id cost } j ≤ copies s j := by
  by_cases hj : j = id
  · subst hj
    rw [copies_complete_self, copies_eq (w := w)]
    omega
  · rw [copies_complete_of_ne hj]

lemma indexed_complete (id : String) (cost : ℤ) (hi : Indexed s) :
    Indexed { s with conns := s.conns.modify w fun c => c.CompleteTask id cost } :=
  indexed_modify (fun _ => rfl) (fun _ => rfl) (fun _ => rfl) hi

lemma copies_assign {c : WorkerConn} (hc : s.conns.get w = some c) (id j : String)
    (c' : WorkerConn) (hw : c'.conn = c.conn) (hfl : c'.inFlight = insert id c.inFlight) :
    copies { s with conns := s.conns.put c' } j ≤ copies s j + if j = id then 1 else 0 := by
  have hkey : c'.conn = w := hw.trans (key_of_get hc)
  have hof (w' : ConnID) : inFlightOf { s with conns := s.conns.put c' } w' =
      if w' = w then insert id c.inFlight else inFlightOf s w' := by
    unfold inFlightOf
    rw [get_put, hkey]
    split_ifs
    · rw [Option.map_some, Option.getD_some, hfl]
    · rfl
  have hofw : inFlightOf s w = c.inFlight := by
    unfold inFlightOf
    rw [hc]
    rfl
  have hsub : holders { s with conns := s.conns.put c' } j ⊆
      if j = id then insert w (holders s j) else holders s j := by
    intro w' hw'
    rw [mem_holders, hof] at hw'
    obtain ⟨hp, hj⟩ := hw'
    split_ifs at hj with hww
    · subst hww
      rcases Finset.mem_insert.mp hj with rfl | hj
      · rw [if_pos rfl]
        exact Finset.mem_insert_self _ _
      · have hm : w' ∈ holders s j := mem_holders.mpr ⟨hp, hofw ▸ hj⟩
        split_ifs
        · exact Finset.mem_insert_of_mem hm
        · exact hm
    · have hm : w' ∈ holders s j := mem_holders.mpr ⟨hp, hj⟩
      split_ifs
      · exact Finset.mem_insert_of_mem hm
      · exact hm
  have hcard := Finset.card_le_card hsub
  have hq : queued { s with conns := s.conns.put c' } j = queued s j := rfl
  unfold copies
  split_ifs at hcard ⊢ with hj
  · have := Finset.card_insert_le w (holders s j)
    dsimp only
    omega
  · dsimp only
    omega

end Conns

end Workforce.Copies
