import Workforce.Copies

/-!
The two indexes of the worker pool: what each change of the pool does to them, and that
nothing else touches them.
-/

namespace Workforce.Pool

open Tables Progs Shared Calls Operations Copies

variable {cfg : Stores} {s t : World} {c : WorkerConn}

/-! ### Removing a connection -/

lemma platformList_removeConn (c : WorkerConn) (s : World) (k : String) :
    platformList (removeConnLocked c s) k =
      if k = key c then (platformList s k).erase c.conn else platformList s k := by
  unfold removeConnLocked
  split_ifs with hmem hk hk
  · subst hk
    simp [platformList]
  · simp [platformList, AList.lookup_insert_ne hk]
  · subst hk
    exact (List.erase_of_not_mem hmem).symm
  · rfl

lemma lookup_removeConn (c : WorkerConn) (s : World) (id : String) :
    (removeConnLocked c s).workers.lookup id =
      if id = c.workerID then none else s.workers.lookup id := by
  split_ifs with h
  · subst h
    exact AList.lookup_erase _ _
  · exact AList.lookup_erase_ne h

lemma mem_platformList_removeConn (hi : Indexed s) (hc : s.conns.get c.conn = some c) {k : String}
    {w : ConnID} : w ∈ platformList (removeConnLocked c s) k ↔
      w ≠ c.conn ∧ w ∈ platformList s k := by
  rw [platformList_removeConn]
  split_ifs with hk
  · exact (hi.nodup k).mem_erase_iff
  · refine ⟨fun hw => ⟨?_, hw⟩, fun hw => hw.2⟩
    rintro rfl
    obtain ⟨c', hc', rfl⟩ := hi.platform k _ hw
    rw [hc] at hc'
    cases hc'
    exact hk rfl

lemma indexed_removeConn (hi : Indexed s) : Indexed (removeConnLocked c s) := by
  refine ⟨fun id w hw => ?_, fun k w hw => ?_, fun k => ?_⟩
  · rw [lookup_removeConn] at hw
    split_ifs at hw
    exact hi.workers id w hw
  · rw [platformList_removeConn] at hw
    split_ifs at hw
    · exact hi.platform k w (List.mem_of_mem_erase hw)
    · exact hi.platform k w hw
  · rw [platformList_removeConn]
    split_ifs
    · exact (hi.nodup k).erase _
    · exact hi.nodup k

/-! ### Adding one -/

lemma platformList_addConn (c : WorkerConn) (s : World) (k : String) :
    platformList (addConn c s) k =
      if k = key c then platformList s k ++ [c.conn] else platformList s k := by
  unfold addConn platformList
  split_ifs with hk
  · subst hk
    simp
  · rw [AList.lookup_insert_ne hk]

lemma lookup_addConn (c : WorkerConn) (s : World) (id : String) :
    (addConn c s).workers.lookup id =
      if id = c.workerID then some c.conn else s.workers.lookup id := by
  unfold addConn
  split_ifs with hid
  · subst hid
    simp
  · rw [AList.lookup_insert_ne hid]

lemma get_addConn (c : WorkerConn) (s : World) (w : ConnID) :
    (addConn c s).conns.get w = if w = c.conn then some c else s.conns.get w :=
  get_put _ _ _

lemma get_addConn_of_some (hnew : s.conns.get c.conn = none) {w : ConnID} {c' : WorkerConn}
    (hw : s.conns.get w = some c') : (addConn c s).conns.get w = some c' := by
  rw [get_addConn, if_neg]
  · exact hw
  · rintro rfl
    rw [hnew] at hw
    cases hw

lemma mem_platformList_addConn {k : String} {w : ConnID} :
    w ∈ platformList (addConn c s) k ↔ w ∈ platformList s k ∨ k = key c ∧ w = c.conn := by
  rw [platformList_addConn]
  split_ifs with hk
  · simp [hk]
  · simp [hk]

lemma notMem_platformList (hi : Indexed s) {w : ConnID} (hnew : s.conns.get w = none)
    (k : String) : w ∉ platformList s k := by
  intro hw
  obtain ⟨c', hc', -⟩ := hi.platform k w hw
  rw [hnew] at hc'
  cases hc'

lemma indexed_addConn (hi : Indexed s) (hnew : s.conns.get c.conn = none) :
    Indexed (addConn c s) := by
  have hself : (addConn c s).conns.get c.conn = some c := by rw [get_addConn, if_pos rfl]
  refine ⟨fun id w hw => ?_, fun k w hw => ?_, fun k => ?_⟩
  · rw [lookup_addConn] at hw
    split_ifs at hw with hid
    · cases hw
      exact ⟨c, hself, hid.symm⟩
    · obtain ⟨c', hc', rfl⟩ := hi.workers id w hw
      exact ⟨c', get_addConn_of_some hnew hc', rfl⟩
  · rcases mem_platformList_addConn.mp hw with hw | ⟨rfl, rfl⟩
    · obtain ⟨c', hc', rfl⟩ := hi.platform k w hw
      exact ⟨c', get_addConn_of_some hnew hc', rfl⟩
    · exact ⟨c, hself, rfl⟩
  · rw [platformList_addConn]
    split_ifs
    · refine List.Nodup.append (hi.nodup k) (List.nodup_singleton _) ?_
      rw [List.disjoint_singleton]
      exact notMem_platformList hi hnew k
    · exact hi.nodup k

/-! ### Everything else -/

/-- What the indexes say of a connection. -/
def label (c : WorkerConn) : String × String := (c.workerID, key c)

/-- The indexes are untouched, and the connections are under the labels they had. -/
structure SamePool (s t : World) : Prop where
  workers : t.workers = s.workers
  platform : t.platform = s.platform
  labels : ∀ w, (t.conns.get w).map label = (s.conns.get w).map label

lemma SamePool.refl (s : World) : SamePool s s := ⟨rfl, rfl, fun _ => rfl⟩

lemma SamePool.trans {u : World} (h : SamePool s t) (h' : SamePool t u) : SamePool s u :=
  ⟨h'.workers.trans h.workers, h'.platform.trans h.platform,
    fun w => (h'.labels w).trans (h.labels w)⟩

lemma SamePool.symm (h : SamePool s t) : SamePool t s :=
  ⟨h.workers.symm, h.platform.symm, fun w => (h.labels w).symm⟩

lemma SamePool.platformList (h : SamePool s t) (k : String) :
    platformList t k = platformList s k := by
  unfold Operations.platformList
  rw [h.platform]

lemma SamePool.get (h : SamePool s t) {w : ConnID} (hc : s.conns.get w = some c) :
    ∃ c', t.conns.get w = some c' ∧ c'.workerID = c.workerID ∧ key c' = key c := by
  have hl := h.labels w
  rw [hc, Option.map_some] at hl
  obtain ⟨c', hc', he⟩ := Option.map_eq_some_iff.mp hl
  obtain ⟨hid, hk⟩ := Prod.mk.inj he
  exact ⟨c', hc', hid, hk⟩

lemma SamePool.of_eq (hw : t.workers = s.workers) (hp : t.platform = s.platform)
    (hc : t.conns = s.conns) : SamePool s t := ⟨hw, hp, fun w => by rw [hc]⟩

lemma SamePool.modify {w : ConnID} {f : WorkerConn → WorkerConn}
    (hconn : ∀ c, (f c).conn = c.conn) (hf : ∀ c, label (f c) = label c) :
    SamePool s { s with conns := s.conns.modify w f } := by
  refine ⟨rfl, rfl, fun w' => ?_⟩
  rw [get_modify _ _ _ hconn]
  split_ifs with h
  · subst h
    cases s.conns.get w' with
    | none => rfl
    | some c => simp [hf]
  · rfl

lemma AssignTask_conn {c' : WorkerConn} {id : String} {cost : ℤ}
    (h : c.AssignTask id cost = .ok c') : c'.conn = c.conn ∧ label c' = label c := by
  unfold WorkerConn.AssignTask at h
  dsimp only at h
  split_ifs at h
  cases h
  exact ⟨rfl, rfl⟩

/-- No call of any activity touches the indexes. -/
lemma samePool_exec {β : Type} {c : Call β} {b : β} (he : exec cfg c s b t) : SamePool s t := by
  cases c with
  | subtractCapacity w id cost =>
    rcases exec_subtractCapacity he with ⟨-, rfl⟩ | ⟨c, c', -, hc, ha, rfl⟩
    · exact .refl _
    · obtain ⟨hconn, hl⟩ := AssignTask_conn ha
      have hcw : c.conn = w := key_of_get hc
      refine ⟨rfl, rfl, fun w' => ?_⟩
      rw [get_put]
      split_ifs with h
      · have hw' : w' = w := by rw [h, hconn, hcw]
        rw [hw', hc, Option.map_some, Option.map_some, hl]
      · rfl
  | restoreCapacity w id cost =>
    rcases he with ⟨-, -, rfl⟩ | ⟨-, rfl⟩
    · exact .refl _
    · exact .modify (fun _ => rfl) fun _ => rfl
  | putRejected w id =>
    obtain rfl := he
    exact .modify (fun _ => rfl) fun _ => rfl
  | _ => exact .of_eq (untouched he).workers (untouched he).platform ((untouched he).conns nofun)

/-- Nor does any program. -/
lemma samePool_ends {α : Type} {p : M α} {a : α} (he : Prog.Ends (exec cfg) p s a t) :
    SamePool s t := by
  induction p generalizing s with
  | pure b =>
    obtain ⟨-, rfl⟩ := he
    exact .refl _
  | call c k ih =>
    obtain ⟨b, u, hu, he⟩ := he
    exact (samePool_exec hu).trans (ih b he)

lemma samePool_performs {α : Type} {p : M α} (h : Performs (exec cfg) p s t) : SamePool s t := by
  obtain ⟨a, ha⟩ := h
  exact samePool_ends ha

/-- Apart from registering and unregistering, no operation does. -/
lemma samePool_step {cfg : Handlers.Config} {op : Op} (h : Operations.step cfg s op t)
    (hreg : ∀ conn id os arch capacity, op ≠ .register conn id os arch capacity)
    (hun : ∀ conn, op ≠ .unregister conn) : SamePool s t := by
  cases op with
  | register conn id os arch capacity => exact absurd rfl (hreg _ _ _ _ _)
  | unregister conn => exact absurd rfl (hun conn)
  | submit | processQueue | accept | staged | starting | reject | result | cancel =>
    exact samePool_performs h
  | requeue ids =>
    have hdrop : SamePool s { s with requeues := s.requeues.erase ids } := .of_eq rfl rfl rfl
    exact hdrop.trans (samePool_performs h.2)
  | retry id =>
    have hdrop : SamePool s { s with timers := s.timers.erase id } := .of_eq rfl rfl rfl
    exact hdrop.trans (samePool_performs h.2)
  | heartbeat | capacity | forget =>
    obtain rfl := h
    exact .modify (fun _ => rfl) fun _ => rfl
  | saveTask | deleteTask =>
    obtain rfl := h
    exact .of_eq rfl rfl rfl

end Workforce.Pool
