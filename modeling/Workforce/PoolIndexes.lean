import Workforce.Pool

/-!
The workers map and the platform lists of the pool, along a run.

Registering a connection under the ID of another one takes the old connection out of both
indexes. Unregistering goes by worker ID in one index and by identity in the other, so the
indexes fall apart exactly when a connection is unregistered while another one is registered
under its ID.
-/

namespace Workforce.PoolIndexes

open Tables Contract Shared Calls Handlers Operations Copies Pool Runs

/-- The manager's state, with the connection registered last under each worker ID and the
connections that have been unregistered. -/
structure State where
  world : World
  latest : String → Option ConnID
  left : Finset ConnID

variable (cfg : Config)

/-- One operation. A connection is registered once, being a new one, and unregistered once. -/
def step (s : State) (op : Op) (t : State) : Prop :=
  Operations.step cfg s.world op t.world ∧
    match op with
    | .register conn id _ _ _ =>
      t.latest = Function.update s.latest id (some conn) ∧ t.left = s.left
    | .unregister conn =>
      conn ∉ s.left ∧ t.latest = s.latest ∧ t.left = insert conn s.left
    | _ => t.latest = s.latest ∧ t.left = s.left

def InBoth (s : World) (conn : ConnID) : Prop :=
  ∃ c, s.conns.get conn = some c ∧ s.workers.lookup c.workerID = some conn ∧
    conn ∈ platformList s (key c)

/-- **The indexes agree**: the values of the workers map are the connections in the platform
lists, each listed once and under its own platform, and the last connection registered under
an ID is in both indexes until it is unregistered. -/
structure Agree (s : State) : Prop where
  workers : ∀ id conn, s.world.workers.lookup id = some conn →
    ∃ c, s.world.conns.get conn = some c ∧ c.workerID = id ∧
      conn ∈ platformList s.world (key c)
  platform : ∀ k conn, conn ∈ platformList s.world k →
    ∃ c, s.world.conns.get conn = some c ∧ key c = k ∧
      s.world.workers.lookup c.workerID = some conn
  nodup : ∀ k, (platformList s.world k).Nodup
  latest : ∀ id conn, s.latest id = some conn → conn ∉ s.left →
    InBoth s.world conn ∧ s.world.workers.lookup id = some conn

/-- No other connection is registered under the ID of one that is unregistered. -/
def LeavesAlone (s : State) (op : Op) : Prop :=
  match op with
  | .unregister conn => ∀ c, s.world.conns.get conn = some c →
      ∀ conn', s.world.workers.lookup c.workerID = some conn' → conn' = conn
  | _ => True

variable {cfg} {s t : State}

lemma Agree.indexed (h : Agree s) : Indexed s.world := by
  refine ⟨fun id w hw => ?_, fun k w hw => ?_, h.nodup⟩
  · obtain ⟨c, hc, hid, -⟩ := h.workers id w hw
    exact ⟨c, hc, hid⟩
  · obtain ⟨c, hc, hk, -⟩ := h.platform k w hw
    exact ⟨c, hc, hk⟩

lemma Agree.same (h : Agree s) (hp : SamePool s.world t.world) (hl : t.latest = s.latest)
    (hleft : t.left = s.left) : Agree t := by
  refine ⟨fun id w hw => ?_, fun k w hw => ?_, fun k => ?_, fun id w hw hn => ?_⟩
  · rw [hp.workers] at hw
    obtain ⟨c, hc, rfl, hmem⟩ := h.workers id w hw
    obtain ⟨c', hc', hid, hk⟩ := hp.get hc
    exact ⟨c', hc', hid, by rw [hp.platformList, hk]; exact hmem⟩
  · rw [hp.platformList] at hw
    obtain ⟨c, hc, rfl, hlook⟩ := h.platform k w hw
    obtain ⟨c', hc', hid, hk⟩ := hp.get hc
    exact ⟨c', hc', hk, by rw [hp.workers, hid]; exact hlook⟩
  · rw [hp.platformList]
    exact h.nodup k
  · rw [hl] at hw
    rw [hleft] at hn
    obtain ⟨⟨c, hc, hlook, hmem⟩, hid⟩ := h.latest id w hw hn
    obtain ⟨c', hc', hid', hk⟩ := hp.get hc
    refine ⟨⟨c', hc', ?_, ?_⟩, by rw [hp.workers]; exact hid⟩
    · rw [hp.workers, hid']
      exact hlook
    · rw [hp.platformList, hk]
      exact hmem

/-! ### Unregistering -/

/-- If no other connection has its ID, a connection leaves both indexes. -/
lemma Agree.remove {conn : ConnID} {c : WorkerConn} (h : Agree s)
    (hc : s.world.conns.get conn = some c)
    (halone : ∀ conn', s.world.workers.lookup c.workerID = some conn' → conn' = conn) :
    Agree ⟨removeConnLocked c s.world, s.latest, insert conn s.left⟩ := by
  obtain rfl : c.conn = conn := key_of_get hc
  have hmem {k : String} {w : ConnID} := mem_platformList_removeConn (k := k) (w := w) h.indexed hc
  -- an entry of another connection is an entry under another ID
  have hkeep {id : String} {w : ConnID} (hw : s.world.workers.lookup id = some w)
      (hne : w ≠ c.conn) : (removeConnLocked c s.world).workers.lookup id = some w := by
    rw [lookup_removeConn, if_neg]
    · exact hw
    · rintro rfl
      exact hne (halone w hw)
  refine ⟨fun id w hw => ?_, fun k w hw => ?_, (indexed_removeConn h.indexed).nodup,
    fun id w hw hn => ?_⟩
  · rw [lookup_removeConn] at hw
    split_ifs at hw with hid
    obtain ⟨c', hc', rfl, hlist⟩ := h.workers id w hw
    refine ⟨c', hc', rfl, hmem.mpr ⟨?_, hlist⟩⟩
    rintro rfl
    rw [hc] at hc'
    cases hc'
    exact hid rfl
  · obtain ⟨hne, hlist⟩ := hmem.mp hw
    obtain ⟨c', hc', hk, hlook⟩ := h.platform k w hlist
    exact ⟨c', hc', hk, hkeep hlook hne⟩
  · obtain ⟨hne, hn⟩ := not_or.mp fun hor => hn (Finset.mem_insert.mpr hor)
    obtain ⟨⟨c', hc', hlook, hlist⟩, hid⟩ := h.latest id w hw hn
    exact ⟨⟨c', hc', hkeep hlook hne, hmem.mpr ⟨hne, hlist⟩⟩, hkeep hid hne⟩

/-- If another connection has its ID, that one loses its entry but stays listed. -/
lemma not_agree_remove {conn conn' : ConnID} {c : WorkerConn} (h : Agree s)
    (hc : s.world.conns.get conn = some c)
    (hother : s.world.workers.lookup c.workerID = some conn') (hne : conn' ≠ conn)
    (latest : String → Option ConnID) (left : Finset ConnID) :
    ¬Agree ⟨removeConnLocked c s.world, latest, left⟩ := by
  intro h'
  obtain rfl : c.conn = conn := key_of_get hc
  obtain ⟨c', hc', hid, hlist⟩ := h.workers _ _ hother
  have hstill := (mem_platformList_removeConn h.indexed hc).mpr ⟨hne, hlist⟩
  obtain ⟨c'', hc'', -, hlook⟩ := h'.platform _ _ hstill
  have heq : c'' = c' := Option.some.inj (hc''.symm.trans hc')
  rw [heq, hid, lookup_removeConn, if_pos rfl] at hlook
  cases hlook

/-! ### Registering -/

lemma Agree.add {c : WorkerConn} (h : Agree s) (hnew : s.world.conns.get c.conn = none)
    (hfree : s.world.workers.lookup c.workerID = none) :
    Agree ⟨addConn c s.world, Function.update s.latest c.workerID (some c.conn), s.left⟩ := by
  have hself : (addConn c s.world).conns.get c.conn = some c := by rw [get_addConn, if_pos rfl]
  have hlook : (addConn c s.world).workers.lookup c.workerID = some c.conn := by
    rw [lookup_addConn, if_pos rfl]
  have hlist : c.conn ∈ platformList (addConn c s.world) (key c) :=
    mem_platformList_addConn.mpr (.inr ⟨rfl, rfl⟩)
  have hkeep {id : String} {w : ConnID} (hw : s.world.workers.lookup id = some w) :
      (addConn c s.world).workers.lookup id = some w := by
    rw [lookup_addConn, if_neg]
    · exact hw
    · rintro rfl
      rw [hfree] at hw
      cases hw
  refine ⟨fun id w hw => ?_, fun k w hw => ?_, (indexed_addConn h.indexed hnew).nodup,
    fun id w hw hn => ?_⟩
  · rw [lookup_addConn] at hw
    split_ifs at hw with hid
    · cases hw
      exact ⟨c, hself, hid.symm, hlist⟩
    · obtain ⟨c', hc', rfl, hmem⟩ := h.workers id w hw
      exact ⟨c', get_addConn_of_some hnew hc', rfl, mem_platformList_addConn.mpr (.inl hmem)⟩
  · rcases mem_platformList_addConn.mp hw with hw | ⟨rfl, rfl⟩
    · obtain ⟨c', hc', hk, hw'⟩ := h.platform k w hw
      exact ⟨c', get_addConn_of_some hnew hc', hk, hkeep hw'⟩
    · exact ⟨c, hself, rfl, hlook⟩
  · dsimp only at hw
    by_cases hid : id = c.workerID
    · subst hid
      rw [Function.update_self] at hw
      cases hw
      exact ⟨⟨c, hself, hlook, hlist⟩, hlook⟩
    · rw [Function.update_of_ne hid] at hw
      obtain ⟨⟨c', hc', hw', hmem⟩, hid'⟩ := h.latest id w hw hn
      exact ⟨⟨c', get_addConn_of_some hnew hc', hkeep hw',
        mem_platformList_addConn.mpr (.inl hmem)⟩, hkeep hid'⟩

/-- The connection that has the ID leaves first. -/
lemma Agree.register {c : WorkerConn} {u : World} (h : Agree s)
    (hnew : s.world.conns.get c.conn = none) (hr : Registers c s.world u) :
    Agree ⟨u, Function.update s.latest c.workerID (some c.conn), s.left⟩ := by
  unfold Registers at hr
  rcases hold : connectedAs s.world c.workerID with _ | old
  · rw [hold] at hr
    subst hr
    refine h.add hnew ?_
    -- an entry would be that of a connection
    rcases hw : s.world.workers.lookup c.workerID with _ | w
    · rfl
    · obtain ⟨c', hc', -⟩ := h.workers _ _ hw
      rw [connectedAs, hw, Option.bind_some, hc'] at hold
      cases hold
  · rw [hold] at hr
    obtain ⟨ids, -, rfl⟩ := hr
    obtain ⟨w, hw, hget⟩ := Option.bind_eq_some_iff.mp hold
    obtain rfl : old.conn = w := key_of_get hget
    obtain ⟨c', hc', hid, -⟩ := h.workers _ _ hw
    have heq : old = c' := Option.some.inj (hget.symm.trans hc')
    subst heq
    have hrem := h.remove hget fun conn' hc' => by
      rw [hid, hw] at hc'
      exact (Option.some.inj hc').symm
    -- the replaced connection is no longer the last one, so it need not be in the indexes
    have hrem' : Agree ⟨replaceOld old ids s.world,
        Function.update s.latest c.workerID none, s.left⟩ := by
      have hsame : SamePool (removeConnLocked old s.world) (replaceOld old ids s.world) := by
        unfold replaceOld
        split_ifs
        · exact .of_eq rfl rfl rfl
        · exact .refl _
      have h' := hrem.same (t := ⟨replaceOld old ids s.world, s.latest, insert old.conn s.left⟩)
        hsame rfl rfl
      refine ⟨h'.workers, h'.platform, h'.nodup, fun id w hl hn => ?_⟩
      dsimp only at hl
      have hne : id ≠ c.workerID := by
        rintro rfl
        rw [Function.update_self] at hl
        cases hl
      rw [Function.update_of_ne hne] at hl
      refine h'.latest id w hl fun hmem => ?_
      rcases Finset.mem_insert.mp hmem with rfl | hmem
      · have hid' := (h.latest id _ hl hn).2
        obtain ⟨c₁, hc₁, hidc, -⟩ := h.workers _ _ hid'
        rw [hget] at hc₁
        cases hc₁
        exact hne (hidc.symm.trans hid)
      · exact hn hmem
    have hfree : (replaceOld old ids s.world).workers.lookup c.workerID = none := by
      have : (removeConnLocked old s.world).workers.lookup c.workerID = none := by
        rw [lookup_removeConn, if_pos hid.symm]
      unfold replaceOld
      split_ifs <;> exact this
    have hnew' : (replaceOld old ids s.world).conns.get c.conn = none := by
      unfold replaceOld
      split_ifs <;> exact hnew
    have hadd := hrem'.add hnew' hfree
    rwa [Function.update_idem] at hadd

/-! ### Runs -/

/-- **One operation** leaves the indexes in agreement exactly if it meets the condition. -/
theorem leavesAlone_iff_agree {op : Op} (h : Agree s) (hs : step cfg s op t) :
    LeavesAlone s op ↔ Agree t := by
  obtain ⟨hstep, hghost⟩ := hs
  have hother (hl : LeavesAlone s op) (hreg : ∀ conn id os arch capacity,
      op ≠ .register conn id os arch capacity) (hun : ∀ conn, op ≠ .unregister conn)
      (hlatest : t.latest = s.latest) (hleft : t.left = s.left) : LeavesAlone s op ↔ Agree t :=
    iff_of_true hl (h.same (samePool_step hstep hreg hun) hlatest hleft)
  cases op with
  | register conn id os arch capacity =>
    obtain ⟨hnew, -, -, -, hr⟩ := hstep
    obtain ⟨world, latest, left⟩ := t
    obtain ⟨rfl, rfl⟩ := hghost
    exact iff_of_true trivial (h.register hnew hr)
  | unregister conn =>
    obtain ⟨c, ids, hc, -, hreq⟩ := hstep
    obtain ⟨-, hlatest, hleft⟩ := hghost
    have hsame := samePool_performs hreq
    constructor
    · intro hl
      exact (h.remove hc (hl c hc)).same hsame hlatest hleft
    · intro hagree c' hc' conn' hlook
      obtain rfl : c' = c := Option.some.inj (hc'.symm.trans hc)
      by_contra hne
      refine not_agree_remove h hc hlook hne t.latest t.left ?_
      exact hagree.same hsame.symm rfl rfl
  | submit | processQueue | requeue | heartbeat | capacity | accept | staged | starting | reject
  | result | retry | cancel | saveTask | deleteTask | forget =>
    exact hother trivial (fun _ _ _ _ _ h => (nomatch h)) (fun _ h => (nomatch h)) hghost.1
      hghost.2

/-- A pool nobody has joined yet. -/
structure State.Empty (s : State) : Prop where
  workers : s.world.workers = ∅
  platform : s.world.platform = ∅
  latest : ∀ id, s.latest id = none

lemma State.Empty.agree (h : s.Empty) : Agree s := by
  have hlist (k : String) : platformList s.world k = [] := by
    unfold platformList
    rw [h.platform]
    rfl
  refine ⟨fun id conn hw => ?_, fun k conn hw => ?_, fun k => ?_, fun id conn hw => ?_⟩
  · rw [h.workers] at hw
    cases hw
  · rw [hlist] at hw
    cases hw
  · rw [hlist]
    exact List.nodup_nil
  · rw [h.latest] at hw
    cases hw

/-- **The indexes agree exactly as long as connections leave alone.** Along every run of the
manager from an empty pool, the workers map and the platform lists agree in every state if and
only if no connection is unregistered while another one is registered under its worker ID. -/
theorem meets_leavesAlone_iff (hs : s.Empty) {tr : List (State × Op)}
    (hr : Run (step cfg) s tr t) : Meets LeavesAlone tr ↔ ∀ u ∈ states tr t, Agree u := by
  have hagree := hs.agree
  clear hs
  induction hr with
  | nil s => simpa using hagree
  | @cons s u t op tr hstep hr ih =>
    rw [meets_cons, states_cons, List.forall_mem_cons, leavesAlone_iff_agree hagree hstep]
    constructor
    · rintro ⟨hu, hrest⟩
      exact ⟨hagree, (ih hu).mp hrest⟩
    · rintro ⟨-, hall⟩
      obtain ⟨r, hr'⟩ := hr.head_mem
      have hu : Agree u := hall u (by rw [hr']; exact List.mem_cons_self)
      exact ⟨hu, (ih hu).mpr hall⟩

/-! ### A worker that reconnects -/

def nobody : State := ⟨.initial, fun _ => none, ∅⟩

lemma nobody_empty : nobody.Empty := ⟨rfl, rfl, fun _ => rfl⟩

/-- The first connection of worker `w`, and the one it makes when it has lost the first. -/
def firstConn : WorkerConn := NewWorkerConn 0 "w" "linux" "amd64" 4
def secondConn : WorkerConn := NewWorkerConn 1 "w" "linux" "amd64" 4

def connected : State :=
  ⟨addConn firstConn .initial, Function.update (fun _ => none) "w" (some 0), ∅⟩

def reconnected : State :=
  ⟨addConn secondConn (removeConnLocked firstConn connected.world),
    Function.update connected.latest "w" (some 1), ∅⟩

/-- One of the two connections has ended. -/
def gone (w : WorkerConn) : State :=
  ⟨removeConnLocked w reconnected.world, reconnected.latest, {w.conn}⟩

lemma connects : step .defaults nobody (.register 0 "w" "linux" "amd64" 4) connected :=
  ⟨⟨rfl, by decide, by decide, by decide, rfl⟩, rfl, rfl⟩

lemma reconnects : step .defaults connected (.register 1 "w" "linux" "amd64" 4) reconnected :=
  ⟨⟨rfl, by decide, by decide, by decide, [], by decide, rfl⟩, rfl, rfl⟩

/-- The second connection ends first. -/
theorem meets_leavesAlone_reconnected :
    ∃ tr, Run (step .defaults) nobody tr (gone secondConn) ∧ tr.length = 3 ∧
      Meets LeavesAlone tr ∧ ∀ u ∈ states tr (gone secondConn), Agree u := by
  have hends : step .defaults reconnected (.unregister 1) (gone secondConn) :=
    ⟨⟨secondConn, [], rfl, by decide, (), rfl, rfl⟩, by decide, rfl, rfl⟩
  have hr := Run.cons connects (.cons reconnects (.cons hends (.nil _)))
  have hG : Meets LeavesAlone [(nobody, .register 0 "w" "linux" "amd64" 4),
      (connected, .register 1 "w" "linux" "amd64" 4), (reconnected, .unregister 1)] := by
    simp only [meets_cons, meets_nil, and_true]
    refine ⟨trivial, trivial, fun c hc conn hconn => ?_⟩
    obtain rfl := Option.some.inj (show some secondConn = some c from hc)
    exact (Option.some.inj (show some 1 = some conn from hconn)).symm
  exact ⟨_, hr, rfl, hG, (meets_leavesAlone_iff nobody_empty hr).mp hG⟩

/-- **The end of the old connection hides the new one.** -/
theorem reconnected_worker_lost :
    (∃ tr, Run (step .defaults) nobody tr (gone firstConn)) ∧ ¬Agree (gone firstConn) ∧
      (gone firstConn).world.workers.lookup "w" = none ∧
      platformList (gone firstConn).world "linux/amd64" = [1] ∧
      (gone firstConn).latest "w" = some 1 ∧ 1 ∉ (gone firstConn).left := by
  have hends : step .defaults reconnected (.unregister 0) (gone firstConn) :=
    ⟨⟨firstConn, [], rfl, by decide, (), rfl, rfl⟩, by decide, rfl, rfl⟩
  refine ⟨⟨_, .cons connects (.cons reconnects (.cons hends (.nil _)))⟩, ?_,
    by decide, by decide, by decide, by decide⟩
  intro h
  obtain ⟨c, hc, -, hlook⟩ := h.platform "linux/amd64" 1 (by decide)
  have heq : c = secondConn := Option.some.inj (hc.symm.trans (by decide))
  rw [heq] at hlook
  exact absurd hlook (by decide)

end Workforce.PoolIndexes
