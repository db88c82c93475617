import Mathlib.Algebra.Order.BigOperators.Group.Finset
import Workforce.Copies

/-!
The books of a worker connection.

A connection counts what the jobs it has in flight cost. The count is changed by two calls
only, one that books a job and one that takes it off, and each is right only when the
in-flight set changes with it. `Balanced` says that the count is the sum of the costs; this
module shows that every operation keeps it so, as long as no call books a job twice or takes
off one that is not there.
-/

namespace Workforce.Ledger

open Tables Contract Shared Calls Handlers Operations Copies

def costOf (s : World) (id : String) : ℤ := ((s.jobs.get id).map Job.Cost).getD 0

/-- The job's record is stored, with the cost the copy has. -/
def Priced (s : World) (job : Job) : Prop := ∃ j, s.jobs.get job.ID = some j ∧ j.Cost = job.Cost

/-- What a connection has occupied is the sum of the costs of its in-flight jobs. The rest is
what keeps it so: in-flight jobs are stored and cost something or nothing, queued copies have
the cost of their records, and records are stored under issued names. -/
structure Balanced (s : World) : Prop where
  occupied : ∀ w c, s.conns.get w = some c → c.occupiedCost = ∑ id ∈ c.inFlight, costOf s id
  stored : ∀ w c, s.conns.get w = some c → ∀ id ∈ c.inFlight,
    ∃ j, s.jobs.get id = some j ∧ 0 ≤ j.Cost
  queue : ∀ job ∈ s.queue, Priced s job
  issued : ∀ id, s.jobs.get id ≠ none → id ∈ s.issued

/-- The call does not book a job on a connection that has it in flight, and does not take one
off that is not in flight. A job without a cost, or a connection with nothing occupied to take
from, does no harm. -/
def Booked : {β : Type} → Call β → World → Prop
  | _, .subtractCapacity w id cost, s =>
    ∀ c, s.conns.get w = some c → id ∈ c.inFlight → cost = 0
  | _, .restoreCapacity w id cost, s =>
    ∀ c, s.conns.get w = some c → id ∉ c.inFlight → cost = 0 ∨ 0 < cost ∧ c.occupiedCost = 0
  | _, _, _ => True

/-! ### What the calls do to the books -/

section Rules

variable {cfg : Stores} {s t : World} {job : Job} {id : String} {w : ConnID}

/-- No record is lost and none changes its cost. -/
def Grows (s t : World) : Prop :=
  ∀ id j, s.jobs.get id = some j → ∃ j', t.jobs.get id = some j' ∧ j'.Cost = j.Cost

lemma Grows.refl (s : World) : Grows s s := fun _ j hj => ⟨j, hj, rfl⟩

lemma Grows.of_eq (h : t.jobs = s.jobs) : Grows s t := by
  intro id j hj
  exact ⟨j, by rw [h, hj], rfl⟩

lemma Priced.grows (h : Priced s job) (hg : Grows s t) : Priced t job := by
  obtain ⟨j, hj, hc⟩ := h
  obtain ⟨j', hj', hc'⟩ := hg _ j hj
  exact ⟨j', hj', hc'.trans hc⟩

lemma Priced.costOf (h : Priced s job) : costOf s job.ID = job.Cost := by
  obtain ⟨j, hj, hc⟩ := h
  simp [Ledger.costOf, hj, hc]

lemma priced_of_get {j : Job} (h : s.jobs.get id = some j) : Priced s j := by
  have hid : j.ID = id := key_of_get h
  exact ⟨j, by rw [hid, h], rfl⟩

lemma Priced.of_fields {job' : Job} (h : Priced s job) (hid : job'.ID = job.ID)
    (hcost : job'.Cost = job.Cost) : Priced s job' := by
  obtain ⟨j, hj, hc⟩ := h
  exact ⟨j, by rw [hid, hj], by rw [hcost, hc]⟩

lemma Grows.costOf {j : Job} (hg : Grows s t) (hj : s.jobs.get id = some j) :
    costOf t id = costOf s id := by
  obtain ⟨j', hj', hc⟩ := hg id j hj
  simp [Ledger.costOf, hj, hj', hc]

/-- What a connection has booked. -/
def account (c : WorkerConn) : Finset String × ℤ := (c.inFlight, c.occupiedCost)

/-- The same accounts, the same records up to what does not bear on the cost, and no new copy
in the queue. -/
structure SameBooks (s t : World) : Prop where
  cost : ∀ id, (t.jobs.get id).map Job.Cost = (s.jobs.get id).map Job.Cost
  account : ∀ w, (t.conns.get w).map account = (s.conns.get w).map account
  queue : ∀ job ∈ t.queue, ∃ job' ∈ s.queue, job'.ID = job.ID ∧ job'.Cost = job.Cost
  issued : s.issued ⊆ t.issued

lemma SameBooks.refl (s : World) : SameBooks s s :=
  ⟨fun _ => rfl, fun _ => rfl, fun job hjob => ⟨job, hjob, rfl, rfl⟩, subset_rfl⟩

lemma SameBooks.grows (h : SameBooks s t) : Grows s t := by
  intro id j hj
  have hc := h.cost id
  rw [hj, Option.map_some, Option.map_eq_some_iff] at hc
  exact hc

variable {c : WorkerConn}

lemma SameBooks.get (h : SameBooks s t) (hc : t.conns.get w = some c) :
    ∃ c', s.conns.get w = some c' ∧ c'.inFlight = c.inFlight ∧
      c'.occupiedCost = c.occupiedCost := by
  have ha := h.account w
  rw [hc, Option.map_some, eq_comm, Option.map_eq_some_iff] at ha
  obtain ⟨c', hc', he⟩ := ha
  exact ⟨c', hc', congrArg Prod.fst he, congrArg Prod.snd he⟩

lemma SameBooks.inFlightOf (h : SameBooks s t) (w : ConnID) :
    inFlightOf t w = inFlightOf s w := by
  have ha := congrArg (Option.map Prod.fst) (h.account w)
  simp only [Option.map_map] at ha
  exact congrArg (Option.getD · ∅) ha

lemma Balanced.same (h : Balanced s) (hs : SameBooks s t) : Balanced t := by
  have hcost : ∀ id, costOf t id = costOf s id := fun id => by
    unfold costOf
    rw [hs.cost]
  refine ⟨fun w c hc => ?_, fun w c hc id hid => ?_, fun job hjob => ?_, fun id hid => ?_⟩
  · obtain ⟨c', hc', hin, hocc⟩ := hs.get hc
    rw [← hocc, ← hin, h.occupied w c' hc']
    exact Finset.sum_congr rfl fun id _ => (hcost id).symm
  · obtain ⟨c', hc', hin, -⟩ := hs.get hc
    obtain ⟨j, hj, h0⟩ := h.stored w c' hc' id (hin ▸ hid)
    obtain ⟨j', hj', he⟩ := hs.grows id j hj
    exact ⟨j', hj', by rwa [he]⟩
  · obtain ⟨job', hjob', hid, hc⟩ := hs.queue job hjob
    exact ((h.queue job' hjob').grows hs.grows).of_fields hid.symm hc.symm
  · refine hs.issued (h.issued id fun hn => hid ?_)
    have hc := hs.cost id
    rwa [hn, Option.map_none, Option.map_eq_none_iff] at hc

/-- A call that stores no job, queues none and books or takes off none. -/
def Still : {β : Type} → Call β → Prop
  | _, .saveJob _ => False
  | _, .pushItem _ => False
  | _, .subtractCapacity _ _ _ => False
  | _, .restoreCapacity _ _ _ => False
  | _, _ => True

lemma apply_Cost (m : JobMutation) (now : Time) (j : Job) : (m.apply now j).Cost = j.Cost := by
  cases m <;> simp only [JobMutation.apply]
  split <;> rfl

variable {now : Time}

lemma Grows.update {m : JobMutation} (hjobs : t.jobs = s.jobs.modify id (m.apply now)) :
    Grows s t := by
  intro k j hj
  rw [hjobs, get_modify _ _ _ (m.apply_ID now)]
  split_ifs with hk
  · subst hk
    exact ⟨m.apply now j, by rw [hj]; rfl, apply_Cost m now j⟩
  · exact ⟨j, hj, rfl⟩

lemma SameBooks.update {m : JobMutation} (hjobs : t.jobs = s.jobs.modify id (m.apply now))
    (hc : t.conns = s.conns) (hq : t.queue = s.queue) (hi : s.issued ⊆ t.issued) :
    SameBooks s t := by
  refine ⟨fun k => ?_, fun w => by rw [hc], fun job hjob => ⟨job, hq ▸ hjob, rfl, rfl⟩, hi⟩
  rw [hjobs, get_modify _ _ _ (m.apply_ID now)]
  split_ifs with hk
  · subst hk
    rw [Option.map_map]
    exact congrArg (Option.map · _) (funext fun j => apply_Cost m now j)
  · rfl

lemma SameBooks.modify {f : WorkerConn → WorkerConn} (hconn : ∀ c, (f c).conn = c.conn)
    (hf : ∀ c, Ledger.account (f c) = Ledger.account c) (w : ConnID) :
    SameBooks s { s with conns := s.conns.modify w f } := by
  refine ⟨fun _ => rfl, fun w' => ?_, fun job hjob => ⟨job, hjob, rfl, rfl⟩,
    Finset.Subset.refl s.issued⟩
  rw [get_modify _ _ _ hconn]
  split_ifs with hw
  · subst hw
    rw [Option.map_map]
    exact congrArg (Option.map · _) (funext hf)
  · rfl

lemma mem_aged {timeout : Duration} {q : List Job} (h : job ∈ aged timeout now q) :
    ∃ job' ∈ q, job'.ID = job.ID ∧ job'.Cost = job.Cost := by
  unfold aged at h
  split_ifs at h
  · exact ⟨job, h, rfl, rfl⟩
  · obtain ⟨job', hjob', rfl⟩ := List.mem_map.mp h
    refine ⟨job', hjob', ?_⟩
    unfold boost
    split_ifs <;> exact ⟨rfl, rfl⟩

lemma sameBooks_exec {β : Type} {c : Call β} {b : β} (hc : Still c) (h : exec cfg c s b t) :
    SameBooks s t := by
  have hq {t : World} (hjobs : t.jobs = s.jobs) (hconns : t.conns = s.conns)
      (hi : s.issued ⊆ t.issued)
      (hqueue : ∀ job ∈ t.queue, ∃ job' ∈ s.queue, job'.ID = job.ID ∧ job'.Cost = job.Cost) :
      SameBooks s t :=
    ⟨fun id => by rw [hjobs], fun w => by rw [hconns], hqueue, hi⟩
  cases c with
  | saveJob | pushItem | subtractCapacity | restoreCapacity => exact hc.elim
  | updateJob id m =>
    obtain ⟨now, -, rfl⟩ := h
    exact .update rfl rfl rfl subset_rfl
  | updateJobFiring id reason =>
    rcases exec_updateJobFiring h with ⟨-, -, rfl⟩ | ⟨now, issued, hooks, -, -, hi, rfl⟩
    · exact .refl _
    · exact .update (m := .failedFor reason) rfl rfl rfl hi
  | popItem =>
    rcases exec_popItem h with ⟨-, -, rfl⟩ | ⟨j, -, -, -, rfl⟩
    · exact .refl _
    · exact hq rfl rfl subset_rfl fun job hjob => ⟨job, List.mem_of_mem_erase hjob, rfl, rfl⟩
  | applyStarvationAging =>
    obtain ⟨now, rfl⟩ := h
    exact hq rfl rfl subset_rfl fun job hjob => mem_aged hjob
  | putRejected w id =>
    subst h
    refine SameBooks.modify ?_ ?_ w <;> exact fun _ => rfl
  | _ =>
    have hu := untouched h
    refine hq (hu.jobs nofun) (hu.conns nofun) hu.issued fun job hjob => ⟨job, ?_, rfl, rfl⟩
    rwa [hu.queue nofun] at hjob

lemma Balanced.push (h : Balanced s) (hp : Priced s job) :
    Balanced { s with queue := s.queue ++ [job] } := by
  refine ⟨h.occupied, h.stored, fun j hj => ?_, h.issued⟩
  rcases List.mem_append.mp hj with hj | hj
  · exact h.queue j hj
  · obtain rfl := List.mem_singleton.mp hj
    exact hp

lemma grows_put (hnew : s.jobs.get job.ID = none) (hjobs : t.jobs = s.jobs.put job) :
    Grows s t := by
  intro id j hj
  refine ⟨j, ?_, rfl⟩
  rw [hjobs, get_put, if_neg, hj]
  rintro rfl
  rw [hnew] at hj
  cases hj

lemma Balanced.save (h : Balanced s) (hnew : s.jobs.get job.ID = none)
    (hissued : job.ID ∈ s.issued) : Balanced { s with jobs := s.jobs.put job } := by
  have hg : Grows s { s with jobs := s.jobs.put job } := grows_put hnew rfl
  refine ⟨fun w c hc => ?_, fun w c hc id hid => ?_, fun j hj => (h.queue j hj).grows hg,
    fun id hid => ?_⟩
  · rw [h.occupied w c hc]
    refine Finset.sum_congr rfl fun id hid => ?_
    obtain ⟨j, hj, -⟩ := h.stored w c hc id hid
    exact (hg.costOf hj).symm
  · obtain ⟨j, hj, h0⟩ := h.stored w c hc id hid
    obtain ⟨j', hj', he⟩ := hg id j hj
    exact ⟨j', hj', by rwa [he]⟩
  · by_cases hk : id = job.ID
    · exact hk ▸ hissued
    · rw [get_put, if_neg hk] at hid
      exact h.issued id hid

lemma Balanced.conn (h : Balanced s) (hocc : c.occupiedCost = ∑ id ∈ c.inFlight, costOf s id)
    (hstored : ∀ id ∈ c.inFlight, ∃ j, s.jobs.get id = some j ∧ 0 ≤ j.Cost)
    (hget : ∀ w', t.conns.get w' = if w' = w then some c else s.conns.get w')
    (hjobs : t.jobs = s.jobs) (hq : t.queue = s.queue) (hi : t.issued = s.issued) : Balanced t := by
  have hcost : costOf t = costOf s := by
    unfold costOf
    rw [hjobs]
  refine ⟨fun w' c' hc' => ?_, fun w' c' hc' => ?_, ?_, ?_⟩
  · rw [hcost]
    rw [hget] at hc'
    split_ifs at hc'
    · cases hc'
      exact hocc
    · exact h.occupied w' c' hc'
  · rw [hjobs]
    rw [hget] at hc'
    split_ifs at hc'
    · cases hc'
      exact hstored
    · exact h.stored w' c' hc'
  · unfold Priced
    rw [hjobs, hq]
    exact h.queue
  · rw [hjobs, hi]
    exact h.issued

lemma AssignTask_ok {c' : WorkerConn} {cost : ℤ} (h : c.AssignTask id cost = .ok c') :
    c'.conn = c.conn ∧ c'.capacity = c.capacity ∧ c'.inFlight = insert id c.inFlight ∧
      c'.occupiedCost = c.occupiedCost + cost := by
  obtain rfl := WorkerConn.eq_of_AssignTask h
  exact ⟨rfl, rfl, rfl, rfl⟩

lemma Balanced.assign {ok : Bool} (h : Balanced s) (hp : Priced s job) (h0 : 0 ≤ job.Cost)
    (hb : Booked (.subtractCapacity w job.ID job.Cost) s)
    (he : exec cfg (.subtractCapacity w job.ID job.Cost) s ok t) :
    Balanced t ∧ Grows s t := by
  rcases exec_subtractCapacity he with ⟨-, rfl⟩ | ⟨c, c', -, hc, hassign, rfl⟩
  · exact ⟨h, .refl _⟩
  obtain ⟨hconn, -, hin', hocc'⟩ := AssignTask_ok hassign
  have hw : c'.conn = w := hconn.trans (key_of_get hc)
  refine ⟨h.conn (w := w) (c := c') ?_ ?_ (fun w' => ?_) rfl rfl rfl, .of_eq rfl⟩
  · rw [hin', hocc']
    by_cases hin : job.ID ∈ c.inFlight
    · rw [Finset.insert_eq_of_mem hin, hb c hc hin, add_zero, h.occupied w c hc]
    · rw [Finset.sum_insert hin, hp.costOf, h.occupied w c hc, add_comm]
  · intro id hid
    rw [hin'] at hid
    rcases Finset.mem_insert.mp hid with rfl | hid
    · obtain ⟨j, hj, hcost⟩ := hp
      exact ⟨j, hj, by rwa [hcost]⟩
    · exact h.stored w c hc id hid
  · rw [get_put, hw]

lemma Balanced.cost_nonneg (h : Balanced s) (hc : s.conns.get w = some c) (hid : id ∈ c.inFlight) :
    0 ≤ costOf s id := by
  obtain ⟨j, hj, h0⟩ := h.stored w c hc id hid
  simpa [costOf, hj] using h0

/-- Taking off a job that is in flight: the clamp at zero is never reached. -/
lemma CompleteTask_occupied (h : Balanced s) (hc : s.conns.get w = some c) (hp : Priced s job)
    (hb : Booked (.restoreCapacity w job.ID job.Cost) s) :
    (c.CompleteTask job.ID job.Cost).occupiedCost =
      ∑ id ∈ c.inFlight.erase job.ID, costOf s id := by
  have hrest : 0 ≤ ∑ id ∈ c.inFlight.erase job.ID, costOf s id :=
    Finset.sum_nonneg fun id hid => h.cost_nonneg hc (Finset.mem_of_mem_erase hid)
  have hocc := h.occupied w c hc
  unfold WorkerConn.CompleteTask
  dsimp only
  by_cases hin : job.ID ∈ c.inFlight
  · have hsum := Finset.add_sum_erase c.inFlight (costOf s) hin
    rw [hp.costOf] at hsum
    omega
  · rw [Finset.erase_eq_of_notMem hin] at hrest ⊢
    rcases hb c hc hin with hzero | ⟨hpos, hfree⟩
    · rw [hzero, sub_zero, if_neg (by omega), hocc]
    · rw [if_pos (by omega), ← hocc, hfree]

lemma Balanced.restore (h : Balanced s) (hp : Priced s job)
    (hb : Booked (.restoreCapacity w job.ID job.Cost) s)
    {ok : Bool} (he : exec cfg (.restoreCapacity w job.ID job.Cost) s ok t) :
    Balanced t ∧ Grows s t := by
  rcases he with ⟨-, -, rfl⟩ | ⟨-, rfl⟩
  · exact ⟨h, .refl _⟩
  refine ⟨?_, .of_eq rfl⟩
  rcases hc : s.conns.get w with _ | c
  · rw [modify_of_none hc]
    exact h
  · refine h.conn (w := w) (c := c.CompleteTask job.ID job.Cost)
      (CompleteTask_occupied h hc hp hb) (fun id hid => ?_) (fun w' => ?_) rfl rfl rfl
    · exact h.stored w c hc id (Finset.mem_of_mem_erase hid)
    · rw [get_modify s.conns w w' (f := fun c => c.CompleteTask job.ID job.Cost)
        (fun _ => rfl), hc, Option.map_some]

lemma Balanced.addConn (h : Balanced s) (hin : c.inFlight = ∅) (hocc : c.occupiedCost = 0) :
    Balanced (addConn c s) := by
  refine h.conn (w := c.conn) (c := c) ?_ ?_ (fun w' => get_put s.conns c w') rfl rfl rfl
  · rw [hin, Finset.sum_empty, hocc]
  · rw [hin]
    exact fun id hid => absurd hid (Finset.notMem_empty id)

end Rules

end Workforce.Ledger
