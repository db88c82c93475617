import Workforce.CapacityProtocol

/-!
The invariant of the capacity protocol, kept by every step at either end.

The manager's steps change the count and the stages together; a frame that is handled moves its
job from one stage to the next. Only the handling of a proposal needs that no run which is over
holds anything: it is the one step that compares the worker's own count with its capacity.
-/

namespace Workforce.NeverFull

open Tables Runs Shared WorkerSide Decimal Calls CapacityProtocol
open Reservations hiding step next
open Frames (ProposeMessage DispatchMessage)

variable {cost : String → ℤ} {s t : System} {w : Worker} {msg : ProposeMessage} {jobID : String}

/-! ### The manager's end -/

lemma CompleteTask_occupied {c : WorkerConn} {n : ℤ} (h : 0 ≤ c.occupiedCost) (hn : 0 ≤ n)
    (jobID : String) : c.occupiedCost - n ≤ (c.CompleteTask jobID n).occupiedCost ∧
      (c.CompleteTask jobID n).occupiedCost ≤ c.occupiedCost ∧
      0 ≤ (c.CompleteTask jobID n).occupiedCost := by
  simp only [WorkerConn.CompleteTask]
  split_ifs <;> omega

lemma settle_books (c : WorkerConn) (r : Reply) (jobID : String) :
    (settle cost c r jobID).capacity = c.capacity ∧
      (settle cost c r jobID).occupiedCost = (c.CompleteTask jobID (cost jobID)).occupiedCost := by
  cases r <;> exact ⟨rfl, rfl⟩

lemma assignTo_books {c : WorkerConn} (h : c.occupiedCost + msg.Cost ≤ c.capacity)
    (hcost : 0 ≤ msg.Cost) : (assignTo c msg).capacity = c.capacity ∧
      (assignTo c msg).occupiedCost = c.occupiedCost + msg.Cost := by
  unfold assignTo
  rcases ha : c.AssignTask msg.JobID msg.Cost with err | c'
  · refine ⟨rfl, ?_⟩
    simp only [WorkerConn.AssignTask] at ha
    split_ifs at ha
    · dsimp only
      omega
    · omega
  · rw [WorkerConn.eq_of_AssignTask ha]
    exact ⟨rfl, rfl⟩

section Steps

variable (hcost : ∀ id, 0 ≤ cost id)

lemma inv_select (h : Inv cost s) (hidle : s.dispatcher = .idle) (hprice : msg.Cost = cost msg.JobID)
    (hnew : msg.JobID ∉ stages s) (helig : Eligible msg.Cost msg.JobID s.conn) :
    Inv cost { s with dispatcher := .selected msg } := by
  have hroom := h.charged.room
  have hpaid := h.charged.paid
  rw [hidle] at hroom hpaid
  refine ⟨{ h.priced with dispatcher := ?_ }, { h.charged with chosen := ?_, paid := ?_, room := ?_ },
    { h.held with }, h.never⟩
  · rintro m (hm | hm)
    · cases hm
      exact hprice
    · cases hm
  · intro m hm
    cases hm
    exact hnew
  · exact hpaid
  · rcases helig.2.2 with hzero | hle
    · simpa [claimed, hzero] using hroom
    · rw [WorkerConn.AvailableCapacity] at hle
      dsimp only [claimed]
      omega

lemma inv_send (h : Inv cost s) (hsel : s.dispatcher = .selected msg) :
    Inv cost { s with dispatcher := .sent msg, toWorker := s.toWorker ++ [.propose msg] } := by
  have hprice := h.priced.dispatcher msg (.inl hsel)
  have hroom := h.charged.room
  have hpaid := h.charged.paid
  rw [hsel] at hroom hpaid
  have hperm : (stages { s with
      dispatcher := .sent msg
      toWorker := s.toWorker ++ [.propose msg] }).Perm (msg.JobID :: stages s) := by
    have hframes : (s.toWorker ++ [ToWorker.propose msg]).filterMap proposal =
        s.toWorker.filterMap proposal ++ [msg.JobID] := by simp [proposal]
    simp only [stages]
    rw [hframes, List.append_assoc]
    exact List.perm_middle
  refine ⟨{ h.priced with dispatcher := ?_, frames := ?_ },
    { h.charged with once := ?_, chosen := ?_, paid := ?_, room := ?_ }, { h.held with }, h.never⟩
  · rintro m (hm | hm)
    · cases hm
    · cases hm
      exact hprice
  · intro m hm
    rcases List.mem_append.mp hm with hm | hm
    · exact h.priced.frames m hm
    · cases List.mem_singleton.mp hm
      exact hprice
  · exact hperm.nodup_iff.mpr (List.nodup_cons.mpr ⟨h.charged.chosen msg hsel, h.charged.once⟩)
  · intro m hm
    cases hm
  · rw [(hperm.map cost).sum_eq, List.map_cons, List.sum_cons, ← hprice]
    dsimp only [unassigned] at hpaid ⊢
    omega
  · exact hroom

include hcost

lemma inv_assign (h : Inv cost s) (hsent : s.dispatcher = .sent msg) :
    Inv cost { s with dispatcher := .idle, conn := assignTo s.conn msg } := by
  have hroom := h.charged.room
  have hpaid := h.charged.paid
  have hnonneg := h.charged.nonneg
  rw [hsent] at hroom hpaid
  have hzero : 0 ≤ msg.Cost := h.priced.dispatcher msg (.inr hsent) ▸ hcost _
  obtain ⟨hcap, hocc⟩ := assignTo_books hroom hzero
  refine ⟨{ h.priced with dispatcher := ?_ },
    { h.charged with chosen := ?_, paid := ?_, room := ?_, nonneg := ?_ },
    { h.held with declared := ?_ }, h.never⟩
  · rintro m (hm | hm) <;> cases hm
  · intro m hm
    cases hm
  · change ((stages s).map cost).sum ≤ _
    dsimp only [unassigned] at hpaid ⊢
    omega
  · dsimp only [claimed] at hroom ⊢
    omega
  · dsimp only
    omega
  · exact h.held.declared.trans hcap.symm

lemma inv_ignored (h : Inv cost s) {i : ℕ} {r : Reply} (hr : s.toManager[i]? = some r) :
    Inv cost { s with toManager := s.toManager.eraseIdx i } := by
  have hperm := perm_stages_handled hr
  refine ⟨{ h.priced with }, ?_, { h.held with }, fun id hin => ?_⟩
  · rcases hid : settles r with _ | jobID
    · rw [hid] at hperm
      exact h.charged.same hperm.symm rfl rfl
    · rw [hid] at hperm
      have hnonneg := hcost jobID
      exact h.charged.leave jobID hperm rfl rfl (by dsimp only; omega) (le_refl _)
        h.charged.nonneg
  · exact h.never id ((List.eraseIdx_sublist _ _).subset hin)

lemma inv_settled (h : Inv cost s) {i : ℕ} {r : Reply} (hr : s.toManager[i]? = some r)
    (hid : settles r = some jobID) :
    Inv cost { s with toManager := s.toManager.eraseIdx i, conn := settle cost s.conn r jobID } := by
  have hperm := perm_stages_handled hr
  rw [hid] at hperm
  obtain ⟨hcap, hocc⟩ := @settle_books cost s.conn r jobID
  obtain ⟨h1, h2, h3⟩ := CompleteTask_occupied h.charged.nonneg (hcost jobID) jobID
  refine ⟨{ h.priced with }, h.charged.leave jobID hperm rfl hcap ?_ ?_ ?_,
    { h.held with declared := h.held.declared.trans hcap.symm }, fun id hin => ?_⟩
  · exact hocc ▸ h1
  · exact hocc ▸ h2
  · exact hocc ▸ h3
  · exact h.never id ((List.eraseIdx_sublist _ _).subset hin)

end Steps

/-! ### The worker's end -/

lemma inv_accepted (h : Inv cost s) {i : ℕ} (hr : s.toManager[i]? = some (.accept jobID))
    (m : DispatchMessage Unit) : Inv cost { s with
      toManager := s.toManager.eraseIdx i
      toWorker := s.toWorker ++ [.dispatch m] } := by
  refine ⟨{ h.priced with frames := fun p hp => ?_ }, h.charged.same ?_ rfl rfl, { h.held with },
    fun id hin => ?_⟩
  · rcases List.mem_append.mp hp with hp | hp
    · exact h.priced.frames p hp
    · cases List.mem_singleton.mp hp
  · have hframes : (s.toWorker ++ [ToWorker.dispatch m]).filterMap proposal =
        s.toWorker.filterMap proposal := by simp [proposal]
    have hperm := (perm_stages_handled hr).symm
    simp only [stages] at hperm ⊢
    rw [hframes]
    exact hperm
  · exact h.never id ((List.eraseIdx_sublist _ _).subset hin)

lemma never_append {r : Reply} (h : NeverFull s) (hr : ∀ id, .reject id .capacity ≠ r) :
    ∀ id, .reject id .capacity ∉ s.toManager ++ [r] := by
  intro id hin
  rcases List.mem_append.mp hin with hin | hin
  · exact h id hin
  · exact hr id (List.mem_singleton.mp hin)

lemma settles_of_ofRun {r : Reply} {result : Bool} (hr : ofRun r = some (jobID, result)) :
    settles r = if result then some jobID else none := by
  cases r <;> cases hr <;> rfl

lemma inv_reports (h : Inv cost s) {k : ℕ} {run : RunningJob} (hk : s.runs[k]? = some run)
    (hsent : run.sent = false) {r : Reply} {result : Bool}
    (hr : ofRun r = some (run.jobID, result)) : Inv cost { s with
      runs := s.runs.set k { run with sent := result }
      toManager := s.toManager ++ [r] } := by
  have hids : (s.runs.set k { run with sent := result }).map RunningJob.jobID =
      s.runs.map RunningJob.jobID := map_set_eq hk rfl
  have hperm : (stages { s with
      runs := s.runs.set k { run with sent := result }
      toManager := s.toManager ++ [r] }).Perm (stages s) := by
    have hold := Multiset.coe_eq_coe.mpr (@perm_filterMap_eraseIdx _ _ working _ _ _ hk)
    have hnew := Multiset.coe_eq_coe.mpr
      (@perm_filterMap_set _ _ working _ _ _ hk { run with sent := result })
    rw [← Multiset.coe_add] at hold hnew
    rw [← Multiset.coe_eq_coe, coe_stages, coe_stages, hold, hnew, List.filterMap_append,
      ← Multiset.coe_add]
    -- the job goes from the run to the frame, or stays with the run
    cases result with
    | false => simp [working, hsent, settles_of_ofRun hr]
    | true =>
      simp only [working, hsent, settles_of_ofRun hr, List.filterMap_cons, List.filterMap_nil,
        if_true, Bool.false_eq_true, if_false, Option.toList_some, Option.toList_none]
      abel
  refine ⟨{ h.priced with }, h.charged.same hperm rfl rfl,
    { h.held with running := ?_, apart := ?_ }, never_append h.never ?_⟩
  · rw [hids]
    exact h.held.running
  · rw [hids]
    exact h.held.apart
  · rintro id rfl
    cases hr

lemma tasks_release (w : Worker) (jobID : String) :
    (releaseTask w jobID).tasks = w.tasks.erase jobID ∨
      w.tasks.get jobID = none ∧ (releaseTask w jobID).tasks = w.tasks := by
  rw [(sameBooks_release w jobID).tasks, dropTask]
  rcases hget : w.tasks.get jobID with _ | t
  · exact .inr ⟨rfl, rfl⟩
  · exact .inl rfl

lemma pending_release (w : Worker) (jobID : String) :
    (releaseTask w jobID).pendingJobs = w.pendingJobs := by
  rw [(sameBooks_release w jobID).pending, dropTask]
  split <;> rfl

lemma capacity_release (w : Worker) (jobID : String) :
    (releaseTask w jobID).Capacity = w.Capacity := by
  rw [(sameBooks_release w jobID).capacity, dropTask]
  split <;> rfl

lemma inv_release (h : Inv cost s) {k : ℕ} {run : RunningJob} (hk : s.runs[k]? = some run)
    (hsent : run.sent = true) : Inv cost { s with
      runs := s.runs.eraseIdx k
      worker := releaseTask s.worker run.jobID } := by
  obtain ⟨hi, hrun⟩ := List.getElem?_eq_some_iff.mp hk
  have hperm := (List.getElem_cons_eraseIdx_perm hi).map RunningJob.jobID
  rw [List.map_cons, hrun] at hperm
  have hin : run.jobID ∈ taskIDs s.worker :=
    h.held.running.symm.subset (hperm.subset List.mem_cons_self)
  obtain ⟨task, htask⟩ := Option.ne_none_iff_exists'.mp
    fun hnone => get_eq_none_iff.mp hnone hin
  have herase : (releaseTask s.worker run.jobID).tasks = s.worker.tasks.erase run.jobID :=
    (tasks_release s.worker run.jobID).resolve_right fun hnone => nomatch htask.symm.trans hnone.1
  have hpending := pending_release s.worker run.jobID
  have hstep : Reservations.step s.worker (Event.release run.jobID : Event Unit)
    (releaseTask s.worker run.jobID) := ⟨trivial, rfl⟩
  refine ⟨{ h.priced with pending := ?_, tasks := ?_ }, h.charged.same ?_ rfl rfl, ?_, h.never⟩
  · exact hpending ▸ h.priced.pending
  · intro t ht
    rw [herase] at ht
    exact h.priced.tasks t (mem_values_of_mem_erase ht)
  · have hruns := @perm_filterMap_eraseIdx _ _ working _ _ _ hk
    rw [working, hsent, if_pos rfl, Option.toList_none, List.nil_append] at hruns
    simp only [stages, pendingIDs, hpending]
    exact (((hruns.symm.append_right _).append_left _).append_left _)
  · refine ⟨(capacity_release _ _).trans h.held.declared, (step_iff h.held.costed h.held.counted
      hstep).mp trivial, costed_step h.held.costed hstep, ?_, fun id hid => ?_⟩
    · have htasks := (perm_values_erase htask).map activeTask.JobID
      rw [List.map_cons, key_of_get htask] at htasks
      rw [taskIDs, herase]
      exact (htasks.trans (h.held.running.trans hperm.symm)).cons_inv
    · rw [pendingIDs, hpending] at hid
      exact fun hmem => h.held.apart id hid (hperm.subset (List.mem_cons_of_mem _ hmem))

/-! ### Frames for the worker -/

lemma reply_accepted {host : Host} (h : Accepts w host msg) :
    (handlePropose w host msg).2 = .accept msg.JobID := by
  obtain ⟨h1, h2, h3, h4⟩ := h
  simp [handlePropose, h1, h2, h3, h4]

/-- With room for it, a proposal is refused for another reason than capacity. -/
lemma reply_refused {host : Host} (h : ¬Accepts w host msg) (hroom : canAccept w msg) :
    ∃ reason, (handlePropose w host msg).2 = .reject msg.JobID reason ∧ reason ≠ .capacity := by
  unfold handlePropose
  split_ifs with h1 h2 h3
  · exact ⟨_, rfl, fun h => nomatch h⟩
  · exact ⟨_, rfl, fun h => nomatch h⟩
  · exact ⟨_, rfl, fun h => nomatch h⟩
  · exact (h ⟨not_not.mp h1, by simpa using h2, not_not.mp h3, hroom⟩).elim

lemma perm_frames_propose {i : ℕ} (hi : s.toWorker[i]? = some (.propose msg)) :
    (s.toWorker.filterMap proposal).Perm
      (msg.JobID :: (s.toWorker.eraseIdx i).filterMap proposal) := perm_filterMap_eraseIdx hi

lemma inv_propose (hcost : ∀ id, 0 ≤ cost id) (h : Inv cost s) {host : Host} {i : ℕ}
    (hi : s.toWorker[i]? = some (.propose msg))
    (hprompt : ∀ run ∈ s.runs, run.sent = true → run.jobID ∈ s.toManager.filterMap settles) :
    Inv cost (receive s host i (.propose msg)) := by
  have hmem : ToWorker.propose msg ∈ s.toWorker := List.mem_of_getElem? hi
  obtain ⟨hpending, hrunning, hfits⟩ := fits_of_prompt hcost h hmem hprompt
  have hprice := h.priced.frames msg hmem
  have hzero : 0 ≤ msg.Cost := hprice ▸ hcost _
  have hnonneg := h.held.counted.nonneg
  have hcapacity := h.held.costed.capacity.2
  have hint : IsInt64 (s.worker.usedCap + msg.Cost) := ⟨by omega, by omega⟩
  have hroom : canAccept s.worker msg := by
    rw [canAccept, wrap64_eq hint]
    exact hfits
  have hstep : Reservations.step s.worker (Event.propose host msg : Event Unit)
      (handlePropose s.worker host msg).1 := ⟨⟨hzero, by omega, by omega⟩, rfl⟩
  have hsound : Sound s.worker (Event.propose host msg : Event Unit) := fun _ =>
    ⟨hint.2, fun old hold => nomatch (get_eq_none_iff.mpr hpending).symm.trans hold⟩
  have hcounted := (step_iff h.held.costed h.held.counted hstep).mp hsound
  have hcosted := costed_step h.held.costed hstep
  have hframes : ∀ m, ToWorker.propose m ∈ s.toWorker.eraseIdx i → m.Cost = cost m.JobID :=
    fun m hm => h.priced.frames m ((List.eraseIdx_sublist _ _).subset hm)
  have hperm := perm_frames_propose hi
  rw [receive]
  by_cases hacc : Accepts s.worker host msg
  · rw [propose_accepted hacc] at hcounted hcosted ⊢
    rw [reply_accepted hacc]
    have hids : pendingIDs { s.worker with
        usedCap := wrap64 (s.worker.usedCap + msg.Cost)
        pendingJobs := s.worker.pendingJobs.put msg } = msg.JobID :: pendingIDs s.worker :=
      pendingIDs_put hpending
    refine ⟨⟨h.priced.dispatcher, hframes, ?_, h.priced.tasks⟩, h.charged.same ?_ rfl rfl,
      ⟨h.held.declared, hcounted, hcosted, h.held.running, ?_⟩, ?_⟩
    · intro p hp
      rcases mem_values_of_mem_put hp with rfl | hp
      · exact hprice
      · exact h.priced.pending p hp
    · simp only [stages]
      rw [hids, List.filterMap_append, List.cons_append]
      simp only [List.filterMap_cons, List.filterMap_nil, settles, ofRun, List.append_nil]
      exact List.perm_middle.trans (hperm.symm.append_right _)
    · rw [hids]
      exact List.forall_mem_cons.mpr ⟨hrunning, h.held.apart⟩
    · exact never_append h.never (by simp)
  · obtain ⟨reason, hreply, hreason⟩ := reply_refused hacc hroom
    rw [propose_refused hacc, hreply]
    refine ⟨⟨h.priced.dispatcher, hframes, h.priced.pending, h.priced.tasks⟩,
      h.charged.same ?_ rfl rfl, { h.held with }, ?_⟩
    · simp only [stages]
      rw [List.filterMap_append]
      rw [← List.append_assoc, ← List.append_assoc, ← List.append_assoc]
      refine (List.perm_append_singleton _ _).trans ?_
      simp only [List.append_assoc]
      exact hperm.symm.append_right _
    · refine never_append h.never fun id heq => ?_
      cases heq
      exact hreason rfl

lemma perm_frames_dispatch {i : ℕ} {m : DispatchMessage Unit}
    (hi : s.toWorker[i]? = some (.dispatch m)) : (s.toWorker.filterMap proposal).Perm
      ((s.toWorker.eraseIdx i).filterMap proposal) := perm_filterMap_eraseIdx hi

lemma inv_dispatch (h : Inv cost s) {host : Host} {i : ℕ} {m : DispatchMessage Unit}
    (hi : s.toWorker[i]? = some (.dispatch m)) : Inv cost (receive s host i (.dispatch m)) := by
  have hframes : ∀ p, ToWorker.propose p ∈ s.toWorker.eraseIdx i → p.Cost = cost p.JobID :=
    fun p hp => h.priced.frames p ((List.eraseIdx_sublist _ _).subset hp)
  have hperm := perm_frames_dispatch hi
  have hstep : Reservations.step s.worker (Event.dispatch m) (handleDispatch s.worker m).1 :=
    ⟨trivial, rfl⟩
  rcases hpending : s.worker.pendingJobs.get m.JobID with _ | p
  · have hhandled : handleDispatch s.worker m = (s.worker, .error "unknown_job"
        "dispatched job was not proposed or accepted", none) := by
      rw [handleDispatch, hpending]
    rw [receive, hhandled]
    refine ⟨⟨h.priced.dispatcher, hframes, h.priced.pending, h.priced.tasks⟩,
      h.charged.same ?_ rfl rfl, { h.held with }, ?_⟩
    · simp only [stages, List.filterMap_append, List.filterMap_cons, List.filterMap_nil, settles,
        ofRun, List.append_nil]
      exact hperm.symm.append_right _
    · exact never_append h.never (by simp)
  · have hkey : p.JobID = m.JobID := key_of_get hpending
    have hin : m.JobID ∈ pendingIDs s.worker :=
      List.mem_map.mpr ⟨p, mem_values.mpr (hkey ▸ hpending), hkey⟩
    have hnew : m.JobID ∉ s.runs.map RunningJob.jobID := h.held.apart _ hin
    have hfree : s.worker.tasks.get m.JobID = none :=
      get_eq_none_iff.mpr fun hmem => hnew (h.held.running.subset hmem)
    have hsound : Sound s.worker (Event.dispatch m) := fun _ _ hold => by
      cases hfree.symm.trans hold
    have hcounted := (step_iff h.held.costed h.held.counted hstep).mp hsound
    have hcosted := costed_step h.held.costed hstep
    have hids := pendingIDs_erase hpending
    have hhandled : handleDispatch s.worker m = ({ s.worker with
        pendingJobs := s.worker.pendingJobs.erase m.JobID
        tasks := s.worker.tasks.put { JobID := m.JobID, cost := p.Cost, runID := m.RunID } },
        .staged m.JobID m.RunID, some p) := by
      rw [handleDispatch, hpending]
    rw [hhandled] at hcounted hcosted
    rw [receive, hhandled]
    rw [Option.isSome_some, if_pos rfl]
    refine ⟨⟨h.priced.dispatcher, hframes, ?_, ?_⟩, h.charged.same ?_ rfl rfl,
      ⟨h.held.declared, hcounted, hcosted, ?_, ?_⟩, ?_⟩
    · exact fun q hq => h.priced.pending q (mem_values_of_mem_erase hq)
    · intro t ht
      rcases mem_values_of_mem_put ht with rfl | ht
      · exact hkey ▸ h.priced.pending p (mem_values.mpr (hkey ▸ hpending))
      · exact h.priced.tasks t ht
    · -- the job goes from the pending ones to the runs
      have hp := Multiset.coe_eq_coe.mpr hperm
      have ha := Multiset.coe_eq_coe.mpr hids
      rw [← Multiset.cons_coe, ← Multiset.singleton_add] at ha
      rw [← Multiset.coe_eq_coe, coe_stages, coe_stages, hp, ha]
      simp only [List.filterMap_append, List.filterMap_cons, List.filterMap_nil, working, settles,
        ofRun, List.append_nil, Bool.false_eq_true, if_false, ← Multiset.coe_add,
        Multiset.coe_singleton, pendingIDs]
      abel
    · have hvalues : (s.worker.tasks.put { JobID := m.JobID, cost := p.Cost, runID := m.RunID }).values
          = { JobID := m.JobID, cost := p.Cost, runID := m.RunID } ::
            (s.worker.tasks.erase m.JobID).values := rfl
      rw [taskIDs, hvalues, values_erase_of_none hfree, List.map_append]
      exact (h.held.running.cons _).trans (List.perm_append_singleton _ _).symm
    · intro id hid hmem
      have hnodup := hids.nodup_iff.mp (nodup_keys s.worker.pendingJobs)
      rw [List.map_append, List.mem_append] at hmem
      rcases hmem with hmem | hmem
      · exact h.held.apart id (hids.symm.subset (List.mem_cons_of_mem _ hid)) hmem
      · cases List.mem_singleton.mp hmem
        exact (List.nodup_cons.mp hnodup).1 hid
    · exact never_append h.never (by simp)

/-! ### Runs of the protocol -/

lemma inv_step (hcost : ∀ id, 0 ≤ cost id) {l : Label} (h : Inv cost s) (hp : Prompt s l)
    (hs : step cost s l t) : Inv cost t := by
  unfold step at hs
  cases l with
  | select msg =>
    rw [next] at hs
    split at hs
    next hidle =>
      split_ifs at hs with hc
      cases hs
      exact inv_select h hidle hc.1 hc.2.1 hc.2.2
    next => cases hs
  | send =>
    rw [next] at hs
    split at hs
    next msg hsel =>
      cases hs
      exact inv_send h hsel
    next => cases hs
  | assign =>
    rw [next] at hs
    split at hs
    next msg hsent =>
      cases hs
      exact inv_assign hcost h hsent
    next => cases hs
  | receive host i =>
    obtain ⟨frame, hi, rfl⟩ := Option.map_eq_some_iff.mp hs
    cases frame with
    | propose msg => exact inv_propose hcost h hi (hp ⟨msg, hi⟩)
    | dispatch m => exact inv_dispatch h hi
  | reports k r =>
    rw [next] at hs
    split at hs
    next run jobID result hk hr =>
      split_ifs at hs with hc
      cases hs
      exact inv_reports h hk hc.1 (hc.2 ▸ hr)
    next => cases hs
  | release k =>
    rw [next] at hs
    split at hs
    next run hk =>
      split_ifs at hs with hsent
      cases hs
      exact inv_release h hk hsent
    next => cases hs
  | accepted i m =>
    rw [next] at hs
    split at hs
    next jobID hr =>
      split_ifs at hs
      cases hs
      exact inv_accepted h hr m
    next => cases hs
  | settled i =>
    rw [next] at hs
    split at hs
    next r hr =>
      obtain ⟨jobID, hid, rfl⟩ := Option.map_eq_some_iff.mp hs
      exact inv_settled hcost h hr hid
    next => cases hs
  | ignored i =>
    rw [next] at hs
    split_ifs at hs with hi
    cases hs
    exact inv_ignored hcost h (List.getElem?_eq_getElem hi)

lemma inv_start {conn : WorkerConn} (hone : 1 ≤ conn.capacity) (hfits : IsInt64 conn.capacity) :
    Inv cost (start conn) := by
  have hcapacity : (0 : ℤ) ≤ conn.capacity := by omega
  refine ⟨⟨fun m hm => ?_, ?_, ?_, ?_⟩, ⟨List.nodup_nil, ?_, le_refl _, hcapacity, le_refl _⟩,
    ⟨rfl, ⟨rfl, le_refl _, hcapacity⟩, ⟨?_, ?_, hfits⟩, List.Perm.refl _, ?_⟩, ?_⟩
  · rcases hm with hm | hm <;> cases hm
  all_goals exact fun _ h => nomatch h

/-- **The capacity protocol**: in every run from the start of a connection in which no proposal is
handled while the worker holds something for a run whose result has been handled, no proposal is
rejected for want of capacity. -/
theorem neverFull_of_prompt (hcost : ∀ id, 0 ≤ cost id) {conn : WorkerConn}
    (hone : 1 ≤ conn.capacity) (hfits : IsInt64 conn.capacity) {tr : List (System × Label)}
    (hrun : Run (step cost) (start conn) tr t) (hmeets : Meets Prompt tr) :
    ∀ u ∈ states tr t, NeverFull u := fun u hu =>
  (hrun.invariant (fun _ _ _ h hp hs => inv_step hcost h hp hs) hmeets (inv_start hone hfits)
    u hu).never

/-- What happens with labels one after another, up to the first that cannot be. -/
def follow (cost : String → ℤ) (s : System) : List Label → List (System × Label)
  | [] => []
  | l :: ls =>
    match next cost s l with
    | some t => (s, l) :: follow cost t ls
    | none => []

def final (cost : String → ℤ) (s : System) : List Label → System
  | [] => s
  | l :: ls =>
    match next cost s l with
    | some t => final cost t ls
    | none => s

lemma run_follow (cost : String → ℤ) (s : System) (ls : List Label) :
    Run (step cost) s (follow cost s ls) (final cost s ls) := by
  induction ls generalizing s with
  | nil => exact .nil s
  | cons l ls ih =>
    rw [follow, final]
    rcases h : next cost s l with _ | t
    · exact .nil s
    · exact .cons h (ih t)

def smallConn : WorkerConn :=
  { conn := 0, workerID := "w", os := "linux", arch := "amd64", capacity := 1 }

def proposal1 (jobID : String) : ProposeMessage := { proposed with JobID := jobID }

def dispatch1 (jobID : String) : DispatchMessage Unit := { dispatched with JobID := jobID }

/-- A job of cost one up to its result, which the manager handles. -/
def untilResult : List Label :=
  [.select (proposal1 "a"), .send, .assign, .receive {} 0, .accepted 0 (dispatch1 "a"),
    .receive {} 0, .reports 0 (.success "a" "r" 0 []), .settled 1]

def nextJob : List Label := [.select (proposal1 "b"), .send, .assign, .receive {} 0]

lemma prompt_released : Meets Prompt
    (follow (fun _ => 1) (start smallConn) (untilResult ++ .release 0 :: nextJob)) := by
  unfold Meets
  decide +kernel

theorem neverFull_released :
    Meets Prompt (follow (fun _ => 1) (start smallConn) (untilResult ++ .release 0 :: nextJob)) ∧
    ∀ u ∈ states (follow (fun _ => 1) (start smallConn) (untilResult ++ .release 0 :: nextJob))
      (final (fun _ => 1) (start smallConn) (untilResult ++ .release 0 :: nextJob)),
      NeverFull u :=
  ⟨prompt_released, neverFull_of_prompt (fun _ => by decide) (by decide) (by decide)
    (run_follow _ _ _) prompt_released⟩

/-- If the next job comes before the release, it is rejected. -/
theorem full_before_release :
    Run (step fun _ => 1) (start smallConn) (follow (fun _ => 1) (start smallConn)
        (untilResult ++ nextJob))
      (final (fun _ => 1) (start smallConn) (untilResult ++ nextJob)) ∧
    Reply.reject "b" .capacity ∈
      (final (fun _ => 1) (start smallConn) (untilResult ++ nextJob)).toManager :=
  ⟨run_follow _ _ _, by decide +kernel⟩

end Workforce.NeverFull
