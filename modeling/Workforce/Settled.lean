import Workforce.Playback
import Workforce.Fresh
import Workforce.Ledger

/-!
A result settles the account of its job, unless the job has ended in the meantime.
-/

namespace Workforce.Settled

open Tables Contract Progs Shared Calls Handlers Operations Footprints Copies Ledger Runs Fresh
open Knowledge

def booking (cfg : Stores) {β : Type} (c : Call β) (s : World) (b : β) (t : World) : Prop :=
  Booked c s ∧ exec cfg c s b t

variable {cfg : Config} {stores : Stores} {α β : Type} {s t : World} {job : Job} {F : Set Fact}

/-! ### What a program knows, on the books -/

/-- The books are right, and what a program knows of the stores is so: its jobs have their price,
the names it has made are free, and a worker is found only for a cost that is not negative. -/
structure Covered (s : World) (F : Set Fact) : Prop where
  balanced : Balanced s
  known : ∀ f, .job f ∈ F → Priced s f
  own : ∀ id, .own id ∈ F → id ∈ s.issued ∧ s.jobs.get id = none
  payable : ∀ cost, .payable cost ∈ F → 0 ≤ cost

lemma Covered.priced {id : String} {cost : ℤ} (h : Covered s F)
    (hc : ∃ f, .job f ∈ F ∧ f.ID = id ∧ f.Cost = cost) :
    ∃ f, Priced s f ∧ f.ID = id ∧ f.Cost = cost := by
  obtain ⟨f, hf, hid, hcost⟩ := hc
  exact ⟨f, h.known f hf, hid, hcost⟩

lemma balanced_call {c : Call β} {b : β} (h : Covered s F) (hc : Needs F c)
    (he : booking stores c s b t) : Balanced t ∧ Grows s t := by
  obtain ⟨hb, he⟩ := he
  have hs := h.balanced
  by_cases hstill : Still c
  · have hsame := sameBooks_exec hstill he
    exact ⟨hs.same hsame, hsame.grows⟩
  cases c with
  | saveJob job =>
    obtain ⟨hissued, hfree⟩ := h.own _ hc.1
    rcases he with ⟨-, rfl⟩ | ⟨-, rfl⟩
    · exact ⟨hs.save hfree hissued, grows_put hfree rfl⟩
    · exact ⟨hs, .refl _⟩
  | pushItem job =>
    subst he
    exact ⟨hs.push ((h.known _ hc).of_fields rfl rfl), .of_eq rfl⟩
  | subtractCapacity w id cost =>
    obtain ⟨f, hf, rfl, rfl⟩ := h.priced hc.1
    exact hs.assign hf (h.payable _ hc.2) hb he
  | restoreCapacity w id cost =>
    obtain ⟨f, hf, rfl, rfl⟩ := h.priced hc
    exact hs.restore hf hb he
  | _ => exact absurd trivial hstill

/-- A name that is free stays free until a job is saved under it. -/
lemma free_call {c : Call β} {b : β} {id : String} (he : exec stores c s b t)
    (hid : .own id ∈ learns F c b)
    (h : id ∈ s.issued ∧ s.jobs.get id = none) : id ∈ t.issued ∧ t.jobs.get id = none := by
  cases c with
  | saveJob job =>
    have hne : id ≠ job.ID := fun hk =>
      hid.elim (fun hid => hid.2 (congrArg Fact.own hk)) fun hid => nomatch hid.2
    rcases he with ⟨-, rfl⟩ | ⟨-, rfl⟩
    · exact ⟨h.1, by rw [get_put, if_neg hne]; exact h.2⟩
    · exact h
  | ulidMake =>
    obtain ⟨-, -, rfl⟩ := he
    exact ⟨Finset.mem_insert_of_mem h.1, h.2⟩
  | createRun =>
    have hsame := same_of_createRun he
    exact ⟨hsame.issued h.1, hsame.jobs ▸ h.2⟩
  | _ =>
    have hkeys := sameKeys_of_plain (by trivial) he
    exact ⟨hkeys.issued h.1, (hkeys.jobs id).mpr h.2⟩

/-- **One call.** What is known after a call is so, and the books are right. -/
theorem covered_call {c : Call β} {b : β} (h : Covered s F) (hc : Needs F c)
    (he : booking stores c s b t) : Covered t (learns F c b) := by
  obtain ⟨hbal, hg⟩ := balanced_call h hc he
  have hknown {f : Job} (hf : .job f ∈ F) : Priced t f := (h.known f hf).grows hg
  have hfree {id : String} (hid : .own id ∈ learns F c b) (hold : .own id ∈ F) :=
    free_call he.2 hid (h.own id hold)
  obtain ⟨-, he⟩ := he
  cases c with
  | getJob | popItem =>
    refine ⟨hbal, fun f hf => ?_, fun id hid => hfree hid (hid.resolve_right ?_),
      fun cost hcost => h.payable cost (hcost.resolve_right ?_)⟩
    · obtain hf | ⟨j, rfl, hf⟩ := hf
      · exact hknown hf
      · cases hf
        -- the job comes from the store, or from the queue
        first
          | exact (priced_of_get he.1.symm).grows hg
          | exact (h.balanced.queue j he.1).grows hg
    all_goals exact fun ⟨_, _, hj⟩ => nomatch hj
  | eligibleWorkers platforms cost jobID =>
    refine ⟨hbal, fun f hf => hknown (hf.resolve_right fun hf => nomatch hf.2),
      fun id hid => hfree hid (hid.resolve_right fun hid => nomatch hid.2), fun cost hcost => ?_⟩
    obtain hcost | ⟨hne, hcost⟩ := hcost
    · exact h.payable cost hcost
    · -- no worker is ever found for a job of negative cost
      cases hcost
      by_contra hneg
      have hnone := he.1
      rw [if_pos (not_le.mp hneg)] at hnone
      exact hne hnone
  | ulidMake =>
    refine ⟨hbal, fun f hf => hknown (hf.resolve_left Fact.noConfusion), fun id hid => ?_,
      fun cost hcost => h.payable cost (hcost.resolve_left Fact.noConfusion)⟩
    by_cases hold : .own id ∈ F
    · exact hfree hid hold
    · cases hid.resolve_right hold
      obtain ⟨-, hnew, rfl⟩ := he
      refine ⟨Finset.mem_insert_self _ _, ?_⟩
      by_contra hne
      exact hnew (h.balanced.issued _ hne)
  | saveJob job =>
    refine ⟨hbal, fun f hf => ?_, fun id hid => hfree hid ?_, fun cost hcost => h.payable cost ?_⟩
    · obtain ⟨hf, -⟩ | ⟨rfl, hf⟩ := hf
      · exact hknown hf
      · cases hf
        rcases he with ⟨-, rfl⟩ | ⟨hr, -⟩
        · exact ⟨job, get_put_self _ job, rfl⟩
        · exact absurd rfl hr
    · exact (hid.resolve_right fun hid => nomatch hid.2).1
    · exact (hcost.resolve_right fun hcost => nomatch hcost.2).1
  | createRun =>
    exact ⟨hbal, fun f hf => hknown hf.1, fun id hid => hfree hid hid.1,
      fun cost hcost => h.payable cost hcost.1⟩
  | _ => exact ⟨hbal, fun f hf => hknown hf, fun id hid => hfree hid hid, h.payable⟩

/-- A program that knows what it books, its calls meeting the condition, keeps the books. -/
lemma balanced_of_knows {p : M α} (hp : Knows ∅ p) (hs : Balanced s)
    (h : Performs (booking stores) p s t) : Balanced t := by
  obtain ⟨a, ha⟩ := h
  have hstart : Covered s ∅ := ⟨hs, fun _ h => h.elim, fun _ h => h.elim, fun _ h => h.elim⟩
  obtain ⟨F, ht⟩ := knows_sound (R := Covered) covered_call hp hstart ha
  exact ht.balanced

/-! ### The job leaves the connection -/

def Unassigning : {β : Type} → Call β → Prop
  | _, .subtractCapacity _ _ _ => False
  | _, _ => True

lemma unassigning_call (c : Call β) (hc : Quiet c) : Unassigning c := by
  cases c with
  | subtractCapacity => exact hc.elim
  | _ => trivial

/-- No connection has got a job in flight that it did not have. -/
def Sheds (s t : World) : Prop := ∀ w, inFlightOf t w ⊆ inFlightOf s w

lemma inFlightOf_restore (s : World) (w : ConnID) (id : String) (cost : ℤ) (w' : ConnID) :
    inFlightOf { s with conns := s.conns.modify w fun c => c.CompleteTask id cost } w' =
      if w' = w then (inFlightOf s w).erase id else inFlightOf s w' := by
  unfold inFlightOf
  rw [get_modify s.conns w w' (f := fun c => c.CompleteTask id cost) (fun _ => rfl)]
  split_ifs with hw
  · rcases s.conns.get w with _ | c
    · simp
    · rfl
  · rfl

lemma sheds_exec {c : Call β} {b : β} (hc : Unassigning c) (h : exec stores c s b t) :
    Sheds s t := by
  intro w'
  by_cases hs : Still c
  · rw [(sameBooks_exec hs h).inFlightOf]
  cases c with
  | subtractCapacity => exact hc.elim
  | saveJob job =>
    rcases h with ⟨-, rfl⟩ | ⟨-, rfl⟩ <;> exact subset_rfl
  | pushItem job =>
    subst h
    exact subset_rfl
  | restoreCapacity w id cost =>
    rcases h with ⟨-, -, rfl⟩ | ⟨-, rfl⟩
    · exact subset_rfl
    rw [inFlightOf_restore]
    split_ifs with hw
    · subst hw
      exact Finset.erase_subset _ _
    · exact subset_rfl
  | _ => exact absurd trivial hs

/-- The program ends with the job no longer in flight on the connection. -/
abbrev Frees (cfg : Config) {α : Type} (p : M α) (w : ConnID) (id : String) (s : World) : Prop :=
  Prog.wp (exec cfg.toStores) (fun _ _ => True) p (fun _ t => id ∉ inFlightOf t w) s

/-- Whatever comes before it and is not booked after it, taking the job off frees it. -/
lemma frees_restore {cost : ℤ} {f : Bool → M α} (hlanes : cfg.lanes = true)
    (hf : (f true).Uses Unassigning) :
    Frees cfg (restoreCapacity w jobID cost >>= f) w jobID s := by
  refine wp_step trivial fun ok t ht => ?_
  obtain ⟨rfl, rfl⟩ := exec_restoreCapacity hlanes ht
  refine wp_of_uses (R := Sheds) (fun _ _ => subset_rfl)
    (fun _ _ _ h h' w => (h' w).trans (h w)) sheds_exec (fun _ => trivial) hf
    fun _ u hu hmem => ?_
  have hin := hu w hmem
  rw [inFlightOf_restore, if_pos rfl] at hin
  exact absurd hin (Finset.notMem_erase _ _)

lemma frees_bind {id : String} {p : M β} {f : β → M α} (hf : ∀ b t, Frees cfg (f b) w id t) :
    Frees cfg (p >>= f) w id s :=
  (wp_bind p f _ s).mpr (wp_of_forall hf)

lemma frees_handleJobCompleted (hlanes : cfg.lanes = true)
    (hget : s.jobs.get msg.JobID = some job) (hopen : ¬job.Status.IsTerminal) :
    Frees cfg (handleJobCompleted w job msg) w job.ID s := by
  unfold handleJobCompleted
  rw [if_neg hopen]
  refine wp_step trivial fun updated t ht => ?_
  obtain ⟨now, hupdated, -⟩ := ht
  rw [if_neg (by simp [hupdated, hget])]
  refine frees_bind fun runID u => frees_bind fun _ v => frees_restore hlanes ?_
  refine uses_bind _ (uses_mono unassigning_call (quiet_enqueue _ _ _)) fun _ => ?_
  exact uses_checkSiblings (fun _ => trivial) (fun _ => trivial) (fun _ => trivial)
    (fun _ => trivial) _

lemma frees_handleJobError (hlanes : cfg.lanes = true) (hopen : ¬job.Status.IsTerminal) :
    Frees cfg (handleJobError cfg w job msg) w job.ID s := by
  have huses := uses_handleJobError unassigning_call cfg w job msg (fun _ _ _ => trivial)
    (fun _ _ _ => trivial) (fun _ _ => trivial) (fun _ => trivial) fun _ _ => trivial
  unfold handleJobError at huses ⊢
  rw [if_neg hopen] at huses ⊢
  exact frees_restore hlanes (huses.2 true)

/-- The job has not ended, or its result is the list of its children. -/
def Answerable (s : World) (msg : ResultMessage) : Prop :=
  msg.ResultType = .subjobs ∨ ∀ j, s.jobs.get msg.JobID = some j → ¬j.Status.IsTerminal

lemma frees_handleResultMessage (hlanes : cfg.lanes = true)
    (hstored : s.jobs.get msg.JobID ≠ none) (ha : Answerable s msg) :
    Frees cfg (handleResultMessage cfg w msg) w msg.JobID s := by
  refine wp_step trivial fun found t ht => ?_
  obtain ⟨hget, rfl⟩ := ht
  cases found with
  | none => exact absurd hget.symm hstored
  | some job =>
    have hid : job.ID = msg.JobID := key_of_get hget.symm
    rw [← hid]
    dsimp only
    split
    · next htype =>
      refine frees_handleJobError hlanes (ha.resolve_left ?_ job hget.symm)
      rw [htype]
      decide
    · refine frees_bind fun runID u => frees_bind fun err v => frees_restore hlanes ?_
      cases err with
      | some err => exact uses_mono unassigning_call (quiet_SendError _ _ _)
      | none => exact uses_mono unassigning_call (quiet_closeRun _ _ _ _ _ _ _)
    · next htype =>
      refine frees_handleJobCompleted hlanes (hid ▸ hget.symm) (ha.resolve_left ?_ job hget.symm)
      rw [htype]
      decide

lemma same_handleResultMessage (ha : ¬Answerable s msg) :
    Prog.wp (exec cfg.toStores) (fun _ _ => True) (handleResultMessage cfg w msg)
      (fun _ t => Same s t) s := by
  unfold Answerable at ha
  push Not at ha
  obtain ⟨htype, j, hj, hterm⟩ := ha
  refine wp_step trivial fun found t ht => ?_
  obtain ⟨hget, rfl⟩ := ht
  rw [hj] at hget
  subst hget
  dsimp only
  split
  · unfold handleJobError
    split_ifs
    · refine wp_quiet (fun _ => trivial) (uses_bind _ (quiet_resolveRunID _ _) fun _ =>
        quiet_closeRun _ _ _ _ _ _ _) fun _ u hu => hu
    · exact Same.refl _
  · next h => exact absurd h htype
  · unfold handleJobCompleted
    rw [if_pos hterm]
    exact Same.refl _

/-! ### Operations -/

lemma sameBooks_removeConn (c : WorkerConn) (s : World) : SameBooks s (removeConnLocked c s) :=
  ⟨fun _ => rfl, fun _ => rfl, fun job hjob => ⟨job, hjob, rfl, rfl⟩,
    Finset.Subset.refl s.issued⟩

lemma balanced_registers {c : WorkerConn} (h : Balanced s) (hin : c.inFlight = ∅)
    (hocc : c.occupiedCost = 0) (hr : Registers c s t) : Balanced t := by
  unfold Registers at hr
  split at hr
  · next old _ =>
    obtain ⟨ids, -, rfl⟩ := hr
    refine Balanced.addConn ?_ hin hocc
    have hold := h.same (sameBooks_removeConn old s)
    unfold replaceOld
    split_ifs
    · exact ⟨hold.occupied, hold.stored, hold.queue, hold.issued⟩
    · exact hold
  · subst hr
    exact h.addConn hin hocc

/-- **One operation** keeps the books right, as long as its calls do. -/
theorem balanced_step {op : Op} (h : Balanced s)
    (hs : stepBy cfg (booking cfg.toStores) s op t) : Balanced t := by
  cases op with
  | submit req => exact balanced_of_knows (knows_handleSubmitJob req) h hs
  | processQueue => exact balanced_of_knows knows_ProcessQueue h hs
  | register conn id os arch capacity => exact balanced_registers h rfl rfl hs.2.2.2.2
  | requeue ids =>
    exact balanced_of_knows (s := { s with requeues := s.requeues.erase ids })
      (knows_OnJobsRequeued ids) ⟨h.occupied, h.stored, h.queue, h.issued⟩ hs.2
  | unregister conn =>
    obtain ⟨w, ids, -, -, hp⟩ := hs
    exact balanced_of_knows (knows_OnJobsRequeued ids) (h.same (sameBooks_removeConn w s)) hp
  | heartbeat conn | capacity conn | forget conn =>
    subst hs
    refine h.same (SameBooks.modify ?_ ?_ conn) <;> exact fun _ => rfl
  | saveTask | deleteTask =>
    subst hs
    exact ⟨h.occupied, h.stored, h.queue, h.issued⟩
  | accept => exact balanced_of_knows (knows_handleAcceptMessage _ _ _) h hs
  | staged => exact balanced_of_knows (knows_handleStagedMessage _) h hs
  | starting => exact balanced_of_knows (knows_handleStartingMessage _ _ _) h hs
  | reject => exact balanced_of_knows (knows_handleRejectMessage _ _) h hs
  | result => exact balanced_of_knows (knows_handleResultMessage _ _) h hs
  | retry jobID =>
    exact balanced_of_knows (s := { s with timers := s.timers.erase jobID })
      (knows_retryTimer jobID) ⟨h.occupied, h.stored, h.queue, h.issued⟩ hs.2
  | cancel => exact balanced_of_knows (knows_cancelJobByID _) h hs

/-- **A result settles the account of its job** exactly when the job has not ended, or has
emitted children. After any run of operations whose calls are booked, the result of an
in-flight job leaves every connection's count at the sum of what it still has in flight, and
the job is in flight no more if and only if its record was not terminal. -/
theorem result_settles_iff (cfg : Config) (hlanes : cfg.lanes = true) {s : World}
    (h : Balanced s) {tr : List (World × Op)} {u v : World}
    (hrun : Run (stepBy cfg (booking cfg.toStores)) s tr u)
    {w : ConnID} {msg : ResultMessage} (hstep : stepBy cfg (booking cfg.toStores) u (.result w msg) v)
    (hin : msg.JobID ∈ inFlightOf u w) :
    (∀ w' c, v.conns.get w' = some c → c.occupiedCost = ∑ id ∈ c.inFlight, costOf v id) ∧
      (msg.JobID ∉ inFlightOf v w ↔ Answerable u msg) := by
  have hu : Balanced u :=
    hrun.invariant (G := fun _ _ => True) (fun _ _ _ h _ hs => balanced_step h hs)
      (fun _ _ => trivial) h u Run.last_mem
  have hperforms : Performs (exec cfg.toStores) (handleResultMessage cfg w msg) u v :=
    performs_mono (fun hc => hc.2) hstep
  obtain ⟨a, hends⟩ := hperforms
  refine ⟨(balanced_step hu hstep).occupied, fun hout => ?_, fun ha => ?_⟩
  · by_contra hnot
    have hsame := wp_sound (same_handleResultMessage hnot) hends
    refine hout ?_
    unfold inFlightOf
    rw [hsame.conns]
    exact hin
  · have hstored : u.jobs.get msg.JobID ≠ none := by
      unfold inFlightOf at hin
      rcases hc : u.conns.get w with _ | c
      · simp [hc] at hin
      · rw [hc, Option.map_some, Option.getD_some] at hin
        obtain ⟨j, hj, -⟩ := hu.stored w c hc _ hin
        simp [hj]
    exact wp_sound (frees_handleResultMessage hlanes hstored ha) hends

/-! ### A running job -/

/-- Jobs are booked on connections that do not have them, and taken off those that do. -/
def booked : {β : Type} → Call β → World → Bool
  | _, .subtractCapacity w id _, s => id ∉ inFlightOf s w
  | _, .restoreCapacity w id _, s => id ∈ inFlightOf s w
  | _, _, _ => true

lemma booking_of_booked {c : Call β} {b : β} (h : booked c s) (he : exec stores c s b t) :
    booking stores c s b t := by
  refine ⟨?_, he⟩
  cases c with
  | subtractCapacity w id =>
    intro c hc hid
    simp [booked, inFlightOf, hc, hid] at h
  | restoreCapacity w id =>
    intro c hc hid
    simp [booked, inFlightOf, hc, hid] at h
  | _ => trivial

lemma balanced_initial : Balanced World.initial where
  occupied _ _ h := by cases h
  stored _ _ h := by cases h
  queue _ h := by cases h
  issued _ h := absurd rfl h

/-- A worker takes up a job with a cost. -/
def takesUp : List Op :=
  [.saveTask { Name := "t", Cost := 3 }, .submit { Task := "t" }, connects 0, .processQueue,
    .accept 0 "w" "j"]

theorem result_settles_iff_completed :
    ∃ tr u v, Run (stepBy .defaults (booking Config.defaults.toStores)) World.initial tr u ∧
      stepBy .defaults (booking Config.defaults.toStores) u
        (.result 0 ⟨"j", "", .success, "", 0, [], none⟩) v ∧
      (u.conns.get 0).map WorkerConn.occupiedCost = some 3 ∧
      (∀ w c, v.conns.get w = some c → c.occupiedCost = ∑ id ∈ c.inFlight, costOf v id) ∧
      "j" ∉ inFlightOf v 0 := by
  obtain ⟨tr, u, v, hrun, hstep, hin, hcost, hopen⟩ : ∃ tr u v,
      Run (stepBy .defaults (booking Config.defaults.toStores)) World.initial tr u ∧
      stepBy .defaults (booking Config.defaults.toStores) u
        (.result 0 ⟨"j", "", .success, "", 0, [], none⟩) v ∧ "j" ∈ inFlightOf u 0 ∧
      (u.conns.get 0).map WorkerConn.occupiedCost = some 3 ∧
      ∀ j ∈ u.jobs.get "j", ¬j.Status.IsTerminal :=
    ⟨_, _, _, run_guarded (g := booked) booking_of_booked { ids := ["j", "r"] }
      (rfl : playOps _ _ takesUp _ = _),
      stepBy_of_play (g := booked) (x := ({}, _)) booking_of_booked rfl, by decide, by decide,
      by decide⟩
  have h := result_settles_iff .defaults rfl balanced_initial hrun hstep hin
  exact ⟨tr, u, v, hrun, hstep, hcost, h.1, h.2.mpr (.inr hopen)⟩

/-- **A cancelled job is never taken off its connection.** The worker answers the cancel with
an error result. The handler returns early, since the job has ended: the job stays in flight
and its cost stays occupied. -/
theorem cancelled_stays_in_flight :
    ∃ tr t, Run (step .defaults) World.initial tr t ∧ tr.map Prod.snd =
        takesUp ++ [.cancel "j", .result 0 ⟨"j", "", .error, "cancelled", 1, [], none⟩] ∧
      (t.jobs.get "j").map Job.Status = some .cancelled ∧ t.sent.getLast? = some (0, .cancel "j") ∧
      "j" ∈ inFlightOf t 0 ∧ (t.conns.get 0).map WorkerConn.occupiedCost = some 3 :=
  ⟨_, _, run_played (takesUp ++ [.cancel "j",
    .result 0 ⟨"j", "", .error, "cancelled", 1, [], none⟩]) { ids := ["j", "r"] } rfl,
    rfl, by decide, by decide, by decide, by decide⟩

end Workforce.Settled
