import Workforce.WorkerSide

/-!
What a worker has reserved.

`usedCap` counts the costs of the jobs that were accepted and of those that run. A message that
is sent again for a job can break the count: the second proposal of a pending job adds its cost
again but replaces the entry, and the dispatch of a job that runs replaces its task. The count is
kept exactly if neither happens to an entry with a cost, and no sum leaves the 64-bit integers.
-/

namespace Workforce.Reservations

open Tables Runs WorkerSide Decimal
open Frames (ProposeMessage DispatchMessage)

variable {F : Type}

/-! ### Events -/

/-- What changes a worker: the messages of the manager, in any order and any number of times, and
the ends of runs. -/
inductive Event (F : Type)
  | propose (host : Host) (msg : ProposeMessage)
  | dispatch (msg : DispatchMessage F)
  | cancel (jobID : String)
  | system (command : String)
  | release (jobID : String)

def next (w : Worker) : Event F → Worker
  | .propose host msg => (handlePropose w host msg).1
  | .dispatch msg => (handleDispatch w msg).1
  | .cancel jobID => handleCancel w jobID
  | .system command => handleSystem w command
  | .release jobID => releaseTask w jobID

/-- Costs are non-negative integers of 64 bits. -/
def Valid : Event F → Prop
  | .propose _ msg => 0 ≤ msg.Cost ∧ IsInt64 msg.Cost
  | _ => True

def step (w : Worker) (e : Event F) (w' : Worker) : Prop := Valid e ∧ w' = next w e

def connected (capacity : ℤ) : Worker := { Capacity := capacity }

/-- **The count is right**: it is the sum of the costs of pending and of running jobs, and within
the capacity. -/
structure Counted (w : Worker) : Prop where
  sum : w.usedCap = w.pendingJobs.total ProposeMessage.Cost + w.tasks.total activeTask.cost
  nonneg : 0 ≤ w.usedCap
  le : w.usedCap ≤ w.Capacity

def Accepts (w : Worker) (host : Host) (msg : ProposeMessage) : Prop :=
  w.state = .online ∧ host.overLimit = false ∧ host.missing = [] ∧ canAccept w msg

/-- Nothing that has a cost is replaced, and the count stays a 64-bit integer. -/
def Sound (w : Worker) : Event F → Prop
  | .propose host msg => Accepts w host msg →
      w.usedCap + msg.Cost < 2 ^ 63 ∧
        ∀ old, w.pendingJobs.get msg.JobID = some old → old.Cost = 0
  | .dispatch msg => (w.pendingJobs.get msg.JobID).isSome →
      ∀ old, w.tasks.get msg.JobID = some old → old.cost = 0
  | _ => True

/-- What holds whatever comes: no cost is negative, and the capacity is a 64-bit integer. -/
structure Costed (w : Worker) : Prop where
  pending : ∀ p ∈ w.pendingJobs.values, 0 ≤ p.Cost
  tasks : ∀ t ∈ w.tasks.values, 0 ≤ t.cost
  capacity : IsInt64 w.Capacity

variable {w w' : Worker} {host : Host} {msg : ProposeMessage}

/-! ### What each event does -/

lemma propose_accepted (h : Accepts w host msg) : (handlePropose w host msg).1 =
    { w with
      usedCap := wrap64 (w.usedCap + msg.Cost)
      pendingJobs := w.pendingJobs.put msg } := by
  obtain ⟨h1, h2, h3, h4⟩ := h
  simp [handlePropose, h1, h2, h3, h4]

lemma propose_refused (h : ¬Accepts w host msg) : (handlePropose w host msg).1 = w := by
  unfold handlePropose
  split_ifs with h1 h2 h3 h4
  · rfl
  · rfl
  · rfl
  · exact (h ⟨not_not.mp h1, by simpa using h2, not_not.mp h3, h4⟩).elim
  · rfl

/-- The books of a worker: all that the count is about. -/
structure SameBooks (w w' : Worker) : Prop where
  usedCap : w'.usedCap = w.usedCap
  pending : w'.pendingJobs = w.pendingJobs
  tasks : w'.tasks = w.tasks
  capacity : w'.Capacity = w.Capacity

lemma Counted.same (h : SameBooks w w') : Counted w' ↔ Counted w := by
  obtain ⟨h1, h2, h3, h4⟩ := h
  constructor
  · rintro ⟨hs, hn, hl⟩
    exact ⟨by rw [← h1, ← h2, ← h3]; exact hs, h1 ▸ hn, h1 ▸ h4 ▸ hl⟩
  · rintro ⟨hs, hn, hl⟩
    exact ⟨by rw [h1, h2, h3]; exact hs, h1 ▸ hn, h1 ▸ h4 ▸ hl⟩

lemma sameBooks_system (w : Worker) (command : String) : SameBooks w (handleSystem w command) := by
  unfold handleSystem
  split_ifs <;> exact ⟨rfl, rfl, rfl, rfl⟩

lemma sameBooks_release (w : Worker) (jobID : String) :
    SameBooks (dropTask w jobID) (releaseTask w jobID) := by
  unfold releaseTask
  dsimp only
  split_ifs <;> exact ⟨rfl, rfl, rfl, rfl⟩

lemma Costed.same (h : SameBooks w w') (hw : Costed w) : Costed w' := by
  obtain ⟨-, h2, h3, h4⟩ := h
  exact ⟨h2 ▸ hw.pending, h3 ▸ hw.tasks, h4 ▸ hw.capacity⟩

lemma Costed.dropTask (h : Costed w) (jobID : String) : Costed (dropTask w jobID) := by
  unfold WorkerSide.dropTask
  split
  · exact ⟨h.pending, fun t ht => h.tasks t (mem_values_of_mem_erase ht), h.capacity⟩
  · exact h

lemma Costed.handleCancel (h : Costed w) (jobID : String) : Costed (handleCancel w jobID) := by
  refine ⟨h.pending, fun t ht => ?_, h.capacity⟩
  unfold WorkerSide.handleCancel Table.modify at ht
  dsimp only at ht
  split at ht
  next old hold =>
    rcases mem_values_of_mem_put ht with rfl | ht
    · exact h.tasks old (mem_values.mpr (key_of_get hold ▸ hold))
    · exact h.tasks t ht
  next => exact h.tasks t ht

lemma Costed.handleDispatch (h : Costed w) (msg : DispatchMessage F) :
    Costed (handleDispatch w msg).1 := by
  unfold WorkerSide.handleDispatch
  split
  next => exact h
  next proposal hpending =>
    have hcost : 0 ≤ proposal.Cost :=
      h.pending proposal (mem_values.mpr (key_of_get hpending ▸ hpending))
    refine ⟨fun p hp => h.pending p (mem_values_of_mem_erase hp), fun t ht => ?_, h.capacity⟩
    rcases mem_values_of_mem_put ht with rfl | ht
    · exact hcost
    · exact h.tasks t ht

/-- Costs stay non-negative whatever comes. -/
lemma costed_step {e : Event F} (h : Costed w) (hstep : step w e w') : Costed w' := by
  obtain ⟨hvalid, rfl⟩ := hstep
  cases e with
  | propose host msg =>
    by_cases hacc : Accepts w host msg
    · rw [next, propose_accepted hacc]
      refine ⟨fun p hp => ?_, h.tasks, h.capacity⟩
      rcases mem_values_of_mem_put hp with rfl | hp
      · exact hvalid.1
      · exact h.pending p hp
    · rw [next, propose_refused hacc]
      exact h
  | dispatch msg => exact h.handleDispatch msg
  | cancel jobID => exact h.handleCancel jobID
  | system command => exact h.same (sameBooks_system w command)
  | release jobID => exact (h.dropTask jobID).same (sameBooks_release w jobID)

/-! ### Which events keep the count -/

lemma getD_eq_zero_iff {α : Type} {o : Option α} {f : α → ℤ} :
    (o.map f).getD 0 = 0 ↔ ∀ a, o = some a → f a = 0 := by
  cases o <;> simp

lemma propose_iff (hj : Costed w) (hi : Counted w) (hvalid : 0 ≤ msg.Cost ∧ IsInt64 msg.Cost) :
    Sound w (.propose host msg : Event F) ↔ Counted (handlePropose w host msg).1 := by
  by_cases hacc : Accepts w host msg
  · obtain ⟨hsum, hnonneg, hle⟩ := hi
    obtain ⟨h0, -, hmax⟩ := hvalid
    have hcap := hj.capacity.2
    have hroom : wrap64 (w.usedCap + msg.Cost) ≤ w.Capacity := hacc.2.2.2
    rw [propose_accepted hacc, Sound, imp_iff_right hacc, ← getD_eq_zero_iff]
    have htotal := @total_put _ _ _ _ ProposeMessage.Cost w.pendingJobs msg
    constructor
    · rintro ⟨hfits, hold⟩
      -- the sum is not wrapped, and nothing is taken out of it
      have hwrap : wrap64 (w.usedCap + msg.Cost) = w.usedCap + msg.Cost :=
        wrap64_eq ⟨by omega, hfits⟩
      refine ⟨?_, ?_, hroom⟩
      · dsimp only
        omega
      · dsimp only
        omega
    · rintro ⟨hsum', hnonneg', -⟩
      dsimp only at hsum' hnonneg'
      have hfits : w.usedCap + msg.Cost < 2 ^ 63 := by
        by_contra hover
        unfold wrap64 at hnonneg'
        omega
      have hwrap : wrap64 (w.usedCap + msg.Cost) = w.usedCap + msg.Cost :=
        wrap64_eq ⟨by omega, hfits⟩
      exact ⟨hfits, by omega⟩
  · rw [propose_refused hacc]
    exact iff_of_true (fun h => absurd h hacc) hi

lemma dispatch_iff {msg : DispatchMessage F} (hi : Counted w) :
    Sound w (.dispatch msg) ↔ Counted (handleDispatch w msg).1 := by
  unfold handleDispatch
  split
  next hpending => simpa [Sound, hpending] using hi
  next proposal hpending =>
    obtain ⟨hsum, hnonneg, hle⟩ := hi
    have hpend := @total_erase _ _ _ _ _ _ _ ProposeMessage.Cost hpending
    have htask := @total_put _ _ _ _ activeTask.cost w.tasks
      { JobID := msg.JobID, cost := proposal.Cost, runID := msg.RunID }
    dsimp only at htask
    rw [Sound, hpending, imp_iff_right Option.isSome_some, ← getD_eq_zero_iff]
    constructor
    · intro hold
      refine ⟨?_, hnonneg, hle⟩
      dsimp only
      omega
    · rintro ⟨hsum', -, -⟩
      dsimp only at hsum'
      omega

lemma Counted.handleCancel (h : Counted w) (jobID : String) : Counted (handleCancel w jobID) := by
  refine ⟨?_, h.nonneg, h.le⟩
  have htask : (WorkerSide.handleCancel w jobID).tasks.total activeTask.cost =
      w.tasks.total activeTask.cost := by
    unfold WorkerSide.handleCancel
    exact total_modify (fun _ => by rfl) (fun _ => by rfl) _ _
  rw [htask]
  exact h.sum

lemma Counted.dropTask (hj : Costed w) (h : Counted w) (jobID : String) :
    Counted (dropTask w jobID) := by
  unfold WorkerSide.dropTask
  split
  next t ht =>
    obtain ⟨hsum, hnonneg, hle⟩ := h
    have hpend := total_nonneg hj.pending
    have htask := total_nonneg (hj.dropTask jobID).tasks
    have hcost := hj.tasks t (mem_values.mpr (key_of_get ht ▸ ht))
    have hcap := hj.capacity.2
    rw [WorkerSide.dropTask, ht, total_erase ht] at htask
    have hwrap : wrap64 (w.usedCap - t.cost) = w.usedCap - t.cost :=
      wrap64_eq ⟨by omega, by omega⟩
    refine ⟨?_, ?_, ?_⟩
    · dsimp only
      rw [hwrap, total_erase ht]
      omega
    · dsimp only
      omega
    · dsimp only
      omega
  next => exact h

lemma step_iff {e : Event F} (hj : Costed w) (hi : Counted w) (hstep : step w e w') :
    Sound w e ↔ Counted w' := by
  obtain ⟨hvalid, rfl⟩ := hstep
  cases e with
  | propose host msg => exact propose_iff hj hi hvalid
  | dispatch msg => exact dispatch_iff hi
  | cancel jobID => exact iff_of_true trivial (hi.handleCancel jobID)
  | system command => exact iff_of_true trivial ((Counted.same (sameBooks_system w command)).mpr hi)
  | release jobID =>
    exact iff_of_true trivial
      ((Counted.same (sameBooks_release w jobID)).mpr (Counted.dropTask hj hi jobID))

/-! ### Whole connections -/

/-- **Reserved capacity**: on a connection, the count is right in every state exactly if every
event is sound: no proposal is accepted again while an entry with a cost is pending, no dispatch
replaces a running task with a cost, and no sum overflows. -/
theorem counted_iff_sound {capacity : ℤ} (hone : 1 ≤ capacity) (hfits : IsInt64 capacity)
    {tr : List (Worker × Event F)} (hrun : Run step (connected capacity) tr w) :
    (∀ u ∈ states tr w, Counted u) ↔ Meets Sound tr := by
  have hcosted : Costed (connected capacity) :=
    ⟨(fun _ h => nomatch h), (fun _ h => nomatch h), hfits⟩
  have hcounted : Counted (connected capacity) :=
    ⟨rfl, le_refl 0, le_trans Int.one_nonneg hone⟩
  exact hrun.always_iff (fun _ _ _ hj hstep => costed_step hj hstep)
    (fun _ _ _ hj hi hstep => step_iff hj hi hstep) hcosted hcounted

/-! ### Runs -/

def trace (w : Worker) : List (Event F) → List (Worker × Event F)
  | [] => []
  | e :: es => (w, e) :: trace (next w e) es

lemma run_trace (w : Worker) (es : List (Event F)) (h : ∀ e ∈ es, Valid e) :
    Run step w (trace w es) (es.foldl next w) := by
  induction es generalizing w with
  | nil => exact .nil w
  | cons e es ih =>
    obtain ⟨he, hes⟩ := List.forall_mem_cons.mp h
    exact .cons ⟨he, rfl⟩ (ih _ hes)

/-- A job that is proposed, dispatched and done. -/
def oneJob : List (Event Unit) := [.propose {} proposed, .dispatch dispatched, .release "j"]

lemma sound_oneJob : Meets Sound (trace (connected 1) oneJob) := by
  intro p hp
  simp only [oneJob, trace, List.mem_cons, List.not_mem_nil, or_false] at hp
  rcases hp with rfl | rfl | rfl
  · exact fun _ => ⟨by decide, fun _ h => nomatch h⟩
  · exact fun _ _ h => nomatch h
  · trivial

theorem counted_oneJob :
    Meets Sound (trace (connected 1) oneJob) ∧
    ∀ u ∈ states (trace (connected 1) oneJob) (oneJob.foldl next (connected 1)), Counted u :=
  ⟨sound_oneJob, (counted_iff_sound (by decide) (by decide) (run_trace _ _ (by simp [oneJob,
    Valid, proposed, IsInt64]))).mpr sound_oneJob⟩

def twice : List (Event Unit) := [.propose {} proposed, .propose {} proposed]

/-- It is counted twice and kept once. -/
theorem counted_twice :
    Run step (connected 2) (trace (connected 2) twice) (twice.foldl next (connected 2)) ∧
      ¬Counted (twice.foldl next (connected 2)) :=
  ⟨run_trace _ _ (by simp [twice, Valid, proposed, IsInt64]),
    fun h => absurd h.sum (by decide +kernel)⟩

end Workforce.Reservations
