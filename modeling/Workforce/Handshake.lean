import Workforce.Settled

/-!
The proposal of a job and the worker's reply.

The dispatcher sends the proposal first, then writes the job's status, then books the job on
the connection. The worker may answer as soon as the frame is out, and the answer is handled
by another goroutine, so its calls fall anywhere between those of the dispatcher.
-/

namespace Workforce.Handshake

open Tables Contract Progs Shared Calls Handlers Dispatcher Operations Footprints Copies Ledger
open Settled Runs

/-! ### The two goroutines -/

inductive Reply
  | accept (workerID : String)
  | reject

def Reply.handle (cfg : Config) : Reply → ConnID → String → M Unit
  | .accept workerID, w, jobID => handleAcceptMessage cfg w workerID jobID
  | .reject, w, jobID => handleRejectMessage w jobID

/-- The shared state, what is left of the dispatcher's work on the job, and, once the proposal
has been sent, the connection it went to and what is left of handling the reply. -/
structure System where
  world : World
  dispatcher : M (Except DispatchError Unit)
  reply : Option (ConnID × M Unit)

inductive Actor
  | dispatcher | worker
  deriving DecidableEq

/-- A proposal that was sent lets the handler of its reply start. -/
def started (handle : ConnID → String → M Unit) :
    {β : Type} → Call β → β → Option (ConnID × M Unit) → Option (ConnID × M Unit)
  | _, .send w (.propose job _ _), true, _ => some (w, handle w job.ID)
  | _, _, _, r => r

inductive Step (cfg : Config) (reply : Reply) : System → Actor → System → Prop
  | dispatcher {s t : World} {β : Type} {c : Call β}
      {k : β → M (Except DispatchError Unit)} {b : β} {r : Option (ConnID × M Unit)} :
      exec cfg.toStores c s b t →
      Step cfg reply ⟨s, .call c k, r⟩ .dispatcher ⟨t, k b, started (reply.handle cfg) c b r⟩
  | worker {s t : World} {β : Type} {c : Call β} {k : β → M Unit} {b : β} {w : ConnID}
      {d : M (Except DispatchError Unit)} :
      exec cfg.toStores c s b t →
      Step cfg reply ⟨s, d, some (w, .call c k)⟩ .worker ⟨t, d, some (w, k b)⟩

def occupiedOf (s : World) (w : ConnID) : ℤ :=
  ((s.conns.get w).map WorkerConn.occupiedCost).getD 0

/-! ### The condition -/

/-- A call other than the one that marks the job proposed. -/
def Unproposing : {β : Type} → Call β → Prop
  | _, .updateJob _ .proposing => False
  | _, _ => True

/-- The dispatcher's call: a job without a cost is not proposed to a worker that is full. -/
def Roomy : {β : Type} → Call β → World → Prop
  | _, .send w (.propose job _ _), s =>
    job.Cost = 0 → ∀ c, s.conns.get w = some c → 0 < c.AvailableCapacity
  | _, _, _ => True

/-- The handler's call: the capacity is restored after the dispatcher has booked the job (or
when the booking will fail, the worker being full and the job without a cost), and the job is
marked accepted after it has been marked proposed. -/
def InTurn (d : M (Except DispatchError Unit)) : {β : Type} → Call β → World → Prop
  | _, .restoreCapacity w _ cost, s =>
    d.Uses Unassigning ∨
      cost = 0 ∧ ∀ c, s.conns.get w = some c → c.AvailableCapacity ≤ 0
  | _, .updateJob _ .accepted, _ => d.Uses Unproposing
  | _, _, _ => True

/-- The call about to be made comes in its turn. -/
def Ordered (reply : Reply) (h : System) : Actor → Prop
  | .dispatcher => reply ≠ .reject → ∀ (β : Type) (c : Call β) k,
      h.dispatcher = .call c k → Roomy c h.world
  | .worker => ∀ (β : Type) (c : Call β) w k,
      h.reply = some (w, .call c k) → InTurn h.dispatcher c h.world

/-! ### Calls that change neither records nor accounts -/

section Calls

variable {cfg : Stores} {s t : World}

/-- A call that changes no record of a job and no account. -/
def Idle : {β : Type} → Call β → Prop
  | _, .createRun _ => True
  | _, .putRejected _ _ => True
  | _, .pushItem _ => True
  | _, c => Quiet c

lemma idle_call {β : Type} (c : Call β) (hc : Quiet c) : Idle c := by
  cases c <;> trivial

/-- The capacity of a connection and what it has booked. -/
def view (c : WorkerConn) : ℤ × Finset String × ℤ := (c.capacity, account c)

/-- The same records of jobs, and the same capacities and accounts. -/
structure SameView (s t : World) : Prop where
  jobs : t.jobs = s.jobs
  views : ∀ w, (t.conns.get w).map view = (s.conns.get w).map view

lemma SameView.of_same (h : Same s t) : SameView s t := ⟨h.jobs, fun w => by rw [h.conns]⟩

lemma sameView_exec {β : Type} {c : Call β} {b : β} (hc : Idle c) (h : exec cfg c s b t) :
    SameView s t := by
  cases c with
  | createRun run => exact .of_same (same_of_createRun h)
  | putRejected w id =>
    subst h
    refine ⟨rfl, fun w' => ?_⟩
    rw [get_modify s.conns w w' (f := fun c => { c with
      rejectedJobsCache := insert id c.rejectedJobsCache }) (fun _ => rfl)]
    split_ifs with hw
    · subst hw
      rw [Option.map_map]
      rfl
    · rfl
  | pushItem job =>
    subst h
    exact ⟨rfl, fun _ => rfl⟩
  | _ => exact .of_same (same_of_quiet (by exact hc) h)

lemma SameView.get (h : SameView s t) {w : ConnID} {c : WorkerConn}
    (hc : s.conns.get w = some c) : ∃ c', t.conns.get w = some c' ∧ view c' = view c := by
  have hv := h.views w
  rw [hc, Option.map_some, Option.map_eq_some_iff] at hv
  exact hv

lemma started_of_quiet {handle : ConnID → String → M Unit} {β : Type} {c : Call β} (hc : Quiet c)
    (b : β) (r : Option (ConnID × M Unit)) : started handle c b r = r := by
  cases c with
  | send w f =>
    cases f with
    | propose => exact hc.elim
    | _ => cases b <;> rfl
  | _ => rfl

end Calls

/-! ### The dispatcher -/

section Dispatcher

variable {cfg : Config} {job : Job} {c0 : WorkerConn} {s t : World}

/-- What is left once the job is marked proposed. -/
def reserve (job : Job) (selected : WorkerConn) : M (Except DispatchError Unit) := do
  let assigned ← Prog.lift (.subtractCapacity selected.conn job.ID job.Cost)
  if !assigned then return .error (.other "worker capacity")
  FireJobProposing job selected.workerID
  return .ok ()

/-- What is left once the proposal is sent. -/
def mark (job : Job) (selected : WorkerConn) : M (Except DispatchError Unit) := do
  let updated ← UpdateJob job.ID .proposing
  if updated = none then return .error (.other ("job " ++ job.ID.quote ++ " not found"))
  reserve job selected

/-- Only quiet calls are made before a proposal is sent, and then `Q` holds. -/
def Until (cfg : Stores) {α : Type} (Q : ConnID → Job → (Bool → M α) → World → Prop) :
    M α → World → Prop
  | .pure _, _ => True
  | .call (.send w (.propose job _ _)) k, s => Q w job k s
  | .call c k, s => Quiet c ∧ ∀ b t, exec cfg c s b t → Until cfg Q (k b) t

lemma until_call {α β : Type} {Q : ConnID → Job → (Bool → M α) → World → Prop} {c : Call β}
    {k : β → M α} (hc : Quiet c) :
    Until cfg.toStores Q (.call c k) s ↔
      ∀ b t, exec cfg.toStores c s b t → Until cfg.toStores Q (k b) t := by
  cases c with
  | send w f =>
    cases f with
    | propose => exact hc.elim
    | _ => exact ⟨fun h => h.2, fun h => ⟨hc, h⟩⟩
  | _ => exact ⟨fun h => h.2, fun h => ⟨hc, h⟩⟩

lemma until_step {α β : Type} {Q : ConnID → Job → (Bool → M α) → World → Prop} {c : Call β}
    {f : β → M α} (hc : Quiet c)
    (hf : ∀ b t, exec cfg.toStores c s b t → Until cfg.toStores Q (f b) t) :
    Until cfg.toStores Q (Prog.lift c >>= f) s :=
  (until_call hc).mpr hf

lemma until_bind {α β : Type} {Q : ConnID → Job → (Bool → M α) → World → Prop} {p : M β}
    {f : β → M α} (hp : p.Uses Quiet) (hf : ∀ b t, Same s t → Until cfg.toStores Q (f b) t) :
    Until cfg.toStores Q (p >>= f) s := by
  induction p generalizing s with
  | pure b => exact hf b s (Same.refl s)
  | call c k ih =>
    rw [Prog.call_bind, until_call hp.1]
    intro b t ht
    refine ih b (hp.2 b) fun b' u hu => hf b' u ?_
    exact (same_of_quiet hp.1 ht).trans hu

/-- The job is about to be proposed to a connection that was found to have room for it. -/
structure Offered (job : Job) (s : World) (c0 : WorkerConn) : Prop where
  conn : s.conns.get c0.conn = some c0
  cost : 0 ≤ job.Cost
  fits : job.Cost = 0 ∨ job.Cost ≤ c0.AvailableCapacity

/-- The proposal goes to a connection that was found to have room, and is then recorded. -/
def Proposes (job : Job) (w : ConnID) (job' : Job) (k : Bool → M (Except DispatchError Unit))
    (s : World) : Prop :=
  job' = job ∧ ∃ c0, c0.conn = w ∧ Offered job s c0 ∧
    k = fun sent => if !sent then pure (.error (.other "send")) else mark job c0

lemma offered_of_eligible {keys : List String} {workers : List WorkerConn}
    (h : exec cfg.toStores (.eligibleWorkers keys job.Cost job.ID) s workers t) {c : WorkerConn}
    (hc : c ∈ workers) : Offered job s c := by
  obtain ⟨h, -⟩ := h
  split_ifs at h with hneg
  · rw [h] at hc
    cases hc
  · rw [h.mem_iff, List.mem_filter, decide_eq_true_iff] at hc
    exact ⟨get_of_mem_registered hc.1, not_lt.mp hneg, hc.2.2.2⟩
  · rw [h, List.mem_flatMap] at hc
    obtain ⟨k, -, hc⟩ := hc
    rw [List.mem_filter, decide_eq_true_iff] at hc
    exact ⟨get_of_mem_listed hc.1, not_lt.mp hneg, hc.2.2.2⟩

lemma until_tryProposeJob (keys : List String) :
    Until cfg.toStores (Proposes job) (tryProposeJob cfg job keys) s := by
  refine until_step trivial fun task t ht => ?_
  cases task with
  | none => trivial
  | some taskDef =>
    split_ifs
    · trivial
    refine until_step trivial fun workers u hu => ?_
    obtain rfl : u = t := hu.2
    split_ifs
    · trivial
    refine until_step trivial fun selected v hv => ?_
    obtain ⟨hmem, rfl⟩ := hv
    have ho := offered_of_eligible hu hmem
    refine until_bind (quiet_artifactFor cfg job taskDef selected) fun art x hx => ?_
    cases art with
    | error err => trivial
    | ok info =>
      refine ⟨rfl, selected, rfl, ⟨?_, ho.cost, ho.fits⟩, rfl⟩
      rw [hx.conns]
      exact ho.conn

/-- How far the dispatcher has got after the proposal was sent. -/
inductive Stage
  | marking | booking | done

def Stage.At (job : Job) (c0 : WorkerConn) : Stage → M (Except DispatchError Unit) → Prop
  | .marking, d => d = mark job c0
  | .booking, d => d = reserve job c0
  | .done, d => d.Uses Quiet

inductive Moves (cfg : Stores) (job : Job) (c0 : WorkerConn) :
    Stage → World → Stage → World → Prop
  | mark {s t : World} (now : Time) :
      t = { s with jobs := s.jobs.modify job.ID (JobMutation.proposing.apply now) } →
      Moves cfg job c0 .marking s .booking t
  | book {s t : World} (ok : Bool) :
      exec cfg (.subtractCapacity c0.conn job.ID job.Cost) s ok t →
      Moves cfg job c0 .booking s .done t
  | finish {s t : World} : Same s t → Moves cfg job c0 .done s .done t

lemma moves_dispatcher {handle : ConnID → String → M Unit} {stage : Stage} {β : Type}
    {c : Call β} {k : β → M (Except DispatchError Unit)} {b : β} (hp : Priced s job)
    (hat : stage.At job c0 (.call c k)) (he : exec cfg.toStores c s b t) :
    (∀ r, started handle c b r = r) ∧
      ∃ stage', stage'.At job c0 (k b) ∧ Moves cfg.toStores job c0 stage s stage' t := by
  cases stage with
  | marking =>
    cases hat
    obtain ⟨now, rfl, ht⟩ := he
    obtain ⟨j, hj, -⟩ := hp
    refine ⟨fun _ => rfl, .booking, ?_, .mark now ht⟩
    rw [hj]
    rfl
  | booking =>
    cases hat
    refine ⟨fun _ => rfl, .done, ?_, .book b he⟩
    show Prog.Uses Quiet (if !b then _ else _)
    split_ifs
    · trivial
    · exact uses_bind _ (quiet_enqueue _ _ _) fun _ => trivial
  | done =>
    obtain ⟨hc, hk⟩ := hat
    exact ⟨started_of_quiet hc b, .done, hk b, .finish (same_of_quiet hc he)⟩

end Dispatcher

/-! ### The account of the connection -/

section Accounts

variable {cfg : Config} {job : Job} {c0 c c' : WorkerConn} {s t : World} {stage stage' : Stage}

/-- Booking the job will fail: it costs nothing and the worker is full. -/
def Full (job : Job) (c0 : WorkerConn) : Prop := job.Cost = 0 ∧ c0.AvailableCapacity ≤ 0

/-- The account before the capacity is restored. -/
def Unrestored (job : Job) (c0 : WorkerConn) : Stage → WorkerConn → Prop
  | .done, c =>
    (c.inFlight = insert job.ID c0.inFlight ∧ c.occupiedCost = c0.occupiedCost + job.Cost) ∨
      Full job c0 ∧ account c = account c0
  | _, c => account c = account c0

/-- The account after the capacity has been restored. -/
def Restored (job : Job) (c0 : WorkerConn) (stage : Stage) (c : WorkerConn) : Prop :=
  (job.ID ∉ c.inFlight ∧ c.occupiedCost = c0.occupiedCost) ∧ (stage = .done ∨ Full job c0)

/-- The connection is there, with the capacity it had, and its account is as `P` says. -/
def Shows (P : WorkerConn → Prop) (c0 : WorkerConn) (s : World) : Prop :=
  ∃ c, s.conns.get c0.conn = some c ∧ c.capacity = c0.capacity ∧ P c

lemma Unrestored.of_account (h : Unrestored job c0 stage c) (ha : account c' = account c) :
    Unrestored job c0 stage c' := by
  have hin : c'.inFlight = c.inFlight := congrArg Prod.fst ha
  have hocc : c'.occupiedCost = c.occupiedCost := congrArg Prod.snd ha
  cases stage with
  | marking | booking => exact ha.trans h
  | done =>
    rcases h with ⟨h₁, h₂⟩ | ⟨hf, h⟩
    · exact .inl ⟨hin.trans h₁, hocc.trans h₂⟩
    · exact .inr ⟨hf, ha.trans h⟩

lemma Restored.of_account (h : Restored job c0 stage c) (ha : account c' = account c) :
    Restored job c0 stage c' := by
  have hin : c'.inFlight = c.inFlight := congrArg Prod.fst ha
  have hocc : c'.occupiedCost = c.occupiedCost := congrArg Prod.snd ha
  exact ⟨⟨by rw [hin]; exact h.1.1, hocc.trans h.1.2⟩, h.2⟩

lemma Shows.sameView {P : WorkerConn → Prop} (hP : ∀ {c c'}, P c → account c' = account c → P c')
    (h : Shows P c0 s) (hs : SameView s t) : Shows P c0 t := by
  obtain ⟨c, hc, hcap, hp⟩ := h
  obtain ⟨c', hc', hv⟩ := hs.get hc
  have hcap' : c'.capacity = c.capacity := congrArg Prod.fst hv
  exact ⟨c', hc', hcap'.trans hcap, hP hp (congrArg Prod.snd hv)⟩

lemma Shows.of_conns {P : WorkerConn → Prop} (h : Shows P c0 s) (hc : t.conns = s.conns) :
    Shows P c0 t := by
  unfold Shows
  rwa [hc]

lemma available_of_account (hcap : c.capacity = c0.capacity) (ha : account c = account c0) :
    c.AvailableCapacity = c0.AvailableCapacity := by
  have hocc : c.occupiedCost = c0.occupiedCost := congrArg Prod.snd ha
  unfold WorkerConn.AvailableCapacity
  rw [hcap, hocc]

/-- Booking fails only when the worker is full and the job costs nothing. -/
lemma AssignTask_cases (ho : Offered job s c0) (hav : c.AvailableCapacity = c0.AvailableCapacity) :
    Full job c0 ∧ c.AssignTask job.ID job.Cost = .error .ErrWorkerAtCapacity ∨
      ¬Full job c0 ∧ ∃ c', c.AssignTask job.ID job.Cost = .ok c' := by
  have hcost := ho.cost
  have hfits := ho.fits
  rw [← hav] at hfits
  unfold Full
  rw [← hav]
  unfold WorkerConn.AvailableCapacity at hfits ⊢
  unfold WorkerConn.AssignTask
  by_cases hfull : c.capacity - c.occupiedCost ≤ 0
  · rw [if_pos hfull]
    exact .inl ⟨⟨by omega, hfull⟩, rfl⟩
  · rw [if_neg hfull, if_neg (by omega)]
    exact .inr ⟨fun h => hfull h.2, _, rfl⟩

lemma exec_subtractCapacity_of_get {ok : Bool} {w : ConnID} {id : String} {cost : ℤ}
    (hlanes : cfg.lanes = true) (hc : s.conns.get w = some c)
    (he : exec cfg.toStores (.subtractCapacity w id cost) s ok t) :
    (∀ e, c.AssignTask id cost = .error e → t = s) ∧
      ∀ c', c.AssignTask id cost = .ok c' → t = { s with conns := s.conns.put c' } := by
  simp only [exec, hc, hlanes, Bool.true_eq_false, false_and, false_or] at he
  constructor
  · intro e ha
    simp only [ha] at he
    exact he.2
  · intro c' ha
    simp only [ha] at he
    exact he.2

lemma unrestored_moves (hlanes : cfg.lanes = true) (ho : Offered job s c0) {u v : World}
    (hm : Moves cfg.toStores job c0 stage u stage' v)
    (h : Shows (Unrestored job c0 stage) c0 u) : Shows (Unrestored job c0 stage') c0 v := by
  cases hm with
  | mark now hv => exact h.of_conns (by rw [hv])
  | finish hs => exact h.of_conns hs.conns
  | book ok he =>
    obtain ⟨c, hc, hcap, ha⟩ := h
    obtain ⟨hfail, hok⟩ := exec_subtractCapacity_of_get hlanes hc he
    rcases AssignTask_cases ho (available_of_account hcap ha) with
      ⟨hf, hassign⟩ | ⟨-, c', hassign⟩
    · rw [hfail _ hassign]
      exact ⟨c, hc, hcap, .inr ⟨hf, ha⟩⟩
    · rw [hok _ hassign]
      obtain ⟨hconn, hcap', hin, hocc⟩ := AssignTask_ok hassign
      have hconn₀ : c'.conn = c0.conn := hconn.trans (key_of_get hc)
      have hin₀ : c.inFlight = c0.inFlight := congrArg Prod.fst ha
      have hocc0 : c.occupiedCost = c0.occupiedCost := congrArg Prod.snd ha
      refine ⟨c', ?_, hcap'.trans hcap, .inl ⟨by rw [hin, hin₀], by rw [hocc, hocc0]⟩⟩
      rw [← hconn₀]
      exact get_put_self _ c'

lemma restored_moves (hlanes : cfg.lanes = true) (ho : Offered job s c0) {u v : World}
    (hm : Moves cfg.toStores job c0 stage u stage' v)
    (h : Shows (Restored job c0 stage) c0 u) : Shows (Restored job c0 stage') c0 v := by
  cases hm with
  | mark now hv =>
    obtain ⟨c, hc, hcap, ha, hstage⟩ := h
    have hf : Full job c0 := hstage.resolve_left (by nofun)
    exact ⟨c, by rw [hv]; exact hc, hcap, ha, .inr hf⟩
  | finish hs => exact h.of_conns hs.conns
  | book ok he =>
    obtain ⟨c, hc, hcap, ha, hstage⟩ := h
    have hf : Full job c0 := hstage.resolve_left (by nofun)
    have hav : c.AvailableCapacity = c0.AvailableCapacity := by
      unfold WorkerConn.AvailableCapacity
      rw [hcap, ha.2]
    rcases AssignTask_cases ho hav with ⟨-, hassign⟩ | ⟨hn, -⟩
    · rw [(exec_subtractCapacity_of_get hlanes hc he).1 _ hassign]
      exact ⟨c, hc, hcap, ha, .inl rfl⟩
    · exact absurd hf hn

/-- Taking the job off, once it is booked or because it never will be. -/
lemma restored_of_unrestored {ok : Bool} (hlanes : cfg.lanes = true) (h0 : 0 ≤ c0.occupiedCost)
    (h : Shows (Unrestored job c0 stage) c0 s) (hturn : stage = .done ∨ Full job c0)
    (he : exec cfg.toStores (.restoreCapacity c0.conn job.ID job.Cost) s ok t) :
    Shows (Restored job c0 stage) c0 t := by
  obtain ⟨c, hc, hcap, hu⟩ := h
  obtain ⟨-, rfl⟩ := exec_restoreCapacity hlanes he
  refine ⟨c.CompleteTask job.ID job.Cost, ?_, hcap, ⟨Finset.notMem_erase _ _, ?_⟩, hturn⟩
  · rw [get_modify s.conns c0.conn c0.conn (f := fun c => c.CompleteTask job.ID job.Cost)
      (fun _ => rfl), if_pos rfl, hc, Option.map_some]
  · have hocc : c.occupiedCost = c0.occupiedCost + job.Cost ∨
        job.Cost = 0 ∧ c.occupiedCost = c0.occupiedCost := by
      cases stage with
      | marking | booking =>
        exact .inr ⟨(hturn.resolve_left (by nofun)).1, congrArg Prod.snd hu⟩
      | done =>
        rcases hu with ⟨-, h⟩ | ⟨hf, ha⟩
        · exact .inl h
        · exact .inr ⟨hf.1, congrArg Prod.snd ha⟩
    unfold WorkerConn.CompleteTask
    dsimp only
    omega

end Accounts

/-! ### The handler of the reply -/

section Handler

variable {cfg : Config} {job j : Job} {s t : World} {w : ConnID} {reply : Reply}

/-- What is left of a rejection when the capacity is about to be restored. -/
def releasing (w : ConnID) (j : Job) : M Unit := do
  let _ ← restoreCapacity w j.ID j.Cost
  .lift (.putRejected w j.ID)
  EnqueueJob { j with Status := .pending }

/-- What is left of a rejection when the job has been read. -/
def rejecting (w : ConnID) (jobID : String) (j : Job) : M Unit := do
  let updated ← UpdateJob jobID .pending
  if updated = none then return
  releasing w j

/-- The handler has not got to the call that matters: the one that marks the job accepted, or
the one that restores the capacity. -/
inductive Before (cfg : Config) (job : Job) (w : ConnID) : Reply → M Unit → Prop
  | accept (workerID : String) :
      Before cfg job w (.accept workerID) (handleAcceptMessage cfg w workerID job.ID)
  | reject : Before cfg job w .reject (handleRejectMessage w job.ID)
  | rejecting {j : Job} : j.ID = job.ID → j.Cost = job.Cost →
      Before cfg job w .reject (rejecting w job.ID j)
  | releasing {j : Job} : j.ID = job.ID → j.Cost = job.Cost →
      Before cfg job w .reject (releasing w j)

/-- The first call of the handler, or the one that matters. -/
inductive Handles (cfg : Stores) (job : Job) (w : ConnID) (d : M (Except DispatchError Unit)) :
    Reply → World → World → Prop
  | accept {workerID : String} {s t : World} (now : Time) : d.Uses Unproposing →
      t = { s with jobs := s.jobs.modify job.ID (JobMutation.accepted.apply now) } →
      Handles cfg job w d (.accept workerID) s t
  | reject {s t : World} {ok : Bool} : InTurn d (.restoreCapacity w job.ID job.Cost) s →
      exec cfg (.restoreCapacity w job.ID job.Cost) s ok t → Handles cfg job w d .reject s t

/-- A step of the handler is one before the call that matters, or that call. -/
lemma handler_step {d : M (Except DispatchError Unit)} {β : Type} {c : Call β} {k : β → M Unit}
    {b : β} (hb : Before cfg job w reply (.call c k)) (hp : Priced s job) (hturn : InTurn d c s)
    (he : exec cfg.toStores c s b t) :
    (Before cfg job w reply (k b) ∧ t.conns = s.conns ∧ Priced t job) ∨
      (k b).Uses Idle ∧ Handles cfg.toStores job w d reply s t := by
  obtain ⟨j₀, hj₀, hcost₀⟩ := id hp
  generalize hr : Prog.call c k = r at hb
  cases hb with
  | accept workerID =>
    cases hr
    obtain ⟨now, -, ht⟩ := he
    refine .inr ⟨?_, .accept now hturn ht⟩
    show Prog.Uses Idle (if b = none then _ else _)
    split_ifs
    · trivial
    refine uses_step trivial fun found => ?_
    cases found with
    | none => trivial
    | some job =>
      refine uses_bind _ (uses_mono idle_call (quiet_resolveDispatchPayload cfg job))
        fun payload => ?_
      cases payload with
      | none => trivial
      | some payload =>
        exact uses_step trivial fun _ => uses_step trivial fun _ =>
          uses_step trivial fun _ => uses_step trivial fun _ => trivial
  | reject =>
    cases hr
    obtain ⟨rfl, rfl⟩ := he
    rw [hj₀]
    exact .inl ⟨.rejecting (key_of_get hj₀) hcost₀, rfl, hp⟩
  | rejecting hid hcost =>
    cases hr
    have hg : Grows s t := (sameBooks_exec (by trivial) he).grows
    obtain ⟨now, rfl, rfl⟩ := he
    rw [hj₀]
    exact .inl ⟨.releasing hid hcost, rfl, hp.grows hg⟩
  | releasing hid hcost =>
    cases hr
    rw [hid, hcost] at hturn he
    exact .inr ⟨uses_step trivial fun _ => uses_lift trivial, .reject hturn he⟩

end Handler

/-! ### Every interleaving -/

section Interleavings

variable {cfg : Config} {reply : Reply} {job : Job} {c0 : WorkerConn} {s₀ s t : World}
  {stage stage' : Stage}

/-- The connection the job is proposed to. A job that is to be accepted can be booked there. -/
structure Chosen (reply : Reply) (job : Job) (s₀ : World) (c0 : WorkerConn) : Prop extends
    Offered job s₀ c0 where
  nonneg : 0 ≤ c0.occupiedCost
  room : reply ≠ .reject → ¬Full job c0

/-- What holds at each point of the handshake: before the proposal, before the call of the
handler that matters, and after it. -/
inductive Inv (cfg : Config) (reply : Reply) (job : Job) (s₀ : World) : System → Prop
  | choosing {s : World} {d : M (Except DispatchError Unit)} : Same s₀ s →
      Until cfg.toStores (Proposes job) d s → Inv cfg reply job s₀ ⟨s, d, none⟩
  | before {s : World} {d : M (Except DispatchError Unit)} {r : M Unit} {c0 : WorkerConn}
      {stage : Stage} : Chosen reply job s₀ c0 → stage.At job c0 d →
      Before cfg job c0.conn reply r → Priced s job → Shows (Unrestored job c0 stage) c0 s →
      Inv cfg reply job s₀ ⟨s, d, some (c0.conn, r)⟩
  | accepted {s : World} {d : M (Except DispatchError Unit)} {r : M Unit} {c0 : WorkerConn}
      {stage : Stage} : reply ≠ .reject → Chosen reply job s₀ c0 → stage.At job c0 d →
      stage ≠ .marking → r.Uses Idle → Priced s job → Shows (Unrestored job c0 stage) c0 s →
      (∃ j, s.jobs.get job.ID = some j ∧ j.Status = .accepted) →
      Inv cfg reply job s₀ ⟨s, d, some (c0.conn, r)⟩
  | rejected {s : World} {d : M (Except DispatchError Unit)} {r : M Unit} {c0 : WorkerConn}
      {stage : Stage} : reply = .reject → Chosen reply job s₀ c0 → stage.At job c0 d →
      r.Uses Idle → Priced s job → Shows (Restored job c0 stage) c0 s →
      Inv cfg reply job s₀ ⟨s, d, some (c0.conn, r)⟩

lemma priced_moves (hm : Moves cfg.toStores job c0 stage s stage' t) (hp : Priced s job) :
    Priced t job := by
  cases hm with
  | mark now ht => exact hp.grows (.update (congrArg World.jobs ht))
  | book ok he => exact hp.grows (.of_eq (jobs_unchanged (by exact id) he).1)
  | finish hs => exact hp.grows (.of_eq hs.jobs)

/-- After the job has been marked proposed the dispatcher writes no record. -/
lemma jobs_moves (hm : Moves cfg.toStores job c0 stage s stage' t) (hstage : stage ≠ .marking) :
    t.jobs = s.jobs ∧ stage' ≠ .marking := by
  cases hm with
  | mark => exact absurd rfl hstage
  | book ok he => exact ⟨(jobs_unchanged (by exact id) he).1, by nofun⟩
  | finish hs => exact ⟨hs.jobs, by nofun⟩

/-- The capacity is restored in turn: the job has been booked, or will not be. -/
lemma done_or_full {d : M (Except DispatchError Unit)} (hat : stage.At job c0 d)
    (h : Shows (Unrestored job c0 stage) c0 s)
    (hturn : InTurn d (.restoreCapacity c0.conn job.ID job.Cost) s) :
    stage = .done ∨ Full job c0 := by
  obtain ⟨c, hc, hcap, ha⟩ := h
  rcases hturn with huses | ⟨hzero, hfull⟩
  · cases stage with
    | marking =>
      rw [hat] at huses
      exact (huses.2 (some true)).1.elim
    | booking =>
      rw [hat] at huses
      exact huses.1.elim
    | done => exact .inl rfl
  · cases stage with
    | marking | booking =>
      exact .inr ⟨hzero, (available_of_account hcap ha) ▸ hfull c hc⟩
    | done => exact .inl rfl

lemma not_marking_of_uses {d : M (Except DispatchError Unit)} (hat : stage.At job c0 d)
    (h : d.Uses Unproposing) : stage ≠ .marking := by
  rintro rfl
  rw [hat] at h
  exact h.1.elim

lemma before_handle (reply : Reply) (w : ConnID) :
    Before cfg job w reply (reply.handle cfg w job.ID) := by
  cases reply with
  | accept workerID => exact .accept workerID
  | reject => exact .reject

/-- The dispatcher's call before the proposal is out, the proposal included. -/
lemma inv_choosing {β : Type} {c : Call β} {k : β → M (Except DispatchError Unit)} {b : β}
    (h0 : ∀ w c, s₀.conns.get w = some c → 0 ≤ c.occupiedCost) (hp : Priced s₀ job)
    (hsame : Same s₀ s) (huntil : Until cfg.toStores (Proposes job) (.call c k) s)
    (hroom : reply ≠ .reject → Roomy c s) (he : exec cfg.toStores c s b t) :
    Inv cfg reply job s₀ ⟨t, k b, started (reply.handle cfg) c b none⟩ := by
  by_cases hq : Quiet c
  · rw [started_of_quiet hq]
    exact .choosing (hsame.trans (same_of_quiet hq he)) ((until_call hq).mp huntil b t he)
  cases c with
  | send w f =>
    cases f with
    | propose job' task art =>
      obtain ⟨rfl, c0, rfl, ho, rfl⟩ := huntil
      rcases he with ⟨rfl, rfl⟩ | ⟨rfl, rfl⟩
      · have hget : s₀.conns.get c0.conn = some c0 := by
          rw [← hsame.conns]
          exact ho.conn
        have hstage : Stage.marking.At job' c0 (mark job' c0) := rfl
        refine .before ⟨⟨hget, ho.cost, ho.fits⟩, h0 _ c0 hget, fun hr hfull => ?_⟩ hstage
          (before_handle reply _) (hp.grows (.of_eq hsame.jobs)) ⟨c0, ho.conn, rfl, rfl⟩
        exact absurd hfull.2 (not_le.mpr (hroom hr hfull.1 c0 ho.conn))
      · exact .choosing hsame trivial
    | _ => exact absurd huntil.1 hq
  | _ => exact absurd huntil.1 hq

lemma inv_step {x y : System} {a : Actor} (hlanes : cfg.lanes = true)
    (h0 : ∀ w c, s₀.conns.get w = some c → 0 ≤ c.occupiedCost) (hp₀ : Priced s₀ job)
    (h : Inv cfg reply job s₀ x) (hord : Ordered reply x a) (hs : Step cfg reply x a y) :
    Inv cfg reply job s₀ y := by
  cases hs with
  | dispatcher he =>
    cases h with
    | choosing hsame huntil =>
      exact inv_choosing h0 hp₀ hsame huntil (fun hr => hord hr _ _ _ rfl) he
    | before hch hat hb hp hsh =>
      obtain ⟨hstart, stage', hat', hm⟩ := moves_dispatcher hp hat he
      rw [hstart]
      exact .before hch hat' hb (priced_moves hm hp) (unrestored_moves hlanes hch.toOffered hm hsh)
    | accepted hr hch hat hne hidle hp hsh hst =>
      obtain ⟨hstart, stage', hat', hm⟩ := moves_dispatcher hp hat he
      obtain ⟨hjobs, hne'⟩ := jobs_moves hm hne
      rw [hstart]
      exact .accepted hr hch hat' hne' hidle (priced_moves hm hp)
        (unrestored_moves hlanes hch.toOffered hm hsh) (by rwa [hjobs])
    | rejected hr hch hat hidle hp hsh =>
      obtain ⟨hstart, stage', hat', hm⟩ := moves_dispatcher hp hat he
      rw [hstart]
      exact .rejected hr hch hat' hidle (priced_moves hm hp)
        (restored_moves hlanes hch.toOffered hm hsh)
  | worker he =>
    cases h with
    | before hch hat hb hp hsh =>
      rcases handler_step hb hp (hord _ _ _ _ rfl) he with ⟨hb', hconns, hp'⟩ | ⟨hidle, hh⟩
      · exact .before hch hat hb' hp' (hsh.of_conns hconns)
      · cases hh with
        | accept now hturn ht =>
          obtain ⟨j, hj, -⟩ := id hp
          refine .accepted (by nofun) hch hat (not_marking_of_uses hat hturn) hidle
            (hp.grows (.update (congrArg World.jobs ht))) (hsh.of_conns (by rw [ht])) ?_
          refine ⟨JobMutation.accepted.apply now j, ?_, rfl⟩
          rw [ht, get_modify _ _ _ (JobMutation.apply_ID _ now), if_pos rfl, hj]
          rfl
        | reject hturn hrestore =>
          exact .rejected rfl hch hat hidle
            (hp.grows (.of_eq (jobs_unchanged (by exact id) hrestore).1))
            (restored_of_unrestored hlanes hch.nonneg hsh (done_or_full hat hsh hturn) hrestore)
    | accepted hr hch hat hne hidle hp hsh hst =>
      have hv := sameView_exec hidle.1 he
      exact .accepted hr hch hat hne (hidle.2 _) (hp.grows (.of_eq hv.jobs))
        (hsh.sameView Unrestored.of_account hv) (by rwa [hv.jobs])
    | rejected hr hch hat hidle hp hsh =>
      have hv := sameView_exec hidle.1 he
      exact .rejected hr hch hat (hidle.2 _) (hp.grows (.of_eq hv.jobs))
        (hsh.sameView Restored.of_account hv)

def Concludes (job : Job) (w : ConnID) (s t : World) : Reply → Prop
  | .reject => job.ID ∉ inFlightOf t w ∧ occupiedOf t w = occupiedOf s w
  | .accept _ => job.ID ∈ inFlightOf t w ∧ occupiedOf t w = occupiedOf s w + job.Cost ∧
      ∃ j, t.jobs.get job.ID = some j ∧ j.Status = .accepted

/-- **The handshake concludes**, as long as the handler's writes come in their turn. Whatever
the interleaving, when the dispatcher and the handler of the reply have both finished, a
rejected job is off the connection and nothing is occupied for it; an accepted one is in
flight, its cost is reserved and it is marked accepted. -/
theorem handshake_concludes (cfg : Config) (hlanes : cfg.lanes = true) (reply : Reply)
    (job : Job) (keys : List String) {s : World} (hp : Priced s job)
    (h0 : ∀ w c, s.conns.get w = some c → 0 ≤ c.occupiedCost)
    {tr : List (System × Actor)} {t : World} {a : Except DispatchError Unit} {w : ConnID}
    (hrun : Run (Step cfg reply) ⟨s, tryProposeJob cfg job keys, none⟩ tr
      ⟨t, .pure a, some (w, .pure ())⟩)
    (hord : Meets (Ordered reply) tr) : Concludes job w s t reply := by
  have hstart : Inv cfg reply job s ⟨s, tryProposeJob cfg job keys, none⟩ :=
    .choosing (Same.refl s) (until_tryProposeJob keys)
  have hend := hrun.invariant (fun _ _ _ h hG hs => inv_step hlanes h0 hp h hG hs) hord hstart _
    Run.last_mem
  generalize hx : (⟨t, .pure a, some (w, .pure ())⟩ : System) = x at hend
  have hocc {c0 : WorkerConn} (hch : Chosen reply job s c0) :
      occupiedOf s c0.conn = c0.occupiedCost := by
    simp [occupiedOf, hch.conn]
  cases hend with
  | choosing => cases hx
  | before hch hat hb =>
    cases hx
    generalize hr : Prog.pure () = r at hb
    cases hb <;> cases hr
  | @accepted _ _ _ c0 stage hr hch hat hne hidle hpr hsh hst =>
    cases hx
    obtain ⟨c, hc, hcap, ha⟩ := hsh
    cases stage with
    | marking => exact absurd rfl hne
    | booking => cases hat
    | done =>
      obtain ⟨hin, hoc⟩ := ha.resolve_right fun h => hch.room hr h.1
      cases reply with
      | reject => exact absurd rfl hr
      | accept workerID =>
        refine ⟨?_, ?_, hst⟩
        · simp [inFlightOf, hc, hin]
        · rw [hocc hch]
          simp [occupiedOf, hc, hoc]
  | rejected hr hch hat hidle hpr hsh =>
    cases hx
    subst hr
    obtain ⟨c, hc, hcap, ⟨hin, hoc⟩, -⟩ := hsh
    refine ⟨?_, ?_⟩
    · simpa [inFlightOf, hc] using hin
    · rw [hocc hch]
      simp [occupiedOf, hc, hoc]

/-! ### One proposal -/

def pendingJob : Job := { ID := "j", TaskName := "t", Cost := 3 }

def waiting : World :=
  { addConn (NewWorkerConn 0 "w" "linux" "amd64" 4) World.initial with
    jobs := (Table.empty _).put pendingJob
    tasks := (Table.empty _).put { Name := "t", Cost := 3 }
    issued := insert "j" ∅ }

def proposing : System := ⟨waiting, tryProposeJob .defaults pendingJob ["linux/amd64"], none⟩

section Turns

variable {reply : Reply} {s t : World} {β : Type} {c : Call β} {b : β} {x : System}

lemma leads_dispatcher {k : β → M (Except DispatchError Unit)} {r : Option (ConnID × M Unit)}
    (he : exec cfg.toStores c s b t) (hroomy : Roomy c s) (h : Leads (Step cfg reply) (Ordered reply)
      ⟨t, k b, started (reply.handle cfg) c b r⟩ x) :
    Leads (Step cfg reply) (Ordered reply) ⟨s, .call c k, r⟩ x :=
  .cons (.dispatcher he) (fun _ _ _ _ h => by cases h; exact hroomy) h

lemma leads_worker {k : β → M Unit} {w : ConnID} {d : M (Except DispatchError Unit)}
    (he : exec cfg.toStores c s b t) (hturn : InTurn d c s)
    (h : Leads (Step cfg reply) (Ordered reply) ⟨t, d, some (w, k b)⟩ x) :
    Leads (Step cfg reply) (Ordered reply) ⟨s, d, some (w, .call c k)⟩ x :=
  .cons (.worker he) (fun _ _ _ _ h => by cases h; exact hturn) h

end Turns

/-- The dispatcher finishes, then the rejection is handled. -/
theorem handshake_concludes_rejected :
    ∃ tr t, Run (Step .defaults .reject) proposing tr ⟨t, .pure (.ok ()), some (0, .pure ())⟩ ∧
      Concludes pendingJob 0 waiting t .reject := by
  obtain ⟨t, tr, hrun, hord⟩ : ∃ t, Leads (Step .defaults .reject) (Ordered .reject) proposing
      ⟨t, .pure (.ok ()), some (0, .pure ())⟩ :=
    -- the task, the workers, the choice, the build, the frame; the record, the account
    ⟨_, leads_dispatcher (exec_answered rfl) trivial <|
      leads_dispatcher (exec_answered rfl) trivial <|
      leads_dispatcher (exec_answered rfl) trivial <|
      leads_dispatcher (exec_answered rfl) trivial <|
      leads_dispatcher (exec_answered rfl) (fun hzero => absurd hzero (by decide)) <|
      leads_dispatcher (exec_answered rfl) trivial <|
      leads_dispatcher (exec_answered rfl) trivial <|
      leads_worker (exec_answered rfl) trivial <| leads_worker (exec_answered rfl) trivial <|
      leads_worker (exec_answered rfl) (.inl trivial) <|
      leads_worker (exec_answered rfl) trivial <| leads_worker (exec_answered rfl) trivial <|
      .refl _⟩
  have hfree : ∀ c ∈ waiting.conns.values, 0 ≤ c.occupiedCost := by decide
  exact ⟨tr, t, hrun, handshake_concludes .defaults rfl .reject pendingJob ["linux/amd64"]
    ⟨pendingJob, by decide, rfl⟩ (fun _ c hc => hfree c (mem_values_of_get hc)) hrun hord⟩

/-- **A reply can overtake the record of its proposal.** A rejection handled first leaves the
job in flight and its cost occupied, although it is queued again; an acceptance handled first
is overwritten, and the job stays marked proposed. -/
theorem reply_overtakes_record :
    (∃ tr t, Run (Step .defaults .reject) proposing tr ⟨t, .pure (.ok ()), some (0, .pure ())⟩ ∧
      pendingJob ∈ t.queue ∧ "j" ∈ inFlightOf t 0 ∧ occupiedOf waiting 0 = 0 ∧
        occupiedOf t 0 = 3) ∧
    ∃ tr t, Run (Step .defaults (.accept "w")) proposing tr
        ⟨t, .pure (.ok ()), some (0, .pure ())⟩ ∧
      (t.jobs.get "j").map Job.Status = some .proposing := by
  have hsent (r : Reply) : Run (Step .defaults r) proposing _ _ :=
    .cons (.dispatcher (exec_answered rfl)) <| .cons (.dispatcher (exec_answered rfl)) <|
    .cons (.dispatcher (exec_answered rfl)) <| .cons (.dispatcher (exec_answered rfl)) <|
    .cons (.dispatcher (exec_answered rfl)) <| .nil _
  constructor
  · refine ⟨_, _, (hsent _).append <|
      .cons (.worker (exec_answered rfl)) <| .cons (.worker (exec_answered rfl)) <|
      .cons (.worker (exec_answered rfl)) <| .cons (.worker (exec_answered rfl)) <|
      .cons (.worker (exec_answered rfl)) <| .cons (.dispatcher (exec_answered rfl)) <|
      .cons (.dispatcher (exec_answered rfl)) <| .nil _, ?_⟩
    decide
  · refine ⟨_, _, (hsent _).append <|
      .cons (.worker (exec_answered rfl)) <| .cons (.worker (exec_answered rfl)) <|
      .cons (.worker (b := "r") ⟨by decide, by decide, rfl⟩) <|
      .cons (.worker (exec_answered rfl)) <| .cons (.worker (exec_answered rfl)) <|
      .cons (.worker (exec_answered rfl)) <| .cons (.dispatcher (exec_answered rfl)) <|
      .cons (.dispatcher (exec_answered rfl)) <| .nil _, ?_⟩
    decide

end Interleavings

end Workforce.Handshake
