import Workforce.WorkerSide

/-!
A worker's state, load by load and store by store.

Every message of the manager is handled in a goroutine of its own, beside the heartbeat rounds
and the tasks that end. They share the state, one atomic integer. Each load, store and transition
is one call here; so is what is done in between, most of it under the worker's lock.
-/

namespace Workforce.Draining

open Tables Contract Shared Progs Runs WorkerSide
open Frames (ProposeMessage)
open Prog (lift)

/-! ### Model -/

inductive Access : Type → Type
  | load : Access WorkerState
  | store (s : WorkerState) : Access Unit
  /-- A compare-and-swap. -/
  | transition (old new : WorkerState) : Access Bool
  /-- What the manager's last sign of life is found to say. -/
  | timedOut : Access Bool
  /-- A snapshot of the metrics, against the limits that are set. -/
  | overLimit : Access Bool
  /-- The limits, the dependencies and the capacity for a proposal. -/
  | propose (msg : ProposeMessage) : Access Reply
  /-- A task is dropped; how many are left. -/
  | drop (jobID : String) : Access ℕ
  | remaining : Access ℕ
  | send (r : Reply) : Access Unit
  | sendHeartbeat (s : WorkerState) : Access Unit
  /-- The connection is closed. -/
  | close : Access Unit
  /-- The channel `done` is closed. -/
  | done : Access Unit

def exec : {β : Type} → Access β → Worker → β → Worker → Prop
  | _, .load, w, s, v => s = w.state ∧ v = w
  | _, .store s, w, _, v => v = { w with state := s }
  | _, .transition old new, w, b, v =>
    b = decide (w.state = old) ∧ v = if w.state = old then { w with state := new } else w
  | _, .propose msg, w, r, v =>
    ∃ host, r = (WorkerSide.handlePropose { w with state := .online } host msg).2 ∧
      v = { (WorkerSide.handlePropose { w with state := .online } host msg).1 with state := w.state }
  | _, .drop jobID, w, n, v => v = dropTask w jobID ∧ n = v.tasks.values.length
  | _, .remaining, w, n, v => n = w.tasks.values.length ∧ v = w
  | _, _, w, _, v => v = w

abbrev M := Prog Access

/-- The end of a round. -/
def report : M Unit := do
  let s ← lift .load
  lift (.sendHeartbeat s)

def commit (high : Bool) : M Unit := do
  lift (.store (if high then .pressure else .online))
  report

/-- The second of the two tests that let a round set the state. -/
def ifPressure (high : Bool) : M Unit := do
  let s ← lift .load
  if s = .pressure then commit high else report

def ifOnline (high : Bool) : M Unit := do
  let s ← lift .load
  if s = .online then commit high else ifPressure high

def HeartbeatRoutine : M Unit := do
  let dead ← lift .timedOut
  if dead then lift .close
  else
    let high ← lift .overLimit
    ifOnline high

def handlePropose (msg : ProposeMessage) : M Unit := do
  let s ← lift .load
  if s ≠ .online then lift (.send (.reject msg.JobID .draining))
  else
    let r ← lift (.propose msg)
    lift (.send r)

/-- The end of a drain, when no task is left. -/
def finish (remaining : ℕ) : M Unit :=
  if remaining = 0 then do
    lift (.store .shuttingDown)
    lift .close
  else pure ()

def handleSystem (command : String) : M Unit :=
  if command = "drain" then do
    lift (.store .draining)
    let remaining ← lift .remaining
    finish remaining
  else if command = "shutdown" then do
    let was ← lift (.transition .online .shuttingDown)
    if was then lift .done
    else
      let was ← lift (.transition .draining .shuttingDown)
      if was then lift .done else pure ()
  else pure ()

def releaseTask (jobID : String) : M Unit := do
  let remaining ← lift (.drop jobID)
  let s ← lift .load
  if s = .draining then finish remaining
  else
    let s ← lift .load
    if s = .shuttingDown then finish remaining else pure ()

inductive Routine : M Unit → Prop
  | heartbeat : Routine HeartbeatRoutine
  | propose (msg : ProposeMessage) : Routine (handlePropose msg)
  | system (command : String) : Routine (handleSystem command)
  | release (jobID : String) : Routine (releaseTask jobID)

/-! ### Drained workers -/

def Drained (s : WorkerState) : Prop := s ≠ .online ∧ s ≠ .pressure

instance (s : WorkerState) : Decidable (Drained s) := inferInstanceAs (Decidable (_ ∧ _))

/-- The calls that cannot put a drained worker online. -/
def Modest : {β : Type} → Access β → Prop
  | _, .store s => Drained s
  | _, .transition _ new => Drained new
  | _, _ => True

/-- The calls that accept no proposal. -/
def Declines : {β : Type} → Access β → Prop
  | _, .send (.accept _) => False
  | _, _ => True

variable {β : Type} {c : Access β} {b : β} {w v : Worker}

lemma drained_call (hc : Modest c) (hw : Drained w.state) (h : exec c w b v) :
    Drained v.state := by
  cases c with
  | store s =>
    obtain rfl := h
    exact hc
  | transition old new =>
    obtain ⟨-, rfl⟩ := h
    split_ifs
    · exact hc
    · exact hw
  | propose msg =>
    obtain ⟨host, -, rfl⟩ := h
    exact hw
  | drop jobID =>
    obtain ⟨rfl, -⟩ := h
    unfold dropTask
    split <;> exact hw
  | load | remaining =>
    obtain ⟨-, rfl⟩ := h
    exact hw
  | _ =>
    obtain rfl := h
    exact hw

/-- As long as what it loads is drained, the program makes only such calls. -/
def Steady (φ : ∀ {β : Type}, Access β → Prop) (q : M Unit) : Prop :=
  q.wp (fun c (_ : Unit) b _ => ∃ w v, Drained w.state ∧ exec c w b v) (fun c _ => φ c)
    (fun _ _ => True) ()

/-- At any point, whatever has been loaded, the program is about to put the worker online, or it
is steady from there on. -/
def Settles : M Unit → Prop
  | .pure _ => True
  | .call c k => (¬Modest c ∨ Steady Modest (.call c k)) ∧ ∀ b, Settles (k b)

variable {φ : ∀ {β : Type}, Access β → Prop} {q : M Unit}

lemma steady_of_uses (h : q.Uses φ) : Steady φ q := wp_true_of_uses (fun h => h) h

lemma settles_of_uses (h : q.Uses Modest) : Settles q := by
  induction q with
  | pure a => trivial
  | call c k ih => exact ⟨.inr (steady_of_uses h), fun b => ih b (h.2 b)⟩

lemma modest_report : report.Uses Modest := uses_step trivial fun _ => uses_lift trivial

lemma steady_ifPressure (high : Bool) : Steady Modest (ifPressure high) := by
  refine wp_step trivial fun s _ ⟨w, _, hw, hs, _⟩ => ?_
  rw [if_neg (hs ▸ hw.2)]
  exact steady_of_uses modest_report

lemma steady_ifOnline (high : Bool) : Steady Modest (ifOnline high) := by
  refine wp_step trivial fun s _ ⟨w, _, hw, hs, _⟩ => ?_
  rw [if_neg (hs ▸ hw.1)]
  exact steady_ifPressure high

lemma settles_commit (high : Bool) : Settles (commit high) := by
  refine ⟨.inl ?_, fun _ => settles_of_uses modest_report⟩
  cases high
  · exact fun h => h.1 rfl
  · exact fun h => h.2 rfl

/-- A round on a drained worker sets no state; it is late only between a test and its store. -/
lemma settles_HeartbeatRoutine : Settles HeartbeatRoutine := by
  have hclose : (lift .close : M Unit).Uses Modest := uses_lift trivial
  have hafter (dead : Bool) : Steady Modest
      (if dead then lift .close else lift .overLimit >>= ifOnline) := by
    cases dead
    · exact wp_step trivial fun high _ _ => steady_ifOnline high
    · exact steady_of_uses hclose
  refine ⟨.inr (wp_step trivial fun dead _ _ => hafter dead), fun dead => ?_⟩
  cases dead
  · refine ⟨.inr (hafter false), fun high => ⟨.inr (steady_ifOnline high), fun s => ?_⟩⟩
    change Settles (if s = .online then commit high else ifPressure high)
    split_ifs
    · exact settles_commit high
    refine ⟨.inr (steady_ifPressure high), fun s => ?_⟩
    change Settles (if s = .pressure then commit high else report)
    split_ifs
    · exact settles_commit high
    · exact settles_of_uses modest_report
  · exact settles_of_uses hclose

/-! None of the other routines ever puts the worker online. -/

lemma modest_handlePropose (msg : ProposeMessage) : (handlePropose msg).Uses Modest := by
  refine uses_step trivial fun s => ?_
  split_ifs
  · exact uses_lift trivial
  · exact uses_step trivial fun r => uses_lift trivial

lemma drained_shuttingDown : Drained .shuttingDown := by decide

lemma modest_finish (n : ℕ) : (finish n).Uses Modest := by
  unfold finish
  split_ifs
  · exact uses_step drained_shuttingDown fun _ => uses_lift trivial
  · trivial

lemma modest_handleSystem (command : String) : (handleSystem command).Uses Modest := by
  have hdrain : Drained .draining := by decide
  unfold handleSystem
  split_ifs
  · exact uses_step hdrain fun _ => uses_step trivial fun n => modest_finish n
  · refine uses_step drained_shuttingDown fun was => ?_
    split_ifs
    · exact uses_lift trivial
    refine uses_step drained_shuttingDown fun was => ?_
    split_ifs
    · exact uses_lift trivial
    · trivial
  · trivial

lemma modest_releaseTask (jobID : String) : (releaseTask jobID).Uses Modest := by
  refine uses_step trivial fun n => uses_step trivial fun s => ?_
  split_ifs
  · exact modest_finish n
  refine uses_step trivial fun s => ?_
  split_ifs
  · exact modest_finish n
  · trivial

lemma settles_routine (h : Routine q) : Settles q := by
  cases h with
  | heartbeat => exact settles_HeartbeatRoutine
  | propose msg => exact settles_of_uses (modest_handlePropose msg)
  | system command => exact settles_of_uses (modest_handleSystem command)
  | release jobID => exact settles_of_uses (modest_releaseTask jobID)

/-- A proposal that comes when the worker is drained is not accepted. -/
lemma steady_handlePropose (msg : ProposeMessage) : Steady Declines (handlePropose msg) := by
  refine wp_step trivial fun s _ ⟨w, _, hw, hs, _⟩ => ?_
  rw [if_pos (hs ▸ hw.1)]
  exact wp_lift trivial fun _ _ _ => trivial

/-! ### Interleavings -/

/-- No thread is about to put the worker online. -/
def NoneRaises (p : Prog.Pool Access Worker) : Prop :=
  ∀ (β : Type) (c : Access β) (k : β → M Unit), .call c k ∈ p.threads → Modest c

variable {p p' t : Prog.Pool Access Worker} {i : ℕ} {tr tr' : List (Prog.Pool Access Worker × ℕ)}

/-- The worker is drained and stays so; the threads of `J` accept no proposal. -/
structure Final (J : Set ℕ) (p : Prog.Pool Access Worker) : Prop where
  drained : Drained p.st.state
  steady : ∀ q ∈ p.threads, Steady Modest q
  declines : ∀ j ∈ J, ∀ q, p.threads[j]? = some q → Steady Declines q

lemma final_step {J : Set ℕ} (h : Final J p) (hs : Prog.Step exec p i p') : Final J p' := by
  cases hs with
  | @mk s t ts i β c k b hi he =>
    have hcall := h.steady _ (List.mem_of_getElem? hi)
    refine ⟨drained_call hcall.1 h.drained he, fun q hq => ?_, fun j hj q hq => ?_⟩
    · rcases List.mem_or_eq_of_mem_set hq with hq | rfl
      · exact h.steady q hq
      · exact hcall.2 b () ⟨s, t, h.drained, he⟩
    · by_cases hij : i = j
      · subst hij
        rw [List.getElem?_set_self (List.getElem?_eq_some_iff.mp hi).1] at hq
        cases hq
        exact (h.declines i hj _ hi).2 b () ⟨s, t, h.drained, he⟩
      · rw [List.getElem?_set_ne hij] at hq
        exact h.declines j hj q hq

lemma settles_step (h : ∀ q ∈ p.threads, Settles q) (hs : Prog.Step exec p i p') :
    ∀ q ∈ p'.threads, Settles q := threads_step (fun b hq => hq.2 b) h hs

/-- The store of a drain, when no thread is about to put the worker online. -/
lemma final_drain (h : ∀ q ∈ p.threads, Settles q) (hnone : NoneRaises p) {k : Unit → M Unit}
    (hi : p.threads[i]? = some (.call (.store .draining) k)) (hs : Prog.Step exec p i p') :
    Final {j | ∃ msg, p'.threads[j]? = some (handlePropose msg)} p' := by
  have hsteady {q : M Unit} (hq : q ∈ p.threads) : Steady Modest q := by
    cases q with
    | pure a => trivial
    | call c k => exact ((h _ hq).1).resolve_left (absurd (hnone _ c k hq))
  cases hs with
  | @mk s t ts i β c k' b hi' he =>
    simp only [hi', Option.some.injEq, Prog.call.injEq] at hi
    obtain ⟨rfl, hc, -⟩ := hi
    cases hc
    have hdrained : Drained t.state := by
      rw [he]
      exact ⟨nofun, nofun⟩
    refine ⟨hdrained, fun q hq => ?_, ?_⟩
    · rcases List.mem_or_eq_of_mem_set hq with hq | rfl
      · exact hsteady hq
      · exact (hsteady (List.mem_of_getElem? hi')).2 () () ⟨t, t, hdrained, by rw [he]; rfl⟩
    · rintro j ⟨msg, hmsg⟩ q hq
      cases hmsg.symm.trans hq
      exact steady_handlePropose msg

/-- **Draining is final.** Let heartbeat rounds, proposals, system messages and ends of tasks
interleave in any way. If no round stands between its test and its store when a drain stores its
state, the worker is never online or under pressure again, and no proposal whose handling begins
after the store is accepted. -/
theorem drained_of_noneRaises {p₀ : Prog.Pool Access Worker} (hstart : ∀ q ∈ p₀.threads, Routine q)
    (hbefore : Run (Prog.Step exec) p₀ tr p) {k : Unit → M Unit}
    (hi : p.threads[i]? = some (.call (.store .draining) k)) (hnone : NoneRaises p)
    (hs : Prog.Step exec p i p') (hafter : Run (Prog.Step exec) p' tr' t) :
    (∀ u ∈ states tr' t, Drained u.st.state) ∧
      ∀ u j msg, (u, j) ∈ tr' → p'.threads[j]? = some (handlePropose msg) →
        Prog.NextMeets (fun c _ => Declines c) u j := by
  have hsettles := hbefore.invariant (G := fun _ _ => True)
    (I := fun p => ∀ q ∈ p.threads, Settles q) (fun _ _ _ h _ hs => settles_step h hs)
    (fun _ _ => trivial) (fun q hq => settles_routine (hstart q hq)) p Run.last_mem
  have hfinal := hafter.invariant (G := fun _ _ => True) (fun _ _ _ h _ hs => final_step h hs)
    (fun _ _ => trivial) (final_drain hsettles hnone hi hs)
  refine ⟨fun u hu => (hfinal u hu).drained, fun u j msg hmem hj β c k hcall => ?_⟩
  exact ((hfinal u (Run.mem_states hmem)).declines j ⟨msg, hj⟩ _ hcall).1

/-! ### Two interleavings -/

def busy : Worker :=
  { Capacity := 2
    usedCap := 1
    tasks := (Table.empty _).put { JobID := "a", cost := 1, runID := "r" } }

def drained : Worker := { busy with state := .draining }

def proposed : ProposeMessage := ⟨"b", "", "t", 1, false, "h", "u", []⟩

def drainRest : M Unit := lift .remaining >>= finish

lemma step_drain {ts : List (M Unit)} (hi : ts[i]? = some (handleSystem "drain")) :
    Prog.Step exec ⟨busy, ts⟩ i ⟨drained, ts.set i drainRest⟩ := by
  have hcall : ts[i]? = some (.call (.store .draining) fun _ => drainRest) := hi
  exact .mk (b := ()) hcall rfl

/-- A round has found the worker online when the drain stores its state. It then stores what it
found, and the next proposal is accepted. -/
theorem drain_undone :
    ∃ (p₀ p p' u t : Prog.Pool Access Worker) (tr tr' : List (Prog.Pool Access Worker × ℕ))
      (i j : ℕ) (k k' : Unit → M Unit) (msg : ProposeMessage),
      (∀ q ∈ p₀.threads, Routine q) ∧ Run (Prog.Step exec) p₀ tr p ∧
        p.threads[i]? = some (.call (.store .draining) k) ∧ Prog.Step exec p i p' ∧
        Run (Prog.Step exec) p' tr' t ∧ p'.threads[j]? = some (handlePropose msg) ∧
        (u, j) ∈ tr' ∧ u.st.state = .online ∧
        u.threads[j]? = some (.call (.send (.accept msg.JobID)) k') := by
  have hround : Run (Prog.Step exec)
      ⟨busy, [HeartbeatRoutine, handleSystem "drain", handlePropose proposed]⟩ _
      ⟨busy, [commit false, handleSystem "drain", handlePropose proposed]⟩ :=
    .cons (.mk (i := 0) (b := false) rfl rfl) <| .cons (.mk (i := 0) (b := false) rfl rfl) <|
      .cons (.mk (i := 0) (b := .online) rfl ⟨rfl, rfl⟩) (.nil _)
  obtain ⟨v, hv⟩ : ∃ v, exec (.propose proposed) busy (.accept "b") v := ⟨_, {}, by decide, rfl⟩
  refine ⟨_, _, _, ⟨v, [report, drainRest, lift (.send (.accept "b"))]⟩, _, _, _, 1, 2, _, _,
    proposed, ?_, hround, rfl, step_drain rfl, .cons (.mk (i := 0) (b := ()) rfl rfl) <|
      .cons (.mk (i := 2) (b := .online) rfl ⟨rfl, rfl⟩) <| .cons (.mk (i := 2) rfl hv) <|
      .cons (.mk (i := 2) (c := Access.send (.accept "b")) (b := ()) rfl rfl) (.nil _), rfl, ?_, ?_,
      rfl⟩
  · simp [Routine.heartbeat, Routine.system, Routine.propose]
  · exact .tail _ (.tail _ (.tail _ (.head _)))
  · obtain ⟨host, -, rfl⟩ := hv
    rfl

/-- Here no round is under way. -/
theorem drained_of_noneRaises_busy :
    ∃ (tr : List (Prog.Pool Access Worker × ℕ)) (t : Prog.Pool Access Worker),
      Run (Prog.Step exec) ⟨drained, [drainRest, handlePropose proposed]⟩ tr t ∧
        t.threads[1]? = some (.pure ()) ∧ (∀ u ∈ states tr t, Drained u.st.state) ∧
        ∀ u j msg, (u, j) ∈ tr →
          [drainRest, handlePropose proposed][j]? = some (handlePropose msg) →
            Prog.NextMeets (fun c _ => Declines c) u j := by
  have h : Run (Prog.Step exec) ⟨drained, [drainRest, handlePropose proposed]⟩ _
      ⟨drained, [drainRest, .pure ()]⟩ :=
    .cons (.mk (i := 1) (b := .draining) rfl ⟨rfl, rfl⟩) <|
      .cons (.mk (i := 1) (c := Access.send (.reject "b" .draining)) (b := ()) rfl rfl) (.nil _)
  refine ⟨_, _, h, rfl, drained_of_noneRaises (i := 0) ?_
    (.nil ⟨busy, [handleSystem "drain", handlePropose proposed]⟩) rfl ?_
    (step_drain rfl) h⟩
  · simp [Routine.system, Routine.propose]
  · intro β c k hmem
    have huses : (Prog.call c k).Uses Modest := by
      rcases List.mem_pair.mp hmem with h | h <;> rw [h]
      · exact modest_handleSystem _
      · exact modest_handlePropose _
    exact huses.1

end Workforce.Draining
