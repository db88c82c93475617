import Workforce.Contract
import Workforce.Runs

/-!
When a worker takes the manager for dead.

The time of the manager's last sign of life is stored as a number of nanoseconds, and compared
with the clock read in seconds. Beside that number a run keeps when the connection was
established and when the latest echo was handled. Times are in nanoseconds since the epoch.
-/

namespace Workforce.Heartbeats

open Contract Runs

/-! ### Model -/

def Unix (t : Time) : ℤ := t / 10 ^ 9

def UnixNano (t : Time) : ℤ := t

structure Link where
  lastHeartbeatAck : ℤ := 0
  /-- When the open connection was established. -/
  conn : Option Time := none
  /-- When the latest echo was handled. -/
  echoed : Option Time := none
  clock : Time

inductive Op
  /-- `ConnectAndWork` has dialled. -/
  | connect
  /-- `ConnectAndWork` returns. -/
  | lost
  /-- `handleMessage` is given a heartbeat. -/
  | echo
  /-- `HeartbeatRoutine` is called. -/
  | round

-- `int64(d.Seconds())`, a conversion by way of a 64-bit float, whatever it rounds to
variable (seconds : Duration → ℤ) (HeartbeatTimeout : Duration)

/-- The first part of a round: whether it closes the connection and shuts the worker down. -/
def HeartbeatRoutine (l : Link) (now : Time) : Link × Bool :=
  match l.conn with
  | none => (l, false)
  | some _ =>
    let delta := Unix now - l.lastHeartbeatAck
    if delta > seconds HeartbeatTimeout then ({ l with conn := none }, true) else (l, false)

def perform (l : Link) (now : Time) : Op → Link
  | .connect => { l with lastHeartbeatAck := UnixNano now, conn := some now }
  | .lost => { l with conn := none }
  | .echo => { l with lastHeartbeatAck := UnixNano now, echoed := some now }
  | .round => (HeartbeatRoutine seconds HeartbeatTimeout l now).1

/-- The clock never goes back. -/
def step (l : Link) (a : Time × Op) (m : Link) : Prop :=
  l.clock ≤ a.1 ∧ m = { perform seconds HeartbeatTimeout l a.1 a.2 with clock := a.1 }

/-! ### Verdicts -/

/-- More whole seconds than the timeout have passed. -/
def Overdue (since now : Time) : Prop := HeartbeatTimeout < (now - since) / 10 ^ 9 * 10 ^ 9

instance (since now : Time) : Decidable (Overdue HeartbeatTimeout since now) :=
  inferInstanceAs (Decidable (_ < _))

/-- The last sign of life on a connection established at `t₀`. -/
def Link.lastHeard (l : Link) (t₀ : Time) : Time := max t₀ (l.echoed.getD t₀)

variable {seconds HeartbeatTimeout} {since now t₀ : Time} {l m : Link}

/-- A round that takes the nanoseconds of the last sign of life for seconds waits for a moment
that a clock of 64 bits does not reach. -/
lemma alive (hseconds : 0 ≤ seconds HeartbeatTimeout) (hack : 10 ^ 10 ≤ l.lastHeartbeatAck)
    (hnow : now < 2 ^ 63) : (HeartbeatRoutine seconds HeartbeatTimeout l now).2 = false := by
  unfold HeartbeatRoutine
  split
  · rfl
  · rw [if_neg]
    unfold Unix Time at *
    omega

/-! ### Runs -/

structure Sound (l : Link) : Prop where
  ack : ∀ t₀, l.conn = some t₀ → l.lastHeartbeatAck = l.lastHeard t₀ ∧ t₀ ≤ l.clock
  echoed : ∀ e, l.echoed = some e → e ≤ l.clock

lemma Sound.later (hl : Sound l) (hnow : l.clock ≤ now) : Sound { l with clock := now } :=
  ⟨fun t₀ h => ⟨(hl.ack t₀ h).1, (hl.ack t₀ h).2.trans hnow⟩, fun e h => (hl.echoed e h).trans hnow⟩

lemma Sound.lost (hl : Sound l) : Sound { l with conn := none } := ⟨nofun, hl.echoed⟩

lemma sound_step {a : Time × Op} (hl : Sound l) (h : step seconds HeartbeatTimeout l a m) :
    Sound m := by
  obtain ⟨now, op⟩ := a
  obtain ⟨hnow, rfl⟩ := h
  have hlater : Sound { l with clock := now } := hl.later hnow
  cases op with
  | connect =>
    refine ⟨fun t₀ ht => ?_, hlater.echoed⟩
    cases ht
    -- what has been echoed before is older than the connection
    refine ⟨?_, le_rfl⟩
    change now = max now (l.echoed.getD now)
    cases he : l.echoed with
    | none => exact (max_self now).symm
    | some e => exact (max_eq_left (hlater.echoed e he)).symm
  | lost => exact hlater.lost
  | echo =>
    refine ⟨fun t₀ ht => ?_, fun e he => ?_⟩
    · have hle := (hlater.ack t₀ ht).2
      exact ⟨(max_eq_right hle).symm, hle⟩
    · cases he
      exact le_rfl
  | round =>
    dsimp only [perform, HeartbeatRoutine]
    split
    · exact hlater
    · split_ifs
      · exact hlater.lost
      · exact hlater

/-- **Dead managers.** In every run, by a clock between 1970 and 2262, a round on an open
connection is right about the manager exactly when the timeout has not passed. -/
theorem dead_iff_overdue {clock : Time} {tr : List (Link × Time × Op)}
    (hseconds : 0 ≤ seconds HeartbeatTimeout)
    (h : Run (step seconds HeartbeatTimeout) { clock := clock } tr m)
    (hround : (l, now, .round) ∈ tr) (hconn : l.conn = some t₀)
    (hsince : 10 ^ 10 ≤ l.lastHeard t₀) (hnow : now < 2 ^ 63) :
    ((HeartbeatRoutine seconds HeartbeatTimeout l now).2 = true ↔
        Overdue HeartbeatTimeout (l.lastHeard t₀) now) ↔
      ¬Overdue HeartbeatTimeout (l.lastHeard t₀) now := by
  have hsound : Sound l := Run.invariant (G := fun _ _ => True)
    (fun _ _ _ hI _ hs => sound_step hI hs) h (fun _ _ => trivial) ⟨nofun, nofun⟩ l
    (Run.mem_states hround)
  rw [alive hseconds ((hsound.ack t₀ hconn).1 ▸ hsince) hnow]
  simp

def dialled : Link :=
  { lastHeartbeatAck := 1700000000 * 10 ^ 9, conn := some (1700000000 * 10 ^ 9),
    clock := 1700000000 * 10 ^ 9 }

lemma dialled_run (now : Time) (hnow : dialled.clock ≤ now) :
    ∃ m, Run (step (· / 10 ^ 9) (30 * 10 ^ 9)) { clock := 0 }
      [({ clock := 0 }, 1700000000 * 10 ^ 9, .connect), (dialled, now, .round)] m :=
  ⟨_, .cons ⟨by decide, rfl⟩ (.cons ⟨hnow, rfl⟩ (.nil _))⟩

/-- With a timeout of 30 seconds, a round 100 seconds later finds the manager alive. -/
theorem overdue_alive :
    ∃ (l m : Link) (tr : List (Link × Time × Op)) (now t₀ : Time),
      Run (step (· / 10 ^ 9) (30 * 10 ^ 9)) { clock := 0 } tr m ∧ (l, now, .round) ∈ tr ∧
        l.conn = some t₀ ∧ Overdue (30 * 10 ^ 9) (l.lastHeard t₀) now ∧
          (HeartbeatRoutine (· / 10 ^ 9) (30 * 10 ^ 9) l now).2 = false := by
  obtain ⟨m, hrun⟩ := dialled_run (1700000100 * 10 ^ 9) (by decide)
  exact ⟨dialled, m, _, _, _, hrun, List.mem_cons_of_mem _ List.mem_cons_self, rfl,
    by decide, by decide⟩

/-- So does a round 20 seconds later, and rightly. -/
theorem dead_iff_overdue_early :
    (HeartbeatRoutine (· / 10 ^ 9) (30 * 10 ^ 9) dialled (1700000020 * 10 ^ 9)).2 = true ↔
      Overdue (30 * 10 ^ 9) (dialled.lastHeard (1700000000 * 10 ^ 9)) (1700000020 * 10 ^ 9) := by
  obtain ⟨m, hrun⟩ := dialled_run (1700000020 * 10 ^ 9) (by decide)
  exact (dead_iff_overdue (by decide) hrun (List.mem_cons_of_mem _ List.mem_cons_self) rfl
    (by decide) (by decide)).mpr (by decide)

end Workforce.Heartbeats
