import Workforce.Runs
import Workforce.Slices

/-!
The channels of log subscribers.

Both stores keep, for every job and every run, a slice of subscriber channels under `logMu`.
`AppendRunLog` reads the two slices it needs under the lock and sends after it has released
it, so it sees what happens to their arrays in between. A job subscriber has a goroutine that
waits for its context, takes its channel out of the slice and then, without the lock, closes
it. Closing a closed channel and sending on one both panic; a panic ends the manager.
-/

namespace Workforce.LogSubscribers

open Runs Slices

inductive Store
  | MemStore
  | FSStore
  deriving DecidableEq

/-- The slice a channel is kept in: that of a job or that of a run. -/
inductive Key
  | job (id : String)
  | run (id : String)
  deriving DecidableEq

abbrev Chan := ℕ

structure State where
  cells : Cells Chan
  /-- The first array that has not been allocated. -/
  arrays : ℕ
  subs : Key → Slice
  /-- The first channel that has not been made. -/
  channels : Chan
  closed : Finset Chan
  /-- The goroutines that wait for the context of a job subscriber. -/
  contexts : List (Chan × String)
  /-- The goroutines that have taken their channel out and are about to close it. -/
  removed : List Chan
  /-- The calls of `AppendRunLog` that have released the lock: the slices they still go through,
  each with the next position. -/
  appenders : List (List (Slice × ℕ))
  panicked : Bool

/-- `close` on each channel in turn; `none` is a panic. -/
def closeEach : List Chan → Finset Chan → Option (Finset Chan)
  | [], closed => some closed
  | ch :: rest, closed => if ch ∈ closed then none else closeEach rest (insert ch closed)

inductive Event
  | SubscribeJobLogs (jobID : String)
  | SubscribeRunLogs (runID : String)
  /-- The part of the call under the lock; `jobID` is the job of the run, if the run is known. -/
  | AppendRunLog (runID : String) (jobID : Option String)
  /-- The log file cannot be opened or written: the call returns and sends nothing. -/
  | appendFails
  /-- The next send of a call that has released the lock. -/
  | send (caller : ℕ)
  | CloseRunLogSubscribers (runID : String)
  | CloseJobLogSubscribers (jobID : String)
  /-- The context ends: the goroutine takes the channel out of the slice. -/
  | cancel (ch : Chan) (jobID : String)
  /-- The goroutine closes the channel. -/
  | close (ch : Chan)

/-- A new channel behind the others in the slice. -/
def Subscribes (k : Key) (s t : State) : Prop :=
  ∃ cells arrays slice, Appends s.cells s.arrays (s.subs k) s.channels cells arrays slice ∧
    t = { s with
      cells := cells
      arrays := arrays
      subs := Function.update s.subs k slice
      channels := s.channels + 1 }

/-- Close the channels of a slice and delete its entry. -/
def closeSubscribers (k : Key) (s : State) : State :=
  match closeEach ((s.subs k).elems s.cells) s.closed with
  | some closed => { s with closed := closed, subs := Function.update s.subs k .nil }
  | none => { s with panicked := true }

/-- Send to the channel in the next position; a nil channel takes no send. -/
def sendNext (caller : ℕ) (s : State) : Option State :=
  match s.appenders[caller]? with
  | some ((v, i) :: rest) =>
    let advanced := { s with appenders := s.appenders.set caller ((v, i + 1) :: rest) }
    if i < v.len then
      match s.cells v.arr i with
      | some ch => if ch ∈ s.closed then some { s with panicked := true } else some advanced
      | none => some advanced
    else some { s with appenders := s.appenders.set caller rest }
  | _ => none

/-- The part of `AppendRunLog` under the lock: the slices of the run and of its job are read. -/
def capture (runID : String) (jobID : Option String) (s : State) : State :=
  { s with appenders := s.appenders ++
    [(s.subs (.run runID), 0) :: (jobID.map fun id => (s.subs (.job id), 0)).toList] }

/-- The goroutine of a subscriber whose context has ended takes its channel out of the slice. -/
def removeSubscriber (ch : Chan) (jobID : String) (s : State) : State :=
  { s with
    cells := (remove s.cells (s.subs (.job jobID)) ch).1
    subs := Function.update s.subs (.job jobID) (remove s.cells (s.subs (.job jobID)) ch).2
    contexts := s.contexts.erase (ch, jobID)
    removed := ch :: s.removed }

/-- Then it closes the channel. -/
def closeRemoved (ch : Chan) (s : State) : State :=
  if ch ∈ s.closed then { s with panicked := true }
  else { s with closed := insert ch s.closed, removed := s.removed.erase ch }

/-- One step of the log store. The code of the two stores differs in that a write can fail. -/
def step (store : Store) (s : State) (ev : Event) (t : State) : Prop :=
  s.panicked = false ∧
  match ev with
  | .SubscribeJobLogs jobID =>
    ∃ u, Subscribes (.job jobID) s u ∧
      t = { u with contexts := (s.channels, jobID) :: u.contexts }
  | .SubscribeRunLogs runID => Subscribes (.run runID) s t
  | .AppendRunLog runID jobID => t = capture runID jobID s
  | .appendFails => store = .FSStore ∧ t = s
  | .send caller => sendNext caller s = some t
  | .CloseRunLogSubscribers runID => t = closeSubscribers (.run runID) s
  | .CloseJobLogSubscribers jobID => t = closeSubscribers (.job jobID) s
  | .cancel ch jobID => (ch, jobID) ∈ s.contexts ∧ t = removeSubscriber ch jobID s
  | .close ch => ch ∈ s.removed ∧ t = closeRemoved ch s

def State.initial : State where
  cells := fun _ _ => none
  arrays := 0
  subs := fun _ => .nil
  channels := 0
  closed := ∅
  contexts := []
  removed := []
  appenders := []
  panicked := false

/-- Some `AppendRunLog` that has released the lock has the channel still before it. -/
def Seen (s : State) (ch : Chan) : Prop :=
  ∃ vs ∈ s.appenders, ∃ p ∈ vs, p.1.HasFrom s.cells p.2 ch

instance (s : State) (ch : Chan) : Decidable (Seen s ch) := by
  unfold Seen; infer_instance

/-- The step does not reach one of the two defects: a subscriber's context ends only while its
channel is in the slice of its job, and a channel is closed only when no `AppendRunLog` that
has released the lock is still going to send to it. -/
def Orderly (s : State) : Event → Prop
  | .cancel ch jobID => (s.subs (.job jobID)).Has s.cells ch
  | .CloseRunLogSubscribers runID => ∀ ch, (s.subs (.run runID)).Has s.cells ch → ¬Seen s ch
  | .CloseJobLogSubscribers jobID => ∀ ch, (s.subs (.job jobID)).Has s.cells ch → ¬Seen s ch
  | .close ch => ¬Seen s ch
  | _ => True

/-! ### The invariant -/

structure Sound (s : State) : Prop where
  quiet : s.panicked = false
  layout : Layout s.cells s.arrays s.subs
  /-- A channel in a slice is open, and nobody is about to close it outside the lock. -/
  registered : ∀ k ch, (s.subs k).Has s.cells ch →
    ch ∉ s.closed ∧ ch ∉ s.removed ∧ ch < s.channels
  nodup : s.removed.Nodup
  removed : ∀ ch ∈ s.removed, ch ∉ s.closed ∧ ch < s.channels
  made : ∀ ch ∈ s.closed, ch < s.channels
  /-- Nobody is going to send to a closed channel. -/
  seen : ∀ ch, Seen s ch → ch ∉ s.closed

variable {store : Store} {s t : State} {k : Key}

lemma sound_initial : Sound .initial where
  quiet := rfl
  layout := by
    refine ⟨fun k i hi => absurd hi (Nat.not_lt_zero i), fun k k' ch h => absurd h not_has_nil,
      fun k k' h => absurd h (Nat.lt_irrefl 0), fun k h => absurd h (Nat.lt_irrefl 0)⟩
  registered := fun k ch h => absurd h not_has_nil
  nodup := List.nodup_nil
  removed := fun ch h => absurd h List.not_mem_nil
  made := fun ch h => absurd h (Finset.notMem_empty ch)
  seen := by
    rintro ch ⟨vs, hvs, -⟩
    exact absurd hvs List.not_mem_nil

/-- The invariant does not look at the goroutines that wait for a context. -/
lemma Sound.contexts (h : Sound s) (l : List (Chan × String)) :
    Sound { s with contexts := l } :=
  ⟨h.quiet, h.layout, h.registered, h.nodup, h.removed, h.made, h.seen⟩

lemma Sound.subscribe (h : Sound s) (hs : Subscribes k s t) : Sound t := by
  obtain ⟨cells, arrays, slice, ha, rfl⟩ := hs
  have hnew : ∀ k', ¬(s.subs k').Has s.cells s.channels := fun k' hk' =>
    absurd (h.registered k' _ hk').2.2 (Nat.lt_irrefl _)
  have hopen : s.channels ∉ s.closed := fun hc => absurd (h.made _ hc) (Nat.lt_irrefl _)
  obtain ⟨hl, hhas⟩ := h.layout.append ha hnew
  refine ⟨h.quiet, hl, fun k' ch hk' => ?_, h.nodup, fun ch hch => ?_, fun ch hch => ?_, ?_⟩
  · rcases hhas k' ch hk' with hk' | rfl
    · obtain ⟨h1, h2, h3⟩ := h.registered k' ch hk'
      exact ⟨h1, h2, Nat.lt_succ_of_lt h3⟩
    · exact ⟨hopen, fun hc => absurd (h.removed _ hc).2 (Nat.lt_irrefl _), Nat.lt_succ_self _⟩
  · exact ⟨(h.removed ch hch).1, Nat.lt_succ_of_lt (h.removed ch hch).2⟩
  · exact Nat.lt_succ_of_lt (h.made ch hch)
  · rintro ch ⟨vs, hvs, p, hp, j, hj, hi, hx⟩
    rcases ha.cells hx with hx | rfl | hx
    · exact h.seen ch ⟨vs, hvs, p, hp, j, hj, hi, hx⟩
    · exact hopen
    · exact (h.registered k ch hx).1

/-- The context of a subscriber whose channel is still in the slice ends. -/
lemma Sound.removeSubscriber {ch : Chan} {jobID : String} (h : Sound s)
    (hreg : (s.subs (.job jobID)).Has s.cells ch) : Sound (removeSubscriber ch jobID s) := by
  obtain ⟨hl, hhas⟩ := h.layout.remove (k := .job jobID) ch
  obtain ⟨hopen, hfree, hmade⟩ := h.registered (.job jobID) ch hreg
  refine ⟨h.quiet, hl, fun k' x hk' => ?_, List.nodup_cons.mpr ⟨hfree, h.nodup⟩, fun x hx => ?_,
    h.made, ?_⟩
  · obtain ⟨hx, hne⟩ := hhas k' x hk'
    obtain ⟨h1, h2, h3⟩ := h.registered k' x hx
    refine ⟨h1, fun hmem => ?_, h3⟩
    rcases List.mem_cons.mp hmem with rfl | hmem
    · exact hne (h.layout.apart k' _ x hx hreg) rfl
    · exact h2 hmem
  · rcases List.mem_cons.mp hx with rfl | hx
    · exact ⟨hopen, hmade⟩
    · exact h.removed x hx
  · rintro x ⟨vs, hvs, p, hp, j, hj, hi, hx⟩
    rcases remove_cells hx with hx | hx
    · exact h.seen x ⟨vs, hvs, p, hp, j, hj, hi, hx⟩
    · exact (h.registered _ x hx).1

/-- Closing distinct open channels does not panic. -/
lemma closeEach_eq {l : List Chan} {closed : Finset Chan} (hn : l.Nodup)
    (ho : ∀ ch ∈ l, ch ∉ closed) :
    ∃ closed', closeEach l closed = some closed' ∧ ∀ ch, ch ∈ closed' ↔ ch ∈ l ∨ ch ∈ closed := by
  induction l generalizing closed with
  | nil => exact ⟨closed, rfl, fun ch => by simp⟩
  | cons c rest ih =>
    rw [List.nodup_cons] at hn
    have hrest : ∀ ch ∈ rest, ch ∉ insert c closed := by
      intro ch hch hmem
      rcases Finset.mem_insert.mp hmem with rfl | hmem
      · exact hn.1 hch
      · exact ho ch (List.mem_cons_of_mem _ hch) hmem
    obtain ⟨closed', hc, hmem⟩ := ih hn.2 hrest
    refine ⟨closed', ?_, fun ch => ?_⟩
    · rw [closeEach, if_neg (ho c List.mem_cons_self), hc]
    · rw [hmem, Finset.mem_insert, List.mem_cons]
      tauto

lemma Sound.closeSubscribers (h : Sound s)
    (hseen : ∀ ch, (s.subs k).Has s.cells ch → ¬Seen s ch) : Sound (closeSubscribers k s) := by
  obtain ⟨closed, hc, hmem⟩ := closeEach_eq (nodup_elems (h.layout.distinct k))
    fun ch hch => (h.registered k ch (mem_elems.mp hch)).1
  obtain ⟨hl, hhas⟩ := h.layout.clear k
  unfold LogSubscribers.closeSubscribers
  rw [hc]
  have hold : ∀ {ch}, ch ∉ s.closed → ¬(s.subs k).Has s.cells ch → ch ∉ closed := by
    intro ch h1 h2 hin
    rcases (hmem ch).mp hin with hin | hin
    · exact h2 (mem_elems.mp hin)
    · exact h1 hin
  refine ⟨h.quiet, hl, fun k' ch hk' => ?_, h.nodup, fun ch hch => ?_, fun ch hch => ?_,
    fun ch hch => ?_⟩
  · obtain ⟨hk', hne⟩ := hhas k' ch hk'
    obtain ⟨h1, h2, h3⟩ := h.registered k' ch hk'
    exact ⟨hold h1 fun hk => hne (h.layout.apart k' k ch hk' hk), h2, h3⟩
  · obtain ⟨h1, h2⟩ := h.removed ch hch
    exact ⟨hold h1 fun hk => (h.registered k ch hk).2.1 hch, h2⟩
  · rcases (hmem ch).mp hch with hch | hch
    · exact (h.registered k ch (mem_elems.mp hch)).2.2
    · exact h.made ch hch
  · exact hold (h.seen ch hch) fun hk => hseen ch hk hch

/-- A goroutine closes the channel it has taken out. -/
lemma Sound.closeRemoved {ch : Chan} (h : Sound s) (hch : ch ∈ s.removed)
    (hseen : ¬Seen s ch) : Sound (closeRemoved ch s) := by
  obtain ⟨hopen, hmade⟩ := h.removed ch hch
  rw [LogSubscribers.closeRemoved, if_neg hopen]
  have hold : ∀ {x}, x ∉ s.closed → x ≠ ch → x ∉ insert ch s.closed := by
    intro x h1 h2 hin
    rcases Finset.mem_insert.mp hin with hin | hin
    · exact h2 hin
    · exact h1 hin
  refine ⟨h.quiet, h.layout, fun k x hx => ?_, h.nodup.erase ch, fun x hx => ?_,
    fun x hx => ?_, fun x hx => ?_⟩
  · obtain ⟨h1, h2, h3⟩ := h.registered k x hx
    refine ⟨hold h1 ?_, fun hmem => h2 (List.mem_of_mem_erase hmem), h3⟩
    rintro rfl
    exact h2 hch
  · rw [h.nodup.mem_erase_iff] at hx
    exact ⟨hold (h.removed x hx.2).1 hx.1, (h.removed x hx.2).2⟩
  · rcases Finset.mem_insert.mp hx with rfl | hx
    · exact hmade
    · exact h.made x hx
  · refine hold (h.seen x hx) ?_
    rintro rfl
    exact hseen hx

/-- The calls that have released the lock see no more than before. -/
lemma Sound.appenders (h : Sound s) {as : List (List (Slice × ℕ))}
    (has : ∀ ch, Seen { s with appenders := as } ch → ch ∉ s.closed) :
    Sound { s with appenders := as } :=
  ⟨h.quiet, h.layout, h.registered, h.nodup, h.removed, h.made, has⟩

lemma Sound.advance {caller : ℕ} {vs vs' : List (Slice × ℕ)} (h : Sound s)
    (hc : s.appenders[caller]? = some vs)
    (hvs : ∀ p' ∈ vs', ∀ ch, p'.1.HasFrom s.cells p'.2 ch →
      ∃ p ∈ vs, p.1.HasFrom s.cells p.2 ch) :
    Sound { s with appenders := s.appenders.set caller vs' } := by
  refine h.appenders fun ch hch => h.seen ch ?_
  obtain ⟨ws, hws, p', hp', hx⟩ := hch
  rcases List.mem_or_eq_of_mem_set hws with hws | rfl
  · exact ⟨ws, hws, p', hp', hx⟩
  · obtain ⟨p, hp, hx'⟩ := hvs p' hp' ch hx
    exact ⟨vs, List.mem_of_getElem? hc, p, hp, hx'⟩

lemma Sound.send {caller : ℕ} (h : Sound s) (hs : sendNext caller s = some t) : Sound t := by
  unfold sendNext at hs
  split at hs
  · next v i rest hc =>
    have hadv : Sound { s with appenders := s.appenders.set caller ((v, i + 1) :: rest) } := by
      refine h.advance hc fun p' hp' ch hx => ?_
      rcases List.mem_cons.mp hp' with rfl | hp'
      · exact ⟨(v, i), List.mem_cons_self, hx.mono (Nat.le_succ i)⟩
      · exact ⟨p', List.mem_cons_of_mem _ hp', hx⟩
    split at hs
    · next hi =>
      split at hs
      · next ch hcell =>
        -- the channel is before this caller, so it is open
        have hopen := h.seen ch ⟨_, List.mem_of_getElem? hc, (v, i), List.mem_cons_self, i, hi,
          le_rfl, hcell⟩
        rw [if_neg hopen] at hs
        cases hs
        exact hadv
      · cases hs
        exact hadv
    · cases hs
      exact h.advance hc fun p' hp' ch hx => ⟨p', List.mem_cons_of_mem _ hp', hx⟩
  · cases hs

lemma Sound.capture (h : Sound s) (runID : String) (jobID : Option String) :
    Sound (capture runID jobID s) := by
  refine h.appenders fun ch hch => ?_
  obtain ⟨vs, hvs, p, hp, hx⟩ := hch
  rcases List.mem_append.mp hvs with hvs | hvs
  · exact h.seen ch ⟨vs, hvs, p, hp, hx⟩
  · rw [List.mem_singleton.mp hvs] at hp
    rcases List.mem_cons.mp hp with rfl | hp
    · exact (h.registered _ ch hx.has).1
    · simp only [Option.mem_toList, Option.map_eq_some_iff] at hp
      obtain ⟨id, -, rfl⟩ := hp
      exact (h.registered _ ch hx.has).1

/-- **One orderly step** does not panic and keeps the invariant. -/
theorem sound_step {ev : Event} (h : Sound s) (hG : Orderly s ev) (hs : step store s ev t) :
    Sound t := by
  obtain ⟨-, hs⟩ := hs
  cases ev with
  | SubscribeJobLogs jobID =>
    obtain ⟨u, hu, rfl⟩ := hs
    exact (h.subscribe hu).contexts _
  | SubscribeRunLogs runID => exact h.subscribe hs
  | AppendRunLog runID jobID =>
    subst hs
    exact h.capture runID jobID
  | appendFails =>
    obtain ⟨-, rfl⟩ := hs
    exact h
  | send caller => exact h.send hs
  | CloseRunLogSubscribers runID =>
    subst hs
    exact h.closeSubscribers hG
  | CloseJobLogSubscribers jobID =>
    subst hs
    exact h.closeSubscribers hG
  | cancel ch jobID =>
    obtain ⟨-, rfl⟩ := hs
    exact h.removeSubscriber hG
  | close ch =>
    obtain ⟨hch, rfl⟩ := hs
    exact h.closeRemoved hch hG

/-- **No panic.** In every run of either store whose steps are orderly, no channel is closed
twice and nothing is sent on a closed one. -/
theorem never_panics (store : Store) {tr : List (State × Event)} {t : State}
    (hrun : Run (step store) .initial tr t) (hG : Meets Orderly tr) :
    ∀ u ∈ states tr t, u.panicked = false := by
  have hinv := hrun.invariant (fun _ _ _ h hg hs => sound_step h hg hs) hG sound_initial
  exact fun u hu => (hinv u hu).quiet

/-! ### One subscriber -/

def subscribed : State :=
  { State.initial with
    cells := write (copy (fun _ _ => none) .nil 0) 0 0 0
    arrays := 1
    subs := Function.update (fun _ => .nil) (.job "j") ⟨0, 1, 1, le_rfl⟩
    channels := 1
    contexts := [(0, "j")] }

lemma initial_subscribes (store : Store) :
    step store .initial (.SubscribeJobLogs "j") subscribed :=
  ⟨rfl, _, ⟨_, _, _, .grow rfl (show 0 < 1 by decide), rfl⟩, rfl⟩

theorem never_panics_subscribed :
    ∃ tr t, Run (step .FSStore) .initial tr t ∧ Meets Orderly tr ∧ t.closed = {0} ∧
      t.panicked = false := by
  have hcancel : step .FSStore subscribed (.cancel 0 "j") (removeSubscriber 0 "j" subscribed) :=
    ⟨rfl, by decide, rfl⟩
  have hclose : step .FSStore (removeSubscriber 0 "j" subscribed) (.close 0)
      (closeRemoved 0 (removeSubscriber 0 "j" subscribed)) := ⟨rfl, by decide, rfl⟩
  have hrun := Run.cons (initial_subscribes .FSStore) (.cons hcancel (.cons hclose (.nil _)))
  have hG : Meets Orderly [(State.initial, .SubscribeJobLogs "j"), (subscribed, .cancel 0 "j"),
      (removeSubscriber 0 "j" subscribed, .close 0)] := by
    simp only [meets_cons]
    exact ⟨trivial, (by decide : (subscribed.subs (.job "j")).HasFrom subscribed.cells 0 0),
      (by decide : ¬Seen (removeSubscriber 0 "j" subscribed) 0), meets_nil⟩
  exact ⟨_, _, hrun, hG, by decide, never_panics .FSStore hrun hG _ Run.last_mem⟩

/-- The job has ended: the channel is closed and the entry is gone. -/
def jobEnded : State := closeSubscribers (.job "j") subscribed

def contextEnded : State := removeSubscriber 0 "j" jobEnded

/-- **A subscriber outlives its job.** The end of the job closes the channel; the end of the
subscriber's context closes it again. -/
theorem closed_twice :
    (∃ tr t, Run (step .MemStore) .initial tr t ∧ t.panicked = true) ∧
      ∃ tr t, Run (step .FSStore) .initial tr t ∧ t.panicked = true := by
  have hrun : ∀ store, ∃ tr t, Run (step store) .initial tr t ∧ t.panicked = true := by
    intro store
    have hend : step store subscribed (.CloseJobLogSubscribers "j") jobEnded := ⟨rfl, rfl⟩
    have hcancel : step store jobEnded (.cancel 0 "j") contextEnded :=
      ⟨by decide, by decide, rfl⟩
    have hclose : step store contextEnded (.close 0) (closeRemoved 0 contextEnded) :=
      ⟨by decide, by decide, rfl⟩
    exact ⟨_, _, .cons (initial_subscribes store) (.cons hend (.cons hcancel
      (.cons hclose (.nil _)))), by decide⟩
  exact ⟨hrun _, hrun _⟩

end Workforce.LogSubscribers
