import Workforce.Shortage

/-!
The dispatcher's loop and the signals that wake it.

Whatever may let a queued job go on (a new job, a worker with room again, a new worker, a new
artifact) is done first and announced on a channel afterwards. The announcement does not wait:
it reaches a dispatcher that is waiting, stays in the buffer if the channel has room, and is
dropped otherwise. The dispatcher runs call by call among all of this.
-/

namespace Workforce.Wakeups

open Contract Progs Shared Calls Handlers Dispatcher Operations Runs
open Shortage (jobOf idle)

/-! ### The channel -/

/-- A channel of signals: how many it can hold, and how many it holds. -/
structure Signal where
  cap : ℕ
  buffered : ℕ := 0

def dispatchSignal : Signal := { cap := 0 }

/-- A send that finds nobody waiting. -/
def Signal.offer (c : Signal) : Signal :=
  if c.buffered < c.cap then { c with buffered := c.buffered + 1 } else c

def Signal.take (c : Signal) : Signal := { c with buffered := c.buffered - 1 }

/-! ### One pass, call by call -/

/-- The start of a pass: nothing on an empty queue, else the platforms that are online. -/
def startPass (cfg : Config) : M (Option (List String)) := do
  let size ← Prog.lift .queueSize
  if size = 0 then return none
  Prog.lift (.applyStarvationAging cfg.StarvationTimeout)
  let online ← Prog.lift .onlinePlatformKeys
  return some online

inductive Popped
  | empty
  | discarded
  | job (job : Job)

/-- `PopNextJobFromQueue`, up to where it calls itself again. -/
def popNext : M Popped := do
  let size ← Prog.lift .queueSize
  if size < 1 then return .empty
  match ← Prog.lift .popItem with
  | none => return .empty
  | some job =>
    let cancelled ← Prog.lift (.cancelledHas job.ID)
    if cancelled then
      Prog.lift (.cancelledRemove job.ID)
      return .discarded
    else return .job job

/-- Where the dispatcher is, with what is left of the calls it is making. -/
inductive Phase : Type 1
  | waiting
  | draining
  | starting (p : M (Option (List String)))
  | popping (online : List String) (c : Caches) (r : PassResult) (p : M Popped)
  | examining (online : List String) (r : PassResult) (job : Job)
      (p : M (Caches × Option jobDeferral))
  | pushing (p : M Unit)

/-- A pass: how many changes had been made when it began, and the jobs it has examined. -/
structure PassRecord where
  began : ℕ
  examined : List String

/-- The manager around the dispatcher. Changes are numbered from one. -/
structure System : Type 1 where
  world : World
  signal : Signal
  phase : Phase
  changes : ℕ
  /-- The changes that have been made and not yet announced. -/
  unsent : List ℕ
  /-- The pass that is running or was the last to run; an empty one before the first. -/
  pass : PassRecord
  past : List PassRecord

def System.initial (signal : Signal) (world : World) : System :=
  ⟨world, signal, .waiting, 0, [], ⟨0, []⟩, []⟩

/-- The non-blocking send: it goes to the dispatcher if that is parked on the channel. -/
def NotifyDispatcher (s : System) : System :=
  match s.phase with
  | .waiting =>
    if s.signal.buffered = 0 then { s with phase := .draining }
    else { s with signal := s.signal.offer }
  | _ => { s with signal := s.signal.offer }

section Steps

variable (cfg : Config)

/-- The next call of the dispatcher. -/
inductive Calls : Phase → World → Phase → World → Prop
  | starting {β : Type} {c : Call β} {k : β → M (Option (List String))} {b : β} {s t : World} :
      exec cfg.toStores c s b t → Calls (.starting (.call c k)) s (.starting (k b)) t
  | popping {online : List String} {cs : Caches} {r : PassResult} {β : Type} {c : Call β}
      {k : β → M Popped} {b : β} {s t : World} : exec cfg.toStores c s b t →
      Calls (.popping online cs r (.call c k)) s (.popping online cs r (k b)) t
  | examining {online : List String} {r : PassResult} {job : Job} {β : Type} {c : Call β}
      {k : β → M (Caches × Option jobDeferral)} {b : β} {s t : World} :
      exec cfg.toStores c s b t →
      Calls (.examining online r job (.call c k)) s (.examining online r job (k b)) t
  | pushing {β : Type} {c : Call β} {k : β → M Unit} {b : β} {s t : World} :
      exec cfg.toStores c s b t → Calls (.pushing (.call c k)) s (.pushing (k b)) t

/-- How `ProcessQueue` goes on when a group of calls is done. -/
inductive Returns : Phase → PassRecord → Phase → PassRecord → Prop
  | idle {p : PassRecord} : Returns (.starting (.pure none)) p .waiting p
  | started {online : List String} {p : PassRecord} :
      Returns (.starting (.pure (some online))) p (.popping online ⟨∅, ∅⟩ ⟨[], false⟩ popNext) p
  | empty {online : List String} {c : Caches} {r : PassResult} {p : PassRecord} :
      Returns (.popping online c r (.pure .empty)) p (.pushing (EnqueueJobs r.deferred)) p
  | discarded {online : List String} {c : Caches} {r : PassResult} {p : PassRecord} :
      Returns (.popping online c r (.pure .discarded)) p (.popping online c r popNext) p
  | popped {online : List String} {c : Caches} {r : PassResult} {job : Job} {p : PassRecord} :
      Returns (.popping online c r (.pure (.job job))) p
        (.examining online r job (dispatchJob cfg job online c))
        { p with examined := p.examined ++ [job.ID] }
  | dispatched {online : List String} {c : Caches} {r : PassResult} {job : Job} {p : PassRecord} :
      Returns (.examining online r job (.pure (c, none))) p (.popping online c r popNext) p
  | deferred {online : List String} {c : Caches} {r : PassResult} {job : Job} {d : jobDeferral}
      {p : PassRecord} :
      Returns (.examining online r job (.pure (c, some d))) p
        (.popping online c ⟨r.deferred ++ [job], r.shortage || d.shortage⟩ popNext) p
  | pushed {p : PassRecord} : Returns (.pushing (.pure ())) p .waiting p

inductive Advance : System → System → Prop
  | wake {s : System} : s.phase = .waiting → 0 < s.signal.buffered →
      Advance s { s with phase := .draining, signal := s.signal.take }
  | drain {s : System} : s.phase = .draining → 0 < s.signal.buffered →
      Advance s { s with signal := s.signal.take }
  | start {s : System} : s.phase = .draining → s.signal.buffered = 0 →
      Advance s { s with
        phase := .starting (startPass cfg), pass := ⟨s.changes, []⟩, past := s.pass :: s.past }
  | call {s : System} {p : Phase} {t : World} : Calls cfg s.phase s.world p t →
      Advance s { s with phase := p, world := t }
  | next {s : System} {p : Phase} {r : PassRecord} : Returns cfg s.phase s.pass p r →
      Advance s { s with phase := p, pass := r }

/-- The operations that announce what they change. -/
inductive Change
  | EnqueueJob (job : Job)
  | restoreCapacity (w : ConnID) (taskID : String) (cost : ℤ)
  | connect (conn : ConnID) (id os arch : String) (capacity : ℤ)
  | publish

/-- What the operation does before its announcement. The registry is not part of the state: it
may answer anything at any time. -/
def Change.Does : Change → World → World → Prop
  | .EnqueueJob job, s, t => Performs (exec cfg.toStores) (Handlers.EnqueueJob job) s t
  | .restoreCapacity w taskID cost, s, t =>
    Performs (exec cfg.toStores) (Handlers.restoreCapacity w taskID cost) s t
  | .connect conn id os arch capacity, s, t => step cfg s (.register conn id os arch capacity) t
  | .publish, s, t => t = s

inductive Label
  | change (c : Change)
  | notify (n : ℕ)
  /-- The periodic backstop. -/
  | trigger
  /-- Anything else the manager does: it may change whatever it likes, but not the queue. -/
  | other
  | dispatcher

inductive Step : System → Label → System → Prop
  | change {s : System} {c : Change} {t : World} : c.Does cfg s.world t →
      Step s (.change c) { s with
        world := t, changes := s.changes + 1, unsent := s.unsent ++ [s.changes + 1] }
  | notify {s : System} {n : ℕ} : n ∈ s.unsent →
      Step s (.notify n) (NotifyDispatcher { s with unsent := s.unsent.erase n })
  | trigger {s : System} : Step s .trigger (NotifyDispatcher s)
  | other {s : System} {t : World} : t.queue = s.world.queue →
      Step s .other { s with world := t }
  | dispatcher {s t : System} : Advance cfg s t → Step s .dispatcher t

end Steps

/-- The dispatcher is parked on the channel. -/
def Parked (s : System) : Prop := s.phase = .waiting ∧ s.signal.buffered = 0

/-- If the dispatcher is parked and every change has been announced, each queued job has been
examined by a pass that began after the last change. -/
def Covered (s : System) : Prop :=
  Parked s → s.unsent = [] → ∀ j ∈ s.world.queue, ∃ p ∈ s.pass :: s.past,
    s.changes ≤ p.began ∧ j.ID ∈ p.examined

/-- The announcement of a change finds the dispatcher before its next pass, or in a pass that
began after the change. -/
def Heard (s : System) : Label → Prop
  | .notify n => s.phase = .waiting ∨ s.phase = .draining ∨ n ≤ s.pass.began
  | _ => True

/-! ### What the calls do to the queue -/

section Queue

variable {cfg : Config}

/-- What a call can do to the queue, whatever the rest of the state is. -/
def onQueue (cfg : Config) {β : Type} (c : Call β) (q : List Job) (b : β) (q' : List Job) : Prop :=
  ∃ s t : World, s.queue = q ∧ t.queue = q' ∧ exec cfg.toStores c s b t

/-- However the rest of the state changes between its calls, the program ends as `Q` says. -/
abbrev Leaves (cfg : Config) {α : Type} (p : M α) (Q : α → List Job → Prop) (q : List Job) :
    Prop := Prog.wp (onQueue cfg) (fun _ _ => True) p Q q

lemma leaves_call {α β : Type} {c : Call β} {k : β → M α} {Q : α → List Job → Prop} {s t : World}
    {b : β} (h : Leaves cfg (.call c k) Q s.queue) (he : exec cfg.toStores c s b t) :
    Leaves cfg (k b) Q t.queue := h.2 b t.queue ⟨s, t, rfl, rfl, he⟩

lemma onQueue_queueSize {q q' : List Job} {n : ℕ} (h : onQueue cfg .queueSize q n q') :
    n = q.length ∧ q' = q := by
  obtain ⟨s, t, rfl, rfl, hn, rfl⟩ := h
  exact ⟨hn, rfl⟩

lemma leaves_startPass (q : List Job) :
    Leaves cfg (startPass cfg) (fun r q' => r = none → q' = []) q := by
  refine wp_step trivial fun n q' hn => ?_
  obtain ⟨rfl, rfl⟩ := onQueue_queueSize hn
  split_ifs with hempty
  · exact fun _ => List.length_eq_zero_iff.mp hempty
  · refine wp_step trivial fun _ _ _ => wp_step trivial fun online _ _ => ?_
    exact fun h => nomatch h

/-- The pass stops popping only at an empty queue. -/
lemma leaves_popNext (q : List Job) :
    Leaves cfg popNext (fun a q' => a = .empty → q' = []) q := by
  refine wp_step trivial fun n q' hn => ?_
  obtain ⟨rfl, rfl⟩ := onQueue_queueSize hn
  split_ifs with hempty
  · exact fun _ => List.length_eq_zero_iff.mp (Nat.lt_one_iff.mp hempty)
  refine wp_step trivial fun o q'' hpop => ?_
  obtain ⟨s, t, rfl, rfl, he⟩ := hpop
  rcases exec_popItem he with ⟨rfl, hq, rfl⟩ | ⟨job, -, rfl, -, -⟩
  · exact fun _ => hq
  refine wp_step trivial fun cancelled _ _ => ?_
  cases cancelled with
  | true => exact wp_step trivial fun _ _ _ h => nomatch h
  | false => exact fun h => nomatch h

lemma leaves_EnqueueJobs (l q : List Job) :
    Leaves cfg (EnqueueJobs l) (fun _ q' => q' = q ++ l) q := by
  induction l generalizing q with
  | nil => exact (List.append_nil q).symm
  | cons job l ih =>
    refine wp_step trivial fun _ q' hpush => ?_
    obtain ⟨s, t, rfl, rfl, rfl⟩ := hpush
    refine wp_mono (ih _) fun _ q' hq' => ?_
    rw [hq', List.append_assoc, List.singleton_append]

end Queue

/-! ### The invariant -/

section Invariant

variable {cfg : Config}

/-- The jobs the pass leaves in the queue are among those it has examined. -/
def Seen (cfg : Config) (q : List Job) (examined : List String) : Phase → Prop
  | .waiting => ∀ j ∈ q, j.ID ∈ examined
  | .draining => True
  | .starting p => Leaves cfg p (fun r q' => r = none → q' = []) q
  | .popping _ _ r p =>
    (∀ j ∈ r.deferred, j.ID ∈ examined) ∧ Leaves cfg p (fun a q' => a = .empty → q' = []) q
  | .examining _ r job _ => job.ID ∈ examined ∧ ∀ j ∈ r.deferred, j.ID ∈ examined
  | .pushing p => Leaves cfg p (fun _ q' => ∀ j ∈ q', j.ID ∈ examined) q

structure Inv (cfg : Config) (s : System) : Prop where
  began_le : s.pass.began ≤ s.changes
  /-- A pass is due, or the changes since the last one began are still to be announced. -/
  due : s.phase = .draining ∨ 0 < s.signal.buffered ∨
    ∀ n, s.pass.began < n → n ≤ s.changes → n ∈ s.unsent
  seen : s.pass.began = s.changes → Seen cfg s.world.queue s.pass.examined s.phase

variable {p p' : Phase}

lemma seen_call {s t : World} {examined : List String} (h : Calls cfg p s p' t)
    (hseen : Seen cfg s.queue examined p) : Seen cfg t.queue examined p' := by
  cases h with
  | starting he => exact leaves_call hseen he
  | popping he => exact ⟨hseen.1, leaves_call hseen.2 he⟩
  | examining he => exact hseen
  | pushing he => exact leaves_call hseen he

lemma seen_returns {q : List Job} {r r' : PassRecord} (h : Returns cfg p r p' r')
    (hseen : Seen cfg q r.examined p) : Seen cfg q r'.examined p' := by
  cases h with
  | idle =>
    have hq : q = [] := hseen rfl
    exact fun j hj => absurd hj (hq ▸ List.not_mem_nil)
  | started => exact ⟨List.forall_mem_nil _, leaves_popNext q⟩
  | empty =>
    obtain ⟨hdef, hq⟩ := hseen
    have hq : q = [] := hq rfl
    refine wp_mono (leaves_EnqueueJobs _ q) fun _ q' hq' j hj => hdef j ?_
    rwa [hq', hq, List.nil_append] at hj
  | discarded => exact ⟨hseen.1, leaves_popNext q⟩
  | popped =>
    refine ⟨List.mem_append_right _ (List.mem_singleton_self _), fun j hj => ?_⟩
    exact List.mem_append_left _ (hseen.1 j hj)
  | dispatched => exact ⟨hseen.2, leaves_popNext q⟩
  | deferred =>
    refine ⟨fun j hj => ?_, leaves_popNext q⟩
    rcases List.mem_append.mp hj with hj | hj
    · exact hseen.2 j hj
    · rw [List.mem_singleton.mp hj]
      exact hseen.1
  | pushed => exact hseen

lemma returns_began {r r' : PassRecord} (h : Returns cfg p r p' r') :
    r'.began = r.began ∧ p ≠ .draining := by
  cases h <;> exact ⟨rfl, fun h => nomatch h⟩

lemma calls_phase {s t : World} (h : Calls cfg p s p' t) : p ≠ .draining := by
  cases h <;> exact fun h => nomatch h

variable {s : System}

lemma inv_advance {t : System} (hI : Inv cfg s) (h : Advance cfg s t) : Inv cfg t := by
  cases h with
  | wake hphase hbuf => exact ⟨hI.began_le, .inl rfl, fun _ => trivial⟩
  | drain hphase hbuf =>
    refine ⟨hI.began_le, .inl hphase, fun _ => ?_⟩
    dsimp only
    rw [hphase]
    trivial
  | start hphase hbuf =>
    refine ⟨le_rfl, .inr (.inr fun n hlt hle => ?_), fun _ => leaves_startPass _⟩
    exact absurd hlt (not_lt.mpr hle)
  | call hcall =>
    refine ⟨hI.began_le, .inr (hI.due.resolve_left (calls_phase hcall)), fun hb => ?_⟩
    exact seen_call hcall (hI.seen hb)
  | next hret =>
    obtain ⟨hbegan, hphase⟩ := returns_began hret
    have hdue := hI.due.resolve_left hphase
    have hle := hI.began_le
    rw [← hbegan] at hdue hle
    exact ⟨hle, .inr hdue, fun hb => seen_returns hret (hI.seen (hbegan ▸ hb))⟩

lemma Signal.offer_pos {c : Signal} (h : 0 < c.cap ∨ 0 < c.buffered) : 0 < c.offer.buffered := by
  unfold Signal.offer
  split_ifs with hlt
  · exact Nat.succ_pos _
  · omega

/-- A signal sent to a dispatcher that has to hear of it, `hdue`, is not lost if the dispatcher
is about to begin a pass, or the channel keeps the signal, or there is nothing to be heard. -/
lemma inv_notify (hle : s.pass.began ≤ s.changes)
    (hseen : s.pass.began = s.changes → Seen cfg s.world.queue s.pass.examined s.phase)
    (h : s.phase = .waiting ∨ s.phase = .draining ∨ 0 < s.signal.cap ∨ 0 < s.signal.buffered ∨
      ∀ n, s.pass.began < n → n ≤ s.changes → n ∈ s.unsent) : Inv cfg (NotifyDispatcher s) := by
  have hoffer (hne : s.phase = .waiting → s.signal.buffered ≠ 0) :
      Inv cfg { s with signal := s.signal.offer } := by
    refine ⟨hle, ?_, hseen⟩
    rcases h with h | h | h | h | h
    · exact .inr (.inl (Signal.offer_pos (.inr (Nat.pos_of_ne_zero (hne h)))))
    · exact .inl h
    · exact .inr (.inl (Signal.offer_pos (.inl h)))
    · exact .inr (.inl (Signal.offer_pos (.inr h)))
    · exact .inr (.inr h)
  unfold NotifyDispatcher
  split
  · split_ifs with hbuf
    · exact ⟨hle, .inl rfl, fun _ => trivial⟩
    · exact hoffer fun _ => hbuf
  · next hne => exact hoffer fun h => absurd h hne

lemma inv_step {t : System} {l : Label} (hI : Inv cfg s) (hl : Heard s l ∨ 0 < s.signal.cap)
    (h : Step cfg s l t) : Inv cfg t := by
  cases h with
  | change hdoes =>
    refine ⟨Nat.le_succ_of_le hI.began_le, hI.due.imp_right (Or.imp_right fun h n hlt hle => ?_),
      fun hb => ?_⟩
    · -- the new change is unannounced, the earlier ones are as before
      rcases Nat.le_succ_iff.mp hle with hle | rfl
      · exact List.mem_append_left _ (h n hlt hle)
      · exact List.mem_append_right _ (List.mem_singleton_self _)
    · have hle := hI.began_le
      dsimp only at hb
      omega
  | @notify n hn =>
    refine inv_notify hI.began_le hI.seen ?_
    rcases hl with (h | h | h) | h
    · exact .inl h
    · exact .inr (.inl h)
    · -- the change announced is older than the pass
      refine .inr (hI.due.imp_right fun hdue => .inr (hdue.imp_right fun hdue m hlt hle => ?_))
      have hne : m ≠ n := by
        dsimp only at hlt
        omega
      exact (List.mem_erase_of_ne hne).mpr (hdue m hlt hle)
    · exact .inr (.inr (.inl h))
  | trigger =>
    refine inv_notify hI.began_le hI.seen (.inr (hI.due.imp_right fun hdue => .inr hdue))
  | other hq =>
    refine ⟨hI.began_le, hI.due, fun hb => ?_⟩
    dsimp only
    rw [hq]
    exact hI.seen hb
  | dispatcher hadv => exact inv_advance hI hadv

lemma inv_initial (signal : Signal) {world : World} (hq : world.queue = []) :
    Inv cfg (.initial signal world) := by
  refine ⟨le_rfl, .inr (.inr fun n hlt hle => absurd hlt (not_lt.mpr hle)), fun _ j hj => ?_⟩
  exact absurd hj (hq ▸ List.not_mem_nil)

lemma covered_of_inv (hI : Inv cfg s) : Covered s := by
  rintro ⟨hphase, hbuf⟩ hunsent j hj
  have hbegan : s.changes ≤ s.pass.began := by
    rcases hI.due with h | h | h
    · exact nomatch hphase.symm.trans h
    · omega
    · by_contra hlt
      have hmem := h s.changes (not_le.mp hlt) le_rfl
      exact absurd hmem (hunsent ▸ List.not_mem_nil)
  have hseen := hI.seen (le_antisymm hI.began_le hbegan)
  rw [hphase] at hseen
  exact ⟨s.pass, List.mem_cons_self, hbegan, hseen j hj⟩

end Invariant

/-! ### Two runs -/

lemma leads_own {cfg : Config} {s u t : System} (h : Advance cfg s u)
    (h' : Leads (Step cfg) Heard u t) : Leads (Step cfg) Heard s t :=
  .cons (.dispatcher h) trivial h'

/-- A job is pushed and announced; the pass examines it and puts it back. -/
lemma leads_deferred : ∃ t, Leads (Step .defaults) Heard
    (.initial dispatchSignal (idle 2 5 [])) t ∧ Parked t ∧ t.unsent = [] ∧
    t.world.queue = [jobOf 5] :=
  ⟨_, .cons (l := .change (.EnqueueJob (jobOf 5))) (.change ⟨(), (), _, rfl, rfl, rfl⟩) trivial <|
    .cons (l := .notify 1) (.notify (List.mem_singleton_self 1)) (.inl rfl) <|
    leads_own (.start rfl rfl) <| leads_own (.call (.starting (exec_answered rfl))) <|
    leads_own (.call (.starting (exec_answered rfl))) <|
    leads_own (.call (.starting (exec_answered rfl))) <| leads_own (.next .started) <|
    leads_own (.call (.popping (exec_answered rfl))) <|
    leads_own (.call (.popping (exec_answered rfl))) <|
    leads_own (.call (.popping (exec_answered rfl))) <| leads_own (.next .popped) <|
    -- the task, the platforms, the workers
    leads_own (.call (.examining (exec_answered rfl))) <|
    leads_own (.call (.examining (exec_answered rfl))) <|
    leads_own (.call (.examining (exec_answered rfl))) <|
    leads_own (.call (.examining (exec_answered rfl))) <| leads_own (.next .deferred) <|
    leads_own (.call (.popping (exec_answered rfl))) <| leads_own (.next .empty) <|
    leads_own (.call (.pushing (exec_answered rfl))) <| leads_own (.next .pushed) (.refl _),
    ⟨rfl, rfl⟩, rfl, rfl⟩

/-- The dispatcher waits, with a job in the queue that was pushed after the last pass began. -/
def missed : System where
  world := { World.initial with queue := [jobOf 5] }
  signal := dispatchSignal
  phase := .waiting
  changes := 2
  unsent := []
  pass := ⟨1, []⟩
  past := [⟨0, []⟩]

/-- A publication wakes the dispatcher, the pass finds the queue empty, and only then is the job
pushed and announced. -/
lemma leads_missed : Leads (Step .defaults) (fun _ _ => True)
    (.initial dispatchSignal .initial) missed :=
  .cons (l := .change .publish) (.change rfl) trivial <|
    .cons (l := .notify 1) (.notify (List.mem_singleton_self 1)) trivial <|
    .cons (.dispatcher (.start rfl rfl)) trivial <|
    .cons (.dispatcher (.call (.starting (exec_answered rfl)))) trivial <|
    .cons (l := .change (.EnqueueJob (jobOf 5))) (.change ⟨(), (), _, rfl, rfl, rfl⟩) trivial <|
    .cons (l := .notify 2) (.notify (List.mem_singleton_self 2)) trivial <|
    .cons (.dispatcher (.next .idle)) trivial (.refl _)

/-! ### Main results -/

section Main

variable {cfg : Config} {signal : Signal} {world : World} {tr : List (System × Label)} {t : System}

/-- **No lost wake-up**: with the channel that `New` makes, if every announcement finds the
dispatcher before its next pass or in a pass that began after the change announced, then in every
state reached a parked dispatcher has examined all queued jobs since the last change. -/
theorem no_lost_wakeup (hq : world.queue = [])
    (h : Run (Step cfg) (.initial dispatchSignal world) tr t) (hheard : Meets Heard tr) :
    ∀ u ∈ states tr t, Covered u := by
  have hI := h.invariant (fun _ _ _ hI hl hs => inv_step hI (.inl hl) hs) hheard
    (inv_initial dispatchSignal hq)
  exact fun u hu => covered_of_inv (hI u hu)

/-- A job that no worker can take is examined by the pass its push wakes, and stays queued. -/
theorem no_lost_wakeup_deferred : ∃ tr t,
    Run (Step .defaults) (.initial dispatchSignal (idle 2 5 [])) tr t ∧ Meets Heard tr ∧
      Parked t ∧ t.unsent = [] ∧ t.world.queue = [jobOf 5] ∧ ∀ u ∈ states tr t, Covered u := by
  obtain ⟨t, ⟨tr, hrun, hmeets⟩, hparked, hunsent, hqueue⟩ := leads_deferred
  exact ⟨tr, t, hrun, hmeets, hparked, hunsent, hqueue, no_lost_wakeup rfl hrun hmeets⟩

/-- A job pushed after the pass has looked at the queue, and announced before the dispatcher
waits again, is examined by no pass. -/
theorem pushed_in_a_pass : ∃ tr t,
    Run (Step .defaults) (.initial dispatchSignal .initial) tr t ∧ Parked t ∧ t.unsent = [] ∧
      t.world.queue = [jobOf 5] ∧ (∀ p ∈ t.pass :: t.past, p.examined = []) ∧ ¬Covered t := by
  obtain ⟨tr, hrun, -⟩ := leads_missed
  have hnone : ∀ p ∈ missed.pass :: missed.past, p.examined = [] := by decide
  refine ⟨tr, missed, hrun, ⟨rfl, rfl⟩, rfl, rfl, hnone, fun hcovered => ?_⟩
  obtain ⟨p, hp, -, hmem⟩ := hcovered ⟨rfl, rfl⟩ rfl (jobOf 5) (List.mem_singleton_self _)
  rw [hnone p hp] at hmem
  exact List.not_mem_nil hmem

end Main

end Workforce.Wakeups
