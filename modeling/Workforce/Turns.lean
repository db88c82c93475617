import Workforce.QueueCopies

/-!
The manager's threads, taking turns.

Between two calls of a request, a message, a timer or a pass the others may do anything. Whatever
the order, a job stays stored as it was submitted, the heap holds copies of stored jobs, and a
parent is stored before its children, so no job is its own ancestor.
-/

namespace Workforce.Turns

open Tables Contract Progs Shared Calls Handlers Runs Footprints Fresh Operations
open Origins Knowledge QueueCopies

variable {cfg : Config} {st : Stores} {β : Type} {s t : World} {p p' : Prog.Pool Call World}

/-! ### Families -/

/-- The job is stored as a child of the other. -/
def ParentOf (s : World) (parent child : String) : Prop :=
  parent ≠ "" ∧ ∃ j, s.jobs.get child = some j ∧ j.ParentJobID = parent

/-- Parents are stored, and come before their children in some order. -/
def Ranked (s : World) : Prop :=
  ∃ rank : String → ℕ, ∀ parent child, ParentOf s parent child →
    s.jobs.get parent ≠ none ∧ rank parent < rank child

lemma Ranked.keeps (hs : Ranked s) (hk : KeepsFixed s t)
    (hback : ∀ id, s.jobs.get id = none → t.jobs.get id = none) : Ranked t := by
  obtain ⟨rank, hrank⟩ := hs
  refine ⟨rank, ?_⟩
  rintro parent child ⟨hp, j', hj', hparent⟩
  obtain ⟨j, hj⟩ := Option.ne_none_iff_exists'.mp fun hnone => by simp [hback child hnone] at hj'
  obtain ⟨j'', hj'', hfixed⟩ := hk child j hj
  cases hj'.symm.trans hj''
  have hsame : j'.ParentJobID = j.ParentJobID := (sameOrigin_of_fixed hfixed).ParentJobID
  obtain ⟨hstored, hlt⟩ := hrank parent child ⟨hp, j, hj, hsame ▸ hparent⟩
  obtain ⟨i, hi⟩ := Option.ne_none_iff_exists'.mp hstored
  obtain ⟨i', hi', -⟩ := hk parent i hi
  exact ⟨by simp [hi'], hlt⟩

/-- A new job ranks after its parent, which is stored already. -/
lemma Ranked.save {job : Job} (hs : Ranked s) (hnew : s.jobs.get job.ID = none)
    (hparent : job.ParentJobID = "" ∨ s.jobs.get job.ParentJobID ≠ none) :
    Ranked { s with jobs := s.jobs.put job } := by
  obtain ⟨rank, hrank⟩ := hs
  have hold {id : String} (hid : s.jobs.get id ≠ none) : id ≠ job.ID := fun h => hid (h ▸ hnew)
  refine ⟨Function.update rank job.ID (rank job.ParentJobID + 1), ?_⟩
  rintro parent child ⟨hp, j, hj, rfl⟩
  rw [get_put] at hj
  split_ifs at hj with hchild
  · cases hj
    have hstored := hparent.resolve_left hp
    rw [get_put, if_neg (hold hstored), hchild, Function.update_self,
      Function.update_of_ne (hold hstored)]
    exact ⟨hstored, Nat.lt_succ_self _⟩
  · obtain ⟨hstored, hlt⟩ := hrank _ child ⟨hp, j, hj, rfl⟩
    rw [get_put, if_neg (hold hstored), Function.update_of_ne (hold hstored),
      Function.update_of_ne hchild]
    exact ⟨hstored, hlt⟩

lemma ranked_call {F : Set Fact} {c : Call β} {b : β} (hs : Ranked s)
    (hF : ∀ f, .job f ∈ F → Known s f) (hc : Needs F c) (h : execNew st c s b t) : Ranked t := by
  have hkeeps := keepsFixed_call h
  obtain ⟨hnew, h⟩ := h
  cases c with
  | saveJob job =>
    rcases h with ⟨-, rfl⟩ | ⟨-, rfl⟩
    · refine hs.save hnew (hc.2.imp_right ?_)
      rintro ⟨f, hf, hid⟩ hnone
      have hknown := hF f hf
      rw [Known, hid, hnone] at hknown
      cases hknown
    · exact hs
  | ulidMake =>
    obtain ⟨-, -, rfl⟩ := h
    exact hs
  | createRun => exact hs.keeps hkeeps fun _ hid => (same_of_createRun h).jobs ▸ hid
  | _ => exact hs.keeps hkeeps fun id => ((sameKeys_of_plain (by trivial) h).jobs id).mpr

/-! ### Turns -/

/-- A thread makes its next call, a thread starts, or the pool, the tasks or the timers change,
which takes no call. -/
inductive Turn (cfg : Config) :
    Prog.Pool Call World → Option ℕ → Prog.Pool Call World → Prop
  | call {p p' : Prog.Pool Call World} {i : ℕ} :
      Prog.Step (exec cfg.toStores) p i p' → Turn cfg p (some i) p'
  | serve {s : World} {ts : List (M Unit)} {q : M Unit} :
      Served cfg q → Turn cfg ⟨s, ts⟩ none ⟨s, ts ++ [q]⟩
  | outside {s t : World} {ts : List (M Unit)} : Kept s t → Turn cfg ⟨s, ts⟩ none ⟨t, ts⟩

/-- The private fact of a thread: the jobs it knows of are stored so. -/
def Recalling (F : Set Fact) (q : M Unit) (s : World) : Prop :=
  Knows F q ∧ ∀ f, .job f ∈ F → Known s f

theorem modular_recalling :
    Prog.Modular (exec st) StoresNew (fun s => Faithful s ∧ Ranked s) Recalling
      (fun _ _ => True) where
  symm := fun h => h
  step := by
    intro F β c k s t b hI hq hnew he
    obtain ⟨⟨hc, hk⟩, hF⟩ := hq
    have hrec : Recorded s F := ⟨hI.1, hF⟩
    refine ⟨⟨faithful_call hrec ⟨hnew, he⟩ hc, ranked_call hI.2 hF hc ⟨hnew, he⟩⟩,
      learns F c b, ⟨hk b _ rfl, fun f hf => known_learns hrec ⟨hnew, he⟩ hf⟩, ?_⟩
    intro F' q' _ hq'
    exact ⟨⟨hq'.1, fun f hf => (hq'.2 f hf).keeps (keepsFixed_call ⟨hnew, he⟩)⟩, trivial⟩

/-- Every thread stores only under its own names, and knows the jobs it queues or gives children. -/
def Orderly (p : Prog.Pool Call World) : Prop :=
  Owned p ∧ Prog.Modular.Inv (fun s => Faithful s ∧ Ranked s) Recalling (fun _ _ => True) p

lemma keepsFixed_turn {l : Option ℕ} (hp : Orderly p) (h : Turn cfg p l p') :
    KeepsFixed p.st p'.st := by
  cases h with
  | @call _ _ i h =>
    have hnew := storesNew_of_owned (i := i) hp.1
    cases h with
    | mk hi he => exact keepsFixed_call ⟨(nextMeets_iff hi).mp hnew, he⟩
  | serve => exact .of_eq rfl
  | outside hk => exact .of_eq hk.jobs

/-- **One turn** leaves the threads in order. -/
theorem orderly_turn {l : Option ℕ} (hp : Orderly p) (h : Turn cfg p l p') : Orderly p' := by
  obtain ⟨howned, hrec⟩ := hp
  cases h with
  | call h =>
    exact ⟨owned_step howned h, modular_recalling.inv_step hrec (storesNew_of_owned howned) h⟩
  | serve hq =>
    have hknows := knows_served hq
    exact ⟨howned.spawn ⟨owns_of_knows hknows, Finset.empty_subset _, by simp⟩
      fun _ => disjoint_bot_right, hrec.spawn ⟨hknows, fun _ hf => hf.elim⟩ fun _ => trivial⟩
  | @outside s t ts hk =>
    have hfixed : KeepsFixed s t := .of_eq hk.jobs
    have hkeys : SameKeys s t := .of_eq hk.jobs hk.runs hk.issued.ge
    refine ⟨howned.mono hkeys.idsIssued fun own q h => h.mono hkeys.issued fun _ _ => hkeys.unused,
      hrec.mono (fun hI => ⟨hI.1.congr hfixed hk.queue, ?_⟩)
        fun F q h => ⟨h.1, fun f hf => (h.2 f hf).keeps hfixed⟩⟩
    exact hI.2.keeps hfixed fun id => (hkeys.jobs id).mpr

lemma orderly_initial : Orderly ⟨World.initial, []⟩ := by
  refine ⟨owned_start ⟨fun _ h => absurd rfl h, fun _ h => absurd rfl h⟩ (by simp), ?_⟩
  refine ⟨⟨by simp [Faithful, World.initial], fun _ => 0, ?_⟩, [], .nil, .nil⟩
  rintro parent child ⟨-, j, hj, -⟩
  cases hj

variable {tr : List (Prog.Pool Call World × Option ℕ)}

lemma orderly_run (h : Run (Turn cfg) ⟨World.initial, []⟩ tr p) :
    ∀ q ∈ states tr p, Orderly q :=
  h.invariant (G := fun _ _ => True) (fun _ _ _ hp _ => orderly_turn hp) (fun _ _ => trivial)
    orderly_initial

/-- A program that nobody interrupts. -/
lemma turns_of_ends {q : M Unit} (h : Prog.Ends (exec cfg.toStores) q s () t) (ts : List (M Unit)) :
    ∃ tr, Run (Turn cfg) ⟨s, ts ++ [q]⟩ tr ⟨t, ts ++ [.pure ()]⟩ := by
  induction q generalizing s with
  | pure a =>
    obtain ⟨-, rfl⟩ := h
    exact ⟨[], .nil _⟩
  | call c k ih =>
    obtain ⟨b, u, hu, h⟩ := h
    obtain ⟨tr, htr⟩ := ih b h
    have hi : (ts ++ [.call c k])[ts.length]? = some (.call c k) := by simp
    have hstep := Prog.Step.mk hi hu
    rw [List.set_append_right _ _ le_rfl, Nat.sub_self] at hstep
    exact ⟨_, .cons (.call hstep) htr⟩

/-- **Operations are turns.** What whole operations do one after the other, the threads can do. -/
theorem turns_of_run {ops : List (World × Op)} (h : Run (step cfg) s ops t) (ts : List (M Unit)) :
    ∃ tr ts', Run (Turn cfg) ⟨s, ts⟩ tr ⟨t, ts'⟩ := by
  induction h generalizing ts with
  | nil => exact ⟨[], ts, .nil _⟩
  | cons hstep _ ih =>
    obtain ⟨u, q, hq⟩ := serves_of_stepBy hstep
    obtain ⟨tr, htr⟩ := turns_of_ends hq.ends ts
    obtain ⟨tr', ts', htr'⟩ := ih (ts ++ [.pure ()])
    exact ⟨_, ts', .cons (.outside hq.kept) (.cons (.serve hq.served) (htr.append htr'))⟩

/-- A worker has taken up a job, which emits another one. -/
lemma decomposes : ∃ tr p, Run (Turn .defaults) ⟨World.initial, []⟩ tr p ∧
    p.st.queue.map Job.ID = ["c"] ∧ ParentOf p.st "j" "c" := by
  obtain ⟨ops, s, hrun, hqueue, hchild⟩ : ∃ ops s, Run (step .defaults) World.initial ops s ∧
      s.queue.map Job.ID = ["c"] ∧ ParentOf s "j" "c" :=
    ⟨_, _, run_played (proposes ++ [.accept 0 "w" "j", .result 0
      { JobID := "j", RunID := "r", ResultType := .subjobs, Jobs := [{ Task := "t" }] }])
      { ids := ["j", "r", "c"] } rfl, by decide, by decide, _, rfl, by decide⟩
  obtain ⟨tr, ts, h⟩ := turns_of_run hrun []
  exact ⟨tr, _, h, hqueue, hchild⟩

/-- **Families.** Whatever the manager's threads do and in whatever order, the parent of a stored
job is stored, and no job is its own ancestor. -/
theorem families_run (h : Run (Turn cfg) ⟨World.initial, []⟩ tr p) :
    ∀ q ∈ states tr p, (∀ parent child, ParentOf q.st parent child → q.st.jobs.get parent ≠ none) ∧
      WellFounded (ParentOf q.st) := by
  intro q hq
  obtain ⟨-, ⟨-, rank, hrank⟩, -⟩ := orderly_run h q hq
  refine ⟨fun parent child hpc => (hrank parent child hpc).1, ?_⟩
  exact Subrelation.wf (fun hpc => (hrank _ _ hpc).2) (measure rank).wf

theorem families_decomposes : ∃ tr p, Run (Turn .defaults) ⟨World.initial, []⟩ tr p ∧
    ParentOf p.st "j" "c" ∧ p.st.jobs.get "j" ≠ none ∧ WellFounded (ParentOf p.st) := by
  obtain ⟨tr, p, h, -, hchild⟩ := decomposes
  obtain ⟨hstored, hwf⟩ := families_run h _ Run.last_mem
  exact ⟨tr, p, h, hchild, hstored _ _ hchild, hwf⟩

/-- **Copies.** Every job in the heap is a copy of a stored one, up to what changes with its
status. -/
theorem copies_run (h : Run (Turn cfg) ⟨World.initial, []⟩ tr p) :
    ∀ q ∈ states tr p, ∀ job ∈ q.st.queue, ∃ j, q.st.jobs.get job.ID = some j ∧
      fixed j = fixed job := by
  intro q hq job hjob
  obtain ⟨-, ⟨hfaithful, -⟩, -⟩ := orderly_run h q hq
  exact (hfaithful job hjob).exists_get

theorem copies_decomposes : ∃ tr p, Run (Turn .defaults) ⟨World.initial, []⟩ tr p ∧
    p.st.queue.map Job.ID = ["c"] ∧
    ∀ job ∈ p.st.queue, ∃ j, p.st.jobs.get job.ID = some j ∧ fixed j = fixed job := by
  obtain ⟨tr, p, h, hq, -⟩ := decomposes
  exact ⟨tr, p, h, hq, copies_run h _ Run.last_mem⟩

/-- **Nothing is lost.** A job that is stored is stored ever after, with the task, the payload, the
parent and the time it was submitted with. -/
theorem survive_turns (h : Run (Turn cfg) ⟨World.initial, []⟩ tr p) :
    (states tr p).Pairwise fun q q' => Survive q.st q'.st := by
  have hkeeps : (states tr p).Pairwise fun q q' => KeepsFixed q.st q'.st :=
    h.pairwise (I := Orderly) (G := fun _ _ => True) KeepsFixed.trans
      (fun _ _ _ hq _ => orderly_turn hq) (fun _ _ _ hq _ => keepsFixed_turn hq)
      (fun _ _ => trivial) orderly_initial
  exact hkeeps.imp KeepsFixed.survive

theorem survive_decomposes : ∃ tr p, Run (Turn .defaults) ⟨World.initial, []⟩ tr p ∧
    p.st.queue.map Job.ID = ["c"] ∧
    (states tr p).Pairwise fun q q' => Survive q.st q'.st := by
  obtain ⟨tr, p, h, hq, -⟩ := decomposes
  exact ⟨tr, p, h, hq, survive_turns h⟩

end Workforce.Turns
