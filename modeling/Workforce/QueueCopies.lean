import Workforce.Origins

/-!
The dispatch heap holds copies of stored jobs.

A program queues only jobs that it knows of. What is fixed of a job stays as it was, so a copy in
the heap, however old, agrees on that with the stored job of its name.
-/

namespace Workforce.QueueCopies

open Tables Contract Progs Shared Calls Handlers Operations
open Origins Knowledge

variable {cfg : Config} {α β : Type} {s t : World}

/-- What is fixed of a job is what the store has under its name. -/
def Known (s : World) (f : Job) : Prop := (s.jobs.get f.ID).map fixed = some f

/-- Every job in the heap is a copy of a stored one. -/
def Faithful (s : World) : Prop := ∀ q ∈ s.queue, Known s (fixed q)

lemma known_of_get {id : String} {j : Job} (h : s.jobs.get id = some j) : Known s (fixed j) := by
  have hid : j.ID = id := key_of_get h
  show (s.jobs.get j.ID).map fixed = some (fixed j)
  rw [hid, h, Option.map_some]

lemma Known.exists_get {q : Job} (h : Known s (fixed q)) :
    ∃ j, s.jobs.get q.ID = some j ∧ fixed j = fixed q :=
  Option.map_eq_some_iff.mp h

lemma Known.keeps {f : Job} (h : Known s f) (hk : KeepsFixed s t) : Known t f := by
  obtain ⟨j, hj, rfl⟩ := Option.map_eq_some_iff.mp h
  obtain ⟨j', hj', hfixed⟩ := hk _ j hj
  exact Option.map_eq_some_iff.mpr ⟨j', hj', hfixed⟩

lemma Faithful.congr (h : Faithful s) (hk : KeepsFixed s t) (hq : t.queue = s.queue) :
    Faithful t := by
  intro q hmem
  rw [hq] at hmem
  exact (h q hmem).keeps hk

/-- Every job in the heap, and every job a program knows of, is a copy of a stored one. -/
structure Recorded (s : World) (F : Set Fact) : Prop where
  queue : Faithful s
  known : ∀ f, .job f ∈ F → Known s f

lemma known_learns {F : Set Fact} {st : Stores} {c : Call β} {b : β} (hs : Recorded s F)
    (h : execNew st c s b t) {f : Job} (hf : .job f ∈ learns F c b) : Known t f := by
  have hkeeps : ∀ {f}, .job f ∈ F → Known t f := fun hf =>
    (hs.known _ hf).keeps (keepsFixed_call h)
  obtain ⟨-, h⟩ := h
  cases c with
  | getJob id =>
    obtain ⟨hb, rfl⟩ := h
    obtain hf | ⟨j, hj, hf⟩ := hf
    · exact hkeeps hf
    · cases hf
      exact known_of_get (hb.symm.trans hj)
  | popItem =>
    obtain hf | ⟨j, hj, hf⟩ := hf
    · exact hkeeps hf
    · cases hf
      subst hj
      obtain ⟨hmem, -, rfl⟩ := h
      exact hs.queue j hmem
  | saveJob job =>
    obtain ⟨hf, -⟩ | ⟨hb, hf⟩ := hf
    · exact hkeeps hf
    cases hf
    rcases h with ⟨-, rfl⟩ | ⟨hne, -⟩
    · show (Table.get _ job.ID).map fixed = some (fixed job)
      rw [get_put, if_pos rfl, Option.map_some]
    · exact absurd hb hne
  | createRun => exact hkeeps hf.1
  | ulidMake => exact hkeeps (hf.resolve_left Fact.noConfusion)
  | eligibleWorkers => exact hkeeps (hf.resolve_right fun hf => nomatch hf.2)
  | _ => exact hkeeps hf

lemma faithful_call {F : Set Fact} {st : Stores} {c : Call β} {b : β} (hF : Recorded s F)
    (h : execNew st c s b t) (hc : Needs F c) : Faithful t := by
  have hs := hF.queue
  have hkeeps := keepsFixed_call h
  obtain ⟨-, h⟩ := h
  cases c with
  | pushItem job =>
    intro q hmem
    subst h
    rcases List.mem_append.mp hmem with hmem | hmem
    · exact hs q hmem
    · rw [List.mem_singleton.mp hmem]
      exact hF.known _ hc
  | popItem =>
    obtain ⟨-, -, rfl⟩ | ⟨j, -, -, -, rfl⟩ := exec_popItem h
    · exact hs
    · exact fun q hmem => hs q (List.mem_of_mem_erase hmem)
  | applyStarvationAging timeout =>
    obtain ⟨now, rfl⟩ := h
    intro q hmem
    have hmap : fixed q ∈ s.queue.map fixed := by
      rw [← aged_map (f := fixed) (fun _ _ => rfl) timeout now]
      exact List.mem_map_of_mem hmem
    obtain ⟨q', hmem', hfixed⟩ := List.mem_map.mp hmap
    rw [← hfixed]
    exact hs q' hmem'
  | _ => exact hs.congr hkeeps ((untouched h).queue nofun)

/-- A program that knows what it queues leaves nothing but copies of stored jobs in the heap. -/
theorem faithful_of_knows {F : Set Fact} {st : Stores} {p : M α} {a : α} (hp : Knows F p)
    (hs : Recorded s F) (h : Prog.Ends (execNew st) p s a t) : Faithful t := by
  obtain ⟨F', ht⟩ := knows_sound (R := Recorded) (fun hF hc he =>
    ⟨faithful_call hF he hc, fun _ hf => known_learns hF he hf⟩) hp hs h
  exact ht.queue

lemma knows_served {q : M Unit} (h : Served cfg q) : Knows ∅ q := by
  cases h with
  | nothing => trivial
  | submit req => exact informed_bind (knows_handleSubmitJob req)
  | pass => exact informed_bind knows_ProcessQueue
  | @activity a ha =>
    cases a with
    | accept => exact knows_handleAcceptMessage _ _ _
    | staged => exact knows_handleStagedMessage _
    | starting => exact knows_handleStartingMessage _ _ _
    | reject => exact knows_handleRejectMessage _ _
    | result => exact knows_handleResultMessage _ _
    | retry => exact knows_retryTimer _
    | requeue => exact knows_OnJobsRequeued _
    | cancel => exact knows_cancelJobByID _
    | propose job keys => exact absurd rfl (ha job keys)

/-- **Copies stay copies.** No operation leaves a job in the heap that is not a copy of a stored
one. -/
theorem faithful_step {op : Op} (hs : Faithful s)
    (h : stepBy cfg (execNew cfg.toStores) s op t) : Faithful t := by
  obtain ⟨u, q, hq⟩ := serves_of_stepBy h
  have hu : Faithful u := hs.congr (.of_eq hq.kept.jobs) hq.kept.queue
  exact faithful_of_knows (knows_served hq.served) ⟨hu, fun _ h => h.elim⟩ hq.ends

end Workforce.QueueCopies
