import Workforce.Playback
import Workforce.Pass

/-!
What a dispatch pass does with the jobs it finds: it ends, every queued job is accounted for
once, the jobs are examined best first, and each cancelled name takes one job with it.
-/

namespace Workforce.Conservation

open Contract Progs Shared Calls Handlers Dispatcher Footprints Pass

/-! ### The pass ends

The loops are bounded by their fuel, so a pass ends if no call is left without an answer. Only
the selector can be: it has nothing to answer when it is given no worker. -/

def CanAnswer (cfg : Stores) {β : Type} (c : Call β) (s : World) : Prop :=
  ∃ b t, exec cfg c s b t

lemma isHigherPriority_trans {a b c : Job} (hab : isHigherPriority a b)
    (hbc : isHigherPriority b c) : isHigherPriority a c := by
  simp only [isHigherPriority] at hab hbc ⊢
  split_ifs at hab hbc ⊢
  all_goals first
    | omega
    | exact hab.trans hbc

lemma exists_top (q : List Job) (hq : q ≠ []) :
    ∃ j ∈ q, ∀ k ∈ q, ¬isHigherPriority k j := by
  have hirr (j : Job) : ¬isHigherPriority j j := by simp [isHigherPriority]
  induction q with
  | nil => exact absurd rfl hq
  | cons a q ih =>
    rcases eq_or_ne q [] with rfl | hne
    · exact ⟨a, List.mem_singleton_self a, fun k hk => List.mem_singleton.mp hk ▸ hirr a⟩
    obtain ⟨j, hj, htop⟩ := ih hne
    by_cases ha : isHigherPriority a j
    · refine ⟨a, List.mem_cons_self, fun k hk hka => ?_⟩
      rcases List.mem_cons.mp hk with rfl | hk
      · exact hirr k hka
      · exact htop k hk (isHigherPriority_trans hka ha)
    · refine ⟨j, List.mem_cons_of_mem a hj, fun k hk => ?_⟩
      rcases List.mem_cons.mp hk with rfl | hk
      · exact ha
      · exact htop k hk

variable {cfg : Config} {s : World}

/-- The calls of a pass, apart from those to the selector. -/
def Answered : {β : Type} → Call β → Prop
  | _, .select _ => False
  | _, .pushItem _ => True
  | _, .popItem => True
  | _, .applyStarvationAging _ => True
  | _, .cancelledRemove _ => True
  | _, c => InTurn c

lemma exists_exec {β : Type} {c : Call β} (hc : Answered c) (s : World) :
    CanAnswer cfg.toStores c s := by
  cases c with
  | select => exact hc.elim
  | ulidMake =>
    obtain ⟨id, hid⟩ := Infinite.exists_notMem_finset (insert "" s.issued)
    rw [Finset.mem_insert, not_or] at hid
    exact ⟨id, _, hid.1, hid.2, rfl⟩
  | listChildJobs p =>
    refine ⟨(s.jobs.values.filter fun j => j.ParentJobID = p).mergeSort
      (fun a b => decide (a.CreatedAt ≤ b.CreatedAt)), s, List.mergeSort_perm _ _, ?_, rfl⟩
    refine (List.pairwise_mergeSort ?_ ?_ _).imp of_decide_eq_true
    · intro a b c hab hbc
      rw [decide_eq_true_iff] at *
      exact hab.trans hbc
    · intro a b
      rw [Bool.or_eq_true, decide_eq_true_iff, decide_eq_true_iff]
      exact le_total _ _
  | popItem =>
    rcases eq_or_ne s.queue [] with hq | hq
    · exact ⟨none, s, hq, rfl⟩
    · obtain ⟨j, hj, htop⟩ := exists_top s.queue hq
      exact ⟨some j, _, hj, htop, rfl⟩
  | subtractCapacity w taskID cost =>
    rcases hw : s.conns.get w with _ | c
    · exact ⟨false, s, by simp [exec, hw]⟩
    rcases ha : c.AssignTask taskID cost with err | c'
    · exact ⟨false, s, by simp [exec, hw, ha]⟩
    · exact ⟨true, { s with conns := s.conns.put c' }, by simp [exec, hw, ha]⟩
  | saveJob | updateJobFiring | createRun | cancelledAdd | restoreCapacity | putRejected |
    afterFunc => exact hc.elim
  | _ => exact ⟨_, _, exec_of_answer (x := ({}, s)) rfl⟩

/-- From `s`, the program ends whatever the answers are. -/
abbrev Finishes (cfg : Config) {α : Type} (p : M α) (s : World) : Prop :=
  Prog.wp (exec cfg.toStores) (CanAnswer cfg.toStores) p (fun _ _ => True) s

lemma finishes_of_uses {α : Type} {p : M α} (hp : p.Uses Answered) (s : World) :
    Finishes cfg p s :=
  wp_true_of_uses (fun hc => exists_exec hc _) hp

lemma finishes_bind {α β : Type} {p : M α} {f : α → M β} (hp : Finishes cfg p s)
    (hf : ∀ a t, Finishes cfg (f a) t) : Finishes cfg (p >>= f) s :=
  (wp_bind _ _ _ _).mpr (wp_mono hp fun a t _ => hf a t)

lemma finishes_tryProposeJob (job : Job) (keys : List String) :
    Finishes cfg (tryProposeJob cfg job keys) s := by
  have henqueue (event : String) (data : WebhookData) : (enqueue job event data).Uses Answered :=
    uses_enqueue trivial trivial (fun _ => trivial) job event data
  refine wp_step (exists_exec (by trivial) s) fun task _ _ => ?_
  cases task with
  | none => trivial
  | some taskDef =>
    split_ifs
    · trivial
    refine wp_step (exists_exec (by trivial) _) fun workers t _ => ?_
    split_ifs with hw
    · trivial
    -- the selector is asked only when there is a worker to choose
    have hselect : CanAnswer cfg.toStores (.select workers) t :=
      ⟨workers.head hw, t, List.head_mem hw, rfl⟩
    refine wp_step hselect fun selected u _ => finishes_of_uses ?_ u
    refine uses_bind _ (uses_artifactFor (fun _ _ _ _ => trivial) cfg job taskDef selected)
      fun art => ?_
    cases art with
    | error err => trivial
    | ok info =>
      refine uses_step trivial fun sent => ?_
      split_ifs
      · trivial
      refine uses_step trivial fun updated => ?_
      split_ifs
      · trivial
      refine uses_step trivial fun assigned => ?_
      split_ifs
      · trivial
      · exact uses_bind _ (henqueue _ _) fun _ => trivial

lemma finishes_ProcessQueue (s : World) : Finishes cfg (ProcessQueue cfg) s := by
  have hlift {β : Type} {c : Call β} {t : World} (hc : Answered c) : Finishes cfg (.lift c) t :=
    finishes_of_uses (uses_lift hc) t
  refine wp_pass cfg (I := fun _ _ => True) (fun {β c l x} hc _ => hlift ?_)
    (fun _ => hlift (by trivial)) (fun _ => hlift (by trivial)) (fun _ => hlift (by trivial))
    (fun _ => hlift (by trivial)) (fun _ => hlift (by trivial))
    (fun _ => finishes_tryProposeJob _ _) (fun _ _ => trivial) trivial
  cases c <;> first | exact hc.elim | trivial

/-! ### Every job is accounted for -/

section Accounts

variable {run : ∀ {β : Type}, Call β → World → β → World → Prop}
variable (hrun : ∀ {β : Type} {c : Call β} {s b t}, run c s b t → exec cfg.toStores c s b t)
variable {online : List String} {c : Caches} {turns : List Turn} {t : World}
include hrun

lemma examine_not_discarded {job : Job} {r : Caches × Outcome}
    (h : Prog.Ends run (examine cfg job online c) s r t) : r.2 ≠ .discarded := by
  have hfail (reason : String) (c : Caches) (u : World) :
      Prog.wp (exec cfg.toStores) (fun _ _ => True)
        (failJobDirect job reason >>= fun _ => Prog.pure (c, Outcome.failed))
        (fun r _ => r.2 ≠ .discarded) u :=
    (wp_bind _ _ _ _).mpr (wp_of_forall fun _ _ => Outcome.noConfusion)
  have hwp : Prog.wp (exec cfg.toStores) (fun _ _ => True) (examine cfg job online c)
      (fun r _ => r.2 ≠ .discarded) s := by
    refine (wp_bind _ _ _ _).mpr (wp_of_forall fun r u => ?_)
    obtain ⟨c, keys, _ | d⟩ := r
    · refine (wp_bind _ _ _ _).mpr (wp_of_forall fun e v => ?_)
      rcases e with (_ | _ | _ | text) | _
      · exact hfail _ _ v
      all_goals exact Outcome.noConfusion
    · dsimp only
      split_ifs
      · exact hfail _ _ u
      · exact Outcome.noConfusion
  have hne := wp_sound hwp (ends_mono h hrun)
  exact hne

/-- What a turn does to the queue and to the cancelled names. -/
structure Takes (s : World) (a : Turn) (v : World) : Prop where
  mem : a.job ∈ s.queue
  top : ∀ k ∈ s.queue, ¬isHigherPriority k a.job
  queue : v.queue = s.queue.erase a.job
  cancelled : (a.outcome = .discarded ∧ a.job.ID ∈ s.cancelledJobIDs ∧
      v.cancelledJobIDs = s.cancelledJobIDs.erase a.job.ID) ∨
    (a.outcome ≠ .discarded ∧ a.job.ID ∉ s.cancelledJobIDs ∧
      v.cancelledJobIDs = s.cancelledJobIDs)

lemma loop_induction {P : World → List Turn → Prop}
    (hdone : t.queue = [] → P t [])
    (hturn : ∀ s a v turns, Takes s a v → P v turns → P s (a :: turns))
    (h : Loop cfg run online s c turns t) : P s turns := by
  induction h with
  | done hq => exact hdone hq
  | discard hpop hc hremove _ ih =>
    obtain ⟨hmem, htop, rfl⟩ := hrun hpop
    obtain rfl := hrun hremove
    exact hturn _ _ _ _ ⟨hmem, htop, rfl, .inl ⟨rfl, hc, rfl⟩⟩ (ih hdone)
  | examine hpop hc hvis _ ih =>
    obtain ⟨hmem, htop, hu⟩ := hrun hpop
    have hends := ends_of_visits hvis
    have hstays := stays_examine hrun hends
    have hcancelled := congrArg World.cancelledJobIDs hu
    refine hturn _ _ _ _ ⟨hmem, htop, ?_, .inr ⟨?_, ?_, ?_⟩⟩ (ih hdone)
    · rw [hstays.queue, hu]
    · exact examine_not_discarded hrun hends
    · exact hcancelled ▸ hc
    · exact hstays.cancelledJobIDs.trans hcancelled

end Accounts

/-- The jobs are examined best first, and each cancelled name takes one queued job of that name
with it, if there is one. -/
structure Discards (s t : World) (turns : List Turn) : Prop where
  order : (turns.map Turn.job).Pairwise fun a b => ¬isHigherPriority b a
  discarded : ∀ id, ((discardedJobs turns).map Job.ID).count id =
    if id ∈ s.cancelledJobIDs ∧ id ∈ s.queue.map Job.ID then 1 else 0
  kept : t.cancelledJobIDs = s.cancelledJobIDs.filter fun id => id ∉ s.queue.map Job.ID

/-- The turns of a loop from `s` to `t` account for the queue and the cancelled names. -/
structure Accounted (s t : World) (turns : List Turn) : Prop extends Discards s t turns where
  jobs : s.queue.Perm (turns.map Turn.job)

lemma Accounted.done {t : World} (hq : t.queue = []) : Accounted t t [] where
  jobs := by rw [hq, List.map_nil]
  order := .nil
  discarded := by simp [discardedJobs, hq]
  kept := by simp [hq]

lemma Takes.mem_queue {a : Turn} {v : World} (h : Takes s a v) (id : String) :
    id ∈ s.queue.map Job.ID ↔ id = a.job.ID ∨ id ∈ v.queue.map Job.ID := by
  rw [((List.perm_cons_erase h.mem).map Job.ID).mem_iff, List.map_cons, List.mem_cons, h.queue]

lemma Accounted.turn {a : Turn} {v t : World} {turns : List Turn} (ha : Takes s a v)
    (h : Accounted v t turns) : Accounted s t (a :: turns) := by
  have hjobs := h.jobs
  rw [ha.queue] at hjobs
  refine ⟨⟨.cons (fun k hk => ?_) h.order, fun id => ?_, ?_⟩,
    (List.perm_cons_erase ha.mem).trans (hjobs.cons _)⟩
  · exact ha.top k (List.mem_of_mem_erase (hjobs.mem_iff.mpr hk))
  · have hcount := h.discarded id
    rcases ha.cancelled with ⟨ho, hmem, hv⟩ | ⟨ho, hmem, hv⟩
    · have hcons : discardedJobs (a :: turns) = a.job :: discardedJobs turns := by
        simp [discardedJobs, ho]
      rw [hcons, List.map_cons, List.count_cons, hcount]
      simp only [ha.mem_queue, hv, Finset.mem_erase]
      by_cases hid : id = a.job.ID
      · subst hid
        simp [hmem]
      · simp [hid, Ne.symm hid]
    · have hcons : discardedJobs (a :: turns) = discardedJobs turns := by
        cases hout : a.outcome <;> simp_all [discardedJobs]
      rw [hcons, hcount]
      simp only [ha.mem_queue, hv]
      by_cases hid : id = a.job.ID
      · subst hid
        simp [hmem]
      · simp [hid]
  · rw [h.kept]
    ext id
    rw [Finset.mem_filter, Finset.mem_filter, ha.mem_queue]
    rcases ha.cancelled with ⟨-, hmem, hv⟩ | ⟨-, hmem, hv⟩
    · rw [hv, Finset.mem_erase]
      tauto
    · rw [hv]
      refine and_congr_right fun hid => ?_
      have hne : id ≠ a.job.ID := fun h => hmem (h ▸ hid)
      simp [hne]

lemma accounted_of_loop {run : ∀ {β : Type}, Call β → World → β → World → Prop}
    (hrun : ∀ {β : Type} {c : Call β} {s b t}, run c s b t → exec cfg.toStores c s b t)
    {online : List String} {c : Caches} {turns : List Turn} {t : World}
    (h : Loop cfg run online s c turns t) : Accounted s t turns :=
  loop_induction (P := fun s turns => Accounted s t turns) hrun .done
    (fun _ _ _ _ => Accounted.turn) h

/-- The pass from `s` to `t` accounts for every job: the queue as aging leaves it is made up of
the jobs discarded, failed, proposed and queued afterwards. -/
structure Conserves (timeout : Duration) (s t : World) (turns : List Turn) : Prop
    extends Discards s t turns where
  jobs : ∃ now, (aged timeout now s.queue).Perm
    (discardedJobs turns ++ (failedJobs turns ++ (proposedJobs turns ++ t.queue)))

lemma conserves_of_passes {turns : List Turn} {shortage : Bool} {t : World}
    (h : Passes cfg (exec cfg.toStores) s turns shortage t) :
    Conserves cfg.StarvationTimeout s t turns := by
  cases h with
  | idle hq =>
    refine ⟨(Accounted.done hq).toDiscards, 0, ?_⟩
    rw [hq]
    unfold aged
    split_ifs <;> exact .nil
  | loop _ hage honline hloop ht =>
    obtain ⟨now, rfl⟩ := hage
    obtain ⟨-, rfl⟩ := honline
    obtain ⟨⟨horder, hdiscarded, hkept⟩, hjobs⟩ := accounted_of_loop id hloop
    rw [aged_map_ID] at hdiscarded hkept
    subst ht
    exact ⟨⟨horder, hdiscarded, hkept⟩, now, hjobs.trans (perm_outcomes turns)⟩

/-- **Conservation.** A dispatch pass that nothing interrupts ends, whatever the queue, the
stores, the registry and the pool are, and however it ends it has gone through one turn for each
queued job. -/
theorem pass_conserves (cfg : Config) (s : World) :
    Finishes cfg (ProcessQueue cfg) s ∧
      ∀ shortage t, Prog.Ends (exec cfg.toStores) (ProcessQueue cfg) s shortage t →
        ∃ turns, Passes cfg (exec cfg.toStores) s turns shortage t ∧
          Conserves cfg.StarvationTimeout s t turns := by
  refine ⟨finishes_ProcessQueue s, fun shortage t h => ?_⟩
  obtain ⟨turns, hpasses⟩ := passes_of_ends id h
  exact ⟨turns, hpasses, conserves_of_passes hpasses⟩

end Workforce.Conservation
