import Workforce.Conservation
import Workforce.NoneStranded

/-!
Cancelling a job with everything below it.

`cancelJobByID` lists the children of the job, cancels those that have not ended, and cancels the
job. What it does is exact: which records it writes, which cancel frames it sends, which names it
puts on the list of cancelled ones. Against it stands what a cancel is for, over a tree of any
depth.
-/

namespace Workforce.CancelTree

open Tables Contract Progs Shared Calls Runs Handlers Dispatcher Operations Footprints Pass
open Conservation Origins

variable {cfg : Config} {st : Stores} {s t u : World} {id d : String} {job j : Job}

/-! ### The tree -/

inductive Below (s : World) (id : String) : String → Prop
  | child {d : String} {j : Job} : s.jobs.get d = some j → j.ParentJobID = id → Below s id d
  | deeper {d : String} {j : Job} :
      s.jobs.get d = some j → Below s id j.ParentJobID → Below s id d

/-- `d` is `id` or a descendant of it, stored as `j`, and has not ended. -/
structure Open (s : World) (id d : String) (j : Job) : Prop where
  stored : s.jobs.get d = some j
  going : ¬j.Status.IsTerminal
  mem : d = id ∨ Below s id d

/-- A worker of the pool that has the job in flight. -/
def Holds (s : World) (c : WorkerConn) (d : String) : Prop :=
  c ∈ World.registered s ∧ d ∈ c.inFlight

def queued (s : World) (d : String) : ℕ := (s.queue.map Job.ID).count d

/-- The frame a call hands to a connection, whether or not it gets there. -/
def frame : {β : Type} → Call β → List (ConnID × Frame)
  | _, .send w f => [(w, f)]
  | _, _ => []

/-! ### Later passes -/

/-- The manager goes on: a dispatch pass, with its turns, or another operation, which does not
put the job on the queue again. -/
inductive Later (cfg : Config) (d : String) : World → List Turn → World → Prop
  | pass {s t : World} {turns : List Turn} {shortage : Bool} :
      Passes cfg (exec cfg.toStores) s turns shortage t → Later cfg d s turns t
  | other {s t : World} {op : Op} : op ≠ .processQueue → step cfg s op t →
      queued t d ≤ queued s d → Later cfg d s [] t

/-- No later pass takes the job up to propose it: all it does with the job is discard it. -/
def Shunned (cfg : Config) (s : World) (d : String) : Prop :=
  ∀ tr t, Run (Later cfg d) s tr t →
    ∀ p ∈ tr, ∀ a ∈ p.2, a.job.ID = d → a.outcome = .discarded

/-- The job has no more copies in the heap than its name on the cancelled list takes along. -/
def Covered (s : World) (d : String) : Prop :=
  queued s d ≤ if d ∈ s.cancelledJobIDs then 1 else 0

lemma count_discarded_le (turns : List Turn) :
    ((discardedJobs turns).map Job.ID).count d ≤ (turns.map fun a => a.job.ID).count d := by
  induction turns with
  | nil => exact le_rfl
  | cons a turns ih =>
    simp only [discardedJobs, List.filterMap_cons, List.map_cons, List.count_cons] at ih ⊢
    cases a.outcome with
    | discarded => simpa [List.count_cons] using ih
    | _ => exact ih.trans (Nat.le_add_right _ _)

/-- Every turn of the job is a discard when there are as many discards as turns. -/
lemma discarded_iff (turns : List Turn) :
    (turns.map fun a => a.job.ID).count d ≤ ((discardedJobs turns).map Job.ID).count d ↔
      ∀ a ∈ turns, a.job.ID = d → a.outcome = .discarded := by
  induction turns with
  | nil => simp
  | cons a turns ih =>
    have hle := count_discarded_le (d := d) turns
    rw [List.forall_mem_cons, ← ih]
    simp only [discardedJobs, List.filterMap_cons, List.map_cons, List.count_cons] at hle ⊢
    cases a.outcome with
    | discarded => simp [List.count_cons]
    | _ =>
      by_cases hid : a.job.ID = d
      · simp only [hid, beq_self_eq_true, if_true]
        exact ⟨fun h => by omega, fun h => by cases h.1 trivial⟩
      · simp [hid]

variable {turns : List Turn}

lemma turns_of_passes {shortage : Bool} (h : Passes cfg (exec cfg.toStores) s turns shortage t) :
    (turns.map fun a => a.job.ID).count d = queued s d ∧ t.queue = deferredJobs turns := by
  have hqueue : t.queue = deferredJobs turns := by
    cases h with
    | idle hq => exact hq
    | loop _ _ _ _ ht => rw [ht]
  obtain ⟨now, hjobs⟩ := (conserves_of_passes h).jobs
  rw [hqueue] at hjobs
  have hperm := (hjobs.trans (perm_outcomes turns).symm).map Job.ID
  rw [aged_map_ID, List.map_map] at hperm
  exact ⟨(hperm.count_eq d).symm, hqueue⟩

lemma not_mem_deferredJobs (h : ∀ a ∈ turns, a.job.ID = d → a.outcome = .discarded) :
    d ∉ (deferredJobs turns).map Job.ID := by
  intro hmem
  obtain ⟨job, hjob, hid⟩ := List.mem_map.mp hmem
  obtain ⟨a, ha, ho⟩ := List.mem_filterMap.mp hjob
  split at ho
  · rename_i hout
    cases ho
    rw [h a ha hid] at hout
    cases hout
  · cases ho

lemma discards_of_passes {shortage : Bool} (h : Passes cfg (exec cfg.toStores) s turns shortage t) :
    Covered s d ↔ ∀ a ∈ turns, a.job.ID = d → a.outcome = .discarded := by
  rw [← discarded_iff, (turns_of_passes h).1, (conserves_of_passes h).discarded d]
  have hpos : d ∈ s.queue.map Job.ID ↔ 0 < queued s d := List.count_pos_iff.symm
  unfold Covered
  by_cases hc : d ∈ s.cancelledJobIDs
  · simp only [hc, hpos, true_and, if_true]
    split_ifs <;> omega
  · simp only [hc, false_and, if_false]

lemma marks_call {β : Type} {c : Call β} {b : β} (hc : Handled c) (h : exec st c s b t) :
    s.cancelledJobIDs ⊆ t.cancelledJobIDs := by
  cases c with
  | popItem | cancelledRemove => exact hc.elim
  | cancelledAdd =>
    rw [h]
    exact Finset.subset_insert _ _
  | _ => rw [(untouched h).cancelledJobIDs nofun]

lemma covered_later (hs : Covered s d) (h : Later cfg d s turns t) : Covered t d := by
  cases h with
  | pass h =>
    have hnone : d ∉ t.queue.map Job.ID := by
      rw [(turns_of_passes (d := d) h).2]
      exact not_mem_deferredJobs ((discards_of_passes h).mp hs)
    have hzero : queued t d = 0 := List.count_eq_zero.mpr hnone
    unfold Covered
    omega
  | other hop h hle =>
    -- only a pass takes names off the list
    have hkeeps : s.cancelledJobIDs ⊆ t.cancelledJobIDs := by
      refine stepBy_handled (R := fun s t => s.cancelledJobIDs ⊆ t.cancelledJobIDs)
        (fun s t hk => hk.cancelledJobIDs.symm.subset) (fun _ _ _ => Finset.Subset.trans)
        (fun hc he => marks_call hc he) hop h
    have hroom : (if d ∈ s.cancelledJobIDs then 1 else 0) ≤
        if d ∈ t.cancelledJobIDs then 1 else 0 := by
      by_cases hd : d ∈ s.cancelledJobIDs
      · simp [hd, hkeeps hd]
      · simp [hd]
    exact hle.trans (hs.trans hroom)

/-- **Exactly the covered jobs are shunned.** -/
lemma shunned_iff : Shunned cfg s d ↔ Covered s d := by
  constructor
  · intro h
    -- a pass can be run, and it gives every copy a turn
    have hfin : Finishes cfg (ProcessQueue cfg) s := finishes_ProcessQueue s
    obtain ⟨shortage, t, ht⟩ := exists_ends hfin fun hc => hc
    obtain ⟨turns, hpasses⟩ := passes_of_ends id ht
    refine (discards_of_passes hpasses).mpr fun a ha => ?_
    exact h _ t (.cons (.pass hpasses) (.nil t)) _ List.mem_cons_self a ha
  · intro hs tr t h p hp a ha hid
    induction h with
    | nil => cases hp
    | cons hstep _ ih =>
      rcases List.mem_cons.mp hp with rfl | hp
      · cases hstep with
        | pass hpasses => exact (discards_of_passes hpasses).mp hs a ha hid
        | other => cases ha
      · exact ih (covered_later hs hstep) hp

/-! ### What a cancel does -/

/-- From `s` to `t` the jobs named in `ended` are cancelled and no other record changes, `marked`
is added to the cancelled names, and every job named in `noticed` that is in flight has a cancel
frame, and no other job. -/
structure Cancels (ended noticed marked : Set String) (s t : World)
    (frames : List (ConnID × Frame)) : Prop where
  others : ∀ d ∉ ended, t.jobs.get d = s.jobs.get d
  cancelled : ∀ d ∈ ended, ∀ j, s.jobs.get d = some j →
    ∃ j', t.jobs.get d = some j' ∧ j'.Status = .cancelled
  marks : ∀ d, d ∈ t.cancelledJobIDs ↔ d ∈ s.cancelledJobIDs ∨ d ∈ marked
  told : ∀ d ∈ noticed, ∀ c, Holds s c d →
    ∃ c', Holds s c' d ∧ (c'.conn, Frame.cancel d) ∈ frames
  only : ∀ w d, (w, Frame.cancel d) ∈ frames → d ∈ noticed
  queue : t.queue = s.queue
  pool : World.registered t = World.registered s

lemma registered_congr (hconns : t.conns = s.conns) (hworkers : t.workers = s.workers) :
    World.registered t = World.registered s := by
  unfold World.registered
  rw [hconns, hworkers]

lemma Cancels.of_same (h : Same s t) : Cancels ∅ ∅ ∅ s t [] where
  others d _ := by rw [h.jobs]
  cancelled _ hd := hd.elim
  marks d := by simp [h.cancelledJobIDs]
  told _ hd := hd.elim
  only _ _ hf := nomatch hf
  queue := h.queue
  pool := registered_congr h.conns h.workers

variable {l : List (ConnID × Frame)}

lemma Cancels.trans {A A' N N' P P' : Set String} {l' : List (ConnID × Frame)}
    (h : Cancels A N P s t l) (h' : Cancels A' N' P' t u l') :
    Cancels (A ∪ A') (N ∪ N') (P ∪ P') s u (l ++ l') where
  others d hd := by
    rw [Set.mem_union, not_or] at hd
    rw [h'.others d hd.2, h.others d hd.1]
  cancelled d hd j hj := by
    -- a job cancelled twice is cancelled; one cancelled first is left alone or cancelled again
    by_cases hA : d ∈ A
    · obtain ⟨j', hj', hcancelled⟩ := h.cancelled d hA j hj
      by_cases hA' : d ∈ A'
      · exact h'.cancelled d hA' j' hj'
      · exact ⟨j', (h'.others d hA').trans hj', hcancelled⟩
    · exact h'.cancelled d (hd.resolve_left hA) j ((h.others d hA).trans hj)
  marks d := by
    rw [h'.marks, h.marks, Set.mem_union, or_assoc]
  told d hd c hc := by
    have hpool : ∀ c, Holds t c d ↔ Holds s c d := fun c => by unfold Holds; rw [h.pool]
    rcases hd with hd | hd
    · obtain ⟨c', hc', hf⟩ := h.told d hd c hc
      exact ⟨c', hc', List.mem_append_left _ hf⟩
    · obtain ⟨c', hc', hf⟩ := h'.told d hd c ((hpool c).mpr hc)
      exact ⟨c', (hpool c').mp hc', List.mem_append_right _ hf⟩
  only w d hf := (List.mem_append.mp hf).imp (h.only w d) (h'.only w d)
  queue := h'.queue.trans h.queue
  pool := h'.pool.trans h.pool

lemma cancels_UpdateJob {r : Option Bool} (h : exec st (.updateJob d .cancelled) s r t) :
    Cancels {d} ∅ ∅ s t [] := by
  obtain ⟨now, -, rfl⟩ := h
  have hget := fun k => get_modify s.jobs d k (JobMutation.apply_ID .cancelled now)
  refine ⟨fun k hk => ?_, fun k hk j hj => ?_, by simp, by simp, by simp, rfl, rfl⟩
  · rw [hget, if_neg (by exact hk)]
  · obtain rfl : k = d := hk
    exact ⟨_, by rw [hget, if_pos rfl, hj]; rfl, rfl⟩

lemma cancels_cancelledAdd (h : exec st (.cancelledAdd d) s () t) : Cancels ∅ ∅ {d} s t [] := by
  obtain rfl := h
  refine ⟨fun _ _ => rfl, by simp, fun k => ?_, by simp, by simp, rfl, rfl⟩
  rw [Finset.mem_insert, Set.mem_singleton_iff, or_comm]

lemma cancels_SendCancelToWorker (h : Prog.Emits (exec st) frame (SendCancelToWorker d) s () t l) :
    Cancels ∅ {d} ∅ s t l := by
  obtain ⟨holder, u, l₁, hfind, h, rfl⟩ := emits_step.mp h
  obtain ⟨hholder, rfl⟩ := hfind
  cases holder with
  | none =>
    obtain ⟨-, rfl, rfl⟩ := h
    refine ⟨fun _ _ => rfl, by simp, by simp, ?_, by simp, rfl, rfl⟩
    rintro k rfl c ⟨hc, hin⟩
    exact absurd hin (hholder c hc)
  | some w =>
    obtain ⟨ok, v, l₂, hsend, ⟨-, rfl, rfl⟩, rfl⟩ := emits_step.mp h
    obtain ⟨c, hc, rfl, hin⟩ := hholder
    have hsame : Same u t := same_of_quiet (c := .send c.conn (.cancel d)) trivial hsend
    refine ⟨fun k _ => by rw [hsame.jobs], by simp, by simp [hsame.cancelledJobIDs], ?_, ?_,
      hsame.queue, registered_congr hsame.conns hsame.workers⟩
    · rintro k rfl _ -
      exact ⟨c, ⟨hc, hin⟩, by simp [frame]⟩
    · intro w k hf
      simp only [frame, List.append_nil, List.mem_singleton, Prod.mk.injEq,
        Frame.cancel.injEq] at hf
      exact hf.2

/-- The jobs of a list whose status has the property. -/
def those (p : JobStatus → Prop) (l : List Job) : Set String :=
  {d | ∃ c ∈ l, c.ID = d ∧ p c.Status}

lemma those_cons (p : JobStatus → Prop) (c : Job) (l : List Job) :
    those p (c :: l) = those p [c] ∪ those p l := by
  ext d
  simp [those]

variable {p : JobStatus → Prop}

lemma those_of_pos {c : Job} (h : p c.Status) : those p [c] = {c.ID} := by
  ext d
  simp [those, h, eq_comm]

lemma those_of_neg {c : Job} (h : ¬p c.Status) : those p [c] = ∅ := by
  ext d
  simp [those, h]

lemma cancels_precancel [Decidable (p job.Status)]
    (h : Prog.Emits (exec st) frame (precancel job.ID job (p job.Status)) s () t l) :
    Cancels ∅ (those p [job]) (those (· = .pending) [job]) s t l := by
  obtain ⟨_, u, l₁, l₂, hsend, hadd, rfl⟩ := emits_bind h
  have hsent : Cancels ∅ (those p [job]) ∅ s u l₁ := by
    split_ifs at hsend with hp
    · rw [those_of_pos hp]
      exact cancels_SendCancelToWorker hsend
    · obtain ⟨-, rfl, rfl⟩ := hsend
      rw [those_of_neg hp]
      exact .of_same (.refl _)
  have hmarked : Cancels ∅ ∅ (those (· = .pending) [job]) u t l₂ := by
    split_ifs at hadd with hp
    · obtain ⟨_, v, _, hadd, ⟨-, rfl, rfl⟩, rfl⟩ := hadd
      rw [those_of_pos hp]
      exact cancels_cancelledAdd hadd
    · obtain ⟨-, rfl, rfl⟩ := hadd
      rw [those_of_neg hp]
      exact .of_same (.refl _)
  simpa only [Set.union_empty, Set.empty_union] using hsent.trans hmarked

/-- The statuses in which a child is taken to be with a worker. -/
def Working (st : JobStatus) : Prop := st = .running ∨ st = .provisioning ∨ st = .proposing

instance : DecidablePred Working := fun st => by unfold Working; infer_instance

lemma not_working {st : JobStatus} (h : st.IsTerminal) : ¬Working st := by
  rintro (rfl | rfl | rfl) <;> revert h <;> decide

lemma cancels_cancelChildren {children : List Job}
    (h : Prog.Emits (exec st) frame (cancelChildren children) s () t l) :
    Cancels (those (¬·.IsTerminal) children) (those Working children)
      (those (· = .pending) children) s t l := by
  induction children generalizing s l with
  | nil =>
    obtain ⟨-, rfl, rfl⟩ := h
    simpa [those] using Cancels.of_same (Same.refl t)
  | cons c rest ih =>
    rw [cancelChildren_cons] at h
    rw [those_cons _ c rest, those_cons _ c rest, those_cons _ c rest]
    split_ifs at h with hterm
    · -- an ended child is in none of the three sets
      rw [those_of_neg (not_not.mpr hterm), those_of_neg (not_working hterm),
        those_of_neg fun hp => absurd (hp ▸ hterm) (by decide)]
      simpa only [Set.empty_union] using ih h
    · obtain ⟨_, u, l₁, l₂, hprecancel, h₁, rfl⟩ := emits_bind h
      obtain ⟨_, v, l₃, hupdate, h₂, rfl⟩ := emits_step.mp h₁
      have hfirst := (cancels_precancel (p := Working) hprecancel).trans (cancels_UpdateJob hupdate)
      rw [those_of_pos (by exact hterm)]
      simpa [frame] using hfirst.trans (ih h₂)

/-- The children of a job whose status has the property. -/
def kids (s : World) (id : String) (p : JobStatus → Prop) : Set String :=
  {d | ∃ j, s.jobs.get d = some j ∧ j.ParentJobID = id ∧ p j.Status}

lemma those_children {children : List Job} (p : JobStatus → Prop)
    (h : children.Perm (s.jobs.values.filter fun j => j.ParentJobID = id)) :
    those p children = kids s id p := by
  ext d
  simp only [those, kids, h.mem_iff, List.mem_filter, mem_values, decide_eq_true_iff,
    Set.mem_ofPred_eq]
  constructor
  · rintro ⟨c, ⟨hget, hparent⟩, rfl, hp⟩
    exact ⟨c, hget, hparent, hp⟩
  · rintro ⟨j, hget, hparent, hp⟩
    obtain rfl := key_of_get hget
    exact ⟨j, ⟨hget, hparent⟩, rfl, hp⟩

lemma cancels_cancelSelf (h : Prog.Emits (exec st) frame (cancelSelf job.ID job) s () t l) :
    Cancels {job.ID} (those AtWorker [job]) (those (· = .pending) [job]) s t l := by
  obtain ⟨_, u, l₁, l₂, hprecancel, h₁, rfl⟩ := emits_bind h
  obtain ⟨_, v, l₃, hupdate, hfire, rfl⟩ := emits_step.mp h₁
  have hsilent : Cancels ∅ ∅ ∅ v t l₂ := by
    refine emits_of_uses (R := Cancels ∅ ∅ ∅) (φ := fun c => Quiet c ∧ frame c = [])
      (fun s => .of_same (.refl s)) (fun _ _ _ _ _ h h' => ?_) (fun hc he => ?_)
      (uses_enqueue ⟨trivial, rfl⟩ ⟨trivial, rfl⟩ (fun _ => ⟨trivial, rfl⟩) _ _ _) hfire
    · simpa only [Set.union_empty] using h.trans h'
    · rw [hc.2]
      exact .of_same (same_of_quiet hc.1 he)
  have hself := ((cancels_precancel (p := AtWorker) hprecancel).trans (cancels_UpdateJob hupdate)).trans
    hsilent
  simpa [frame] using hself

/-- **What a cancel does**, exactly: it reaches the job and its children, and stops there. -/
lemma cancels_cancelJobByID (hjob : s.jobs.get id = some job)
    (h : Prog.Emits (exec st) frame (cancelJobByID id) s () t l) :
    Cancels (kids s id (¬·.IsTerminal) ∪ {id}) (kids s id Working ∪ those AtWorker [job])
      (kids s id (· = .pending) ∪ those (· = .pending) [job]) s t l := by
  obtain rfl : job.ID = id := key_of_get hjob
  rw [cancelJobByID_eq] at h
  obtain ⟨job', u, l₁, ⟨hget, hu⟩, h₁, rfl⟩ := emits_step.mp h
  rw [hjob] at hget
  subst hget hu
  obtain ⟨children, v, l₂, ⟨hperm, -, hv⟩, h₂, rfl⟩ := emits_step.mp h₁
  subst hv
  obtain ⟨_, w, l₃, l₄, hchildren, h₃, rfl⟩ := emits_bind h₂
  have hkids := cancels_cancelChildren hchildren
  rw [those_children _ hperm, those_children _ hperm, those_children _ hperm] at hkids
  exact hkids.trans (cancels_cancelSelf h₃)

/-! ### A cancel ends -/

lemma finishes_precancel (id : String) (job : Job) (p : Prop) [Decidable p] (s : World) :
    Finishes cfg (precancel id job p) s := by
  have hsend : (SendCancelToWorker id).Uses Answered := by
    refine uses_step trivial fun holder => ?_
    cases holder with
    | none => trivial
    | some w => exact uses_step trivial fun _ => trivial
  refine finishes_bind ?_ fun _ u => ?_
  · split_ifs
    · exact finishes_of_uses hsend s
    · trivial
  · split_ifs
    · exact wp_lift ⟨(), _, rfl⟩ fun _ _ _ => trivial
    · trivial

lemma finishes_UpdateJob {α : Type} {f : Option Bool → M α} {s : World} (d : String)
    (h : ∀ r t, Finishes cfg (f r) t) : Finishes cfg (UpdateJob d .cancelled >>= f) s :=
  wp_step ⟨_, _, 0, rfl, rfl⟩ fun r t _ => h r t

lemma finishes_cancelChildren (children : List Job) (s : World) :
    Finishes cfg (cancelChildren children) s := by
  induction children generalizing s with
  | nil => trivial
  | cons c rest ih =>
    rw [cancelChildren_cons]
    split_ifs
    · exact ih s
    · exact finishes_bind (finishes_precancel _ _ _ s) fun _ _ =>
        finishes_UpdateJob _ fun _ u => ih u

lemma finishes_cancelJobByID (id : String) (s : World) : Finishes cfg (cancelJobByID id) s := by
  rw [cancelJobByID_eq]
  refine wp_step (exists_exec (by trivial) s) fun job t _ => ?_
  cases job with
  | none => trivial
  | some job =>
    refine wp_step (exists_exec (by trivial) t) fun children u _ => ?_
    refine finishes_bind (finishes_cancelChildren children u) fun _ v => ?_
    exact finishes_bind (finishes_precancel _ _ _ v) fun _ _ => finishes_UpdateJob _ fun _ w =>
      finishes_of_uses (uses_enqueue trivial trivial (fun _ => trivial) _ _ _) w

/-! ### What a cancel is for -/

/-- The whole tree under `id` is cancelled: every job of it that had not ended is Cancelled, those
that had are as they were, every job that was in flight has a cancel frame on its way to a worker
holding it, and no later pass takes up one that was queued. -/
structure TreeCancelled (cfg : Config) (s : World) (id : String) (t : World)
    (frames : List (ConnID × Frame)) : Prop where
  cancelled : ∀ d j, Open s id d j → ∃ j', t.jobs.get d = some j' ∧ j'.Status = .cancelled
  kept : ∀ d j, Below s id d → s.jobs.get d = some j → j.Status.IsTerminal →
    t.jobs.get d = some j
  told : ∀ d j c, Open s id d j → Holds s c d →
    ∃ c', Holds s c' d ∧ (c'.conn, Frame.cancel d) ∈ frames
  shunned : ∀ d j, Open s id d j → 0 < queued s d → d ∈ t.cancelledJobIDs ∧ Shunned cfg t d

/-- What a cancel can deal with: nothing below the children is still going, a job in flight has a
status that is taken to be with a worker, and a job is queued at most once, as Pending unless its
name is on the cancelled list already. -/
structure WithinReach (s : World) (id : String) : Prop where
  shallow : ∀ d j, Open s id d j → d = id ∨ j.ParentJobID = id
  atWorker : ∀ d j c, Open s id d j → Holds s c d →
    Working j.Status ∨ d = id ∧ j.Status = .accepted
  queued : ∀ d j, Open s id d j →
    queued s d ≤ if j.Status = .pending ∨ d ∈ s.cancelledJobIDs then 1 else 0

lemma atWorker_iff {st : JobStatus} : AtWorker st ↔ Working st ∨ st = .accepted := by
  simp [AtWorker, Working, or_assoc]

lemma mem_touched {q : JobStatus → Prop} (hjob : s.jobs.get id = some job)
    (hj : s.jobs.get d = some j) :
    d ∈ kids s id p ∪ those q [job] ↔
      j.ParentJobID = id ∧ p j.Status ∨ d = id ∧ q j.Status := by
  have hid : job.ID = id := key_of_get hjob
  constructor
  · rintro (⟨i, hi, hparent, hp⟩ | ⟨i, hi, rfl, hq⟩)
    · rw [hj] at hi
      cases hi
      exact .inl ⟨hparent, hp⟩
    · obtain rfl := List.mem_singleton.mp hi
      rw [hid, hjob] at hj
      cases hj
      exact .inr ⟨hid, hq⟩
  · rintro (⟨hparent, hp⟩ | ⟨rfl, hq⟩)
    · exact .inl ⟨j, hj, hparent, hp⟩
    · rw [hjob] at hj
      cases hj
      exact .inr ⟨_, List.mem_singleton_self _, hid, hq⟩

section Reach

variable {frames : List (ConnID × Frame)}
  (hc : Cancels (kids s id (¬·.IsTerminal) ∪ {id}) (kids s id Working ∪ those AtWorker [job])
    (kids s id (· = .pending) ∪ those (· = .pending) [job]) s t frames)
  (hjob : s.jobs.get id = some job)

include hc

/-- Exactly the job and its children are cancelled. -/
lemma cancelled_iff (hd : Open s id d j) :
    (∃ j', t.jobs.get d = some j' ∧ j'.Status = .cancelled) ↔ d = id ∨ j.ParentJobID = id := by
  constructor
  · rintro ⟨j', hj', hcancelled⟩
    by_contra hfar
    rw [not_or] at hfar
    have hsame : t.jobs.get d = s.jobs.get d := by
      refine hc.others d ?_
      rintro (⟨i, hi, hparent, -⟩ | hself)
      · rw [hd.stored] at hi
        cases hi
        exact hfar.2 hparent
      · exact hfar.1 hself
    rw [hsame, hd.stored] at hj'
    cases hj'
    exact hd.going (hcancelled ▸ by decide)
  · rintro (hself | hparent)
    · exact hc.cancelled d (.inr hself) j hd.stored
    · exact hc.cancelled d (.inl ⟨j, hd.stored, hparent, hd.going⟩) j hd.stored

lemma kept_of_tree (htree : ¬Below s id id) (hd : Below s id d) (hj : s.jobs.get d = some j)
    (hterm : j.Status.IsTerminal) : t.jobs.get d = some j := by
  rw [hc.others d ?_, hj]
  rintro (⟨i, hi, -, hgoing⟩ | rfl)
  · rw [hj] at hi
    cases hi
    exact hgoing hterm
  · exact htree hd

include hjob

/-- A frame is sent for a job in flight exactly if its status calls for one. -/
lemma told_iff (hd : Open s id d j) (hnear : d = id ∨ j.ParentJobID = id) :
    (∀ c, Holds s c d → ∃ c', Holds s c' d ∧ (c'.conn, Frame.cancel d) ∈ frames) ↔
      ∀ c, Holds s c d → Working j.Status ∨ d = id ∧ j.Status = .accepted := by
  have hmem := mem_touched (p := Working) (q := AtWorker) hjob hd.stored
  rw [atWorker_iff] at hmem
  refine forall₂_congr fun c hold => ⟨fun ⟨c', _, hf⟩ => ?_, fun h => hc.told d ?_ c hold⟩
  · rcases hmem.mp (hc.only _ _ hf) with ⟨-, hw⟩ | ⟨hid, hw⟩
    · exact .inl hw
    · exact hw.imp_right fun h => ⟨hid, h⟩
  · rw [hmem]
    rcases hnear with hid | hparent
    · exact .inr ⟨hid, h.imp_right And.right⟩
    · exact h.imp (⟨hparent, ·⟩) fun h => ⟨h.1, .inr h.2⟩

/-- A queued job is on the cancelled list, and shunned, exactly if one copy of it is queued, as
Pending or with its name on the list before. -/
lemma shunned_of_queued (hd : Open s id d j) (hnear : d = id ∨ j.ParentJobID = id) :
    (0 < queued s d → d ∈ t.cancelledJobIDs ∧ Shunned cfg t d) ↔
      queued s d ≤ if j.Status = .pending ∨ d ∈ s.cancelledJobIDs then 1 else 0 := by
  have hmarks : d ∈ t.cancelledJobIDs ↔ j.Status = .pending ∨ d ∈ s.cancelledJobIDs := by
    rw [hc.marks, mem_touched hjob hd.stored, ← or_and_right, or_comm (a := _ = id),
      and_iff_right hnear, or_comm]
  have hqueue : queued t d = queued s d := by
    unfold queued
    rw [hc.queue]
  rw [shunned_iff, Covered, hqueue]
  simp only [← hmarks]
  split_ifs with h
  · refine ⟨fun hs => ?_, fun hle _ => ⟨h, hle⟩⟩
    rcases Nat.eq_zero_or_pos (queued s d) with hzero | hpos
    · omega
    · exact (hs hpos).2
  · simp only [h, false_and, imp_false, not_lt]

end Reach

/-- **A cancel and its tree.** Cancelling a stored job whose tree has no cycle ends, whatever the
tree, the queue and the pool are. However it ends, the whole tree is cancelled exactly if it was
within the reach of a cancel. -/
theorem tree_cancelled_iff (cfg : Config) (s : World) (id : String) (job : Job)
    (hjob : s.jobs.get id = some job) (htree : ¬Below s id id) :
    Finishes cfg (cancelJobByID id) s ∧
      ∀ t frames, Prog.Emits (exec cfg.toStores) frame (cancelJobByID id) s () t frames →
        (TreeCancelled cfg s id t frames ↔ WithinReach s id) := by
  refine ⟨finishes_cancelJobByID id s, fun t frames h => ?_⟩
  have hc := cancels_cancelJobByID hjob h
  constructor
  · intro ht
    have hshallow : ∀ d j, Open s id d j → d = id ∨ j.ParentJobID = id := fun d j hd =>
      (cancelled_iff hc hd).mp (ht.cancelled d j hd)
    refine ⟨hshallow, fun d j c hd hold => ?_, fun d j hd => ?_⟩
    · exact (told_iff hc hjob hd (hshallow d j hd)).mp (fun c => ht.told d j c hd) c hold
    · exact (shunned_of_queued hc hjob hd (hshallow d j hd)).mp (ht.shunned d j hd)
  · intro hr
    refine ⟨fun d j hd => ?_, fun d j => kept_of_tree hc htree, fun d j c hd => ?_,
      fun d j hd => ?_⟩
    · exact (cancelled_iff hc hd).mpr (hr.shallow d j hd)
    · exact (told_iff hc hjob hd (hr.shallow d j hd)).mpr (fun c => hr.atWorker d j c hd) c
    · exact (shunned_of_queued hc hjob hd (hr.shallow d j hd)).mpr (hr.queued d j hd)

/-! ### Two trees -/

def member (id parent : String) (st : JobStatus) : Job :=
  { ID := id, ParentJobID := parent, TaskName := "t", Status := st }

/-- A running job with a child that is still queued. -/
def pair : World :=
  addConn { NewWorkerConn 0 "w" "linux" "amd64" 2 with inFlight := insert "r" ∅ }
    { World.initial with
      jobs := ((Table.empty _).put (member "r" "" .running)).put (member "c" "r" .pending)
      queue := [member "c" "r" .pending] }

lemma pair_withinReach : WithinReach pair "r" := by
  have hmem {d : String} {j : Job} (hd : Open pair "r" d j) : j ∈ pair.jobs.values ∧ j.ID = d :=
    ⟨mem_values_of_get hd.stored, key_of_get hd.stored⟩
  have hshallow : ∀ j ∈ pair.jobs.values, j.ID = "r" ∨ j.ParentJobID = "r" := by decide
  have hheld : ∀ j ∈ pair.jobs.values, ∀ c ∈ World.registered pair, j.ID ∈ c.inFlight →
      Working j.Status := by decide
  have hqueued : ∀ j ∈ pair.jobs.values,
      queued pair j.ID ≤ if j.Status = .pending ∨ j.ID ∈ pair.cancelledJobIDs then 1 else 0 := by
    decide
  refine ⟨fun d j hd => ?_, fun d j c hd hold => ?_, fun d j hd => ?_⟩
  all_goals obtain ⟨hj, rfl⟩ := hmem hd
  · exact hshallow j hj
  · exact .inl (hheld j hj c hold.1 hold.2)
  · exact hqueued j hj

lemma not_below_self (h : s.jobs.get id = some job) (hroot : job.ParentJobID = "")
    (hid : id ≠ "") (hnone : s.jobs.get "" = none) : ¬Below s id id := by
  intro hb
  cases hb with
  | child hj hparent =>
    rw [h] at hj
    cases hj
    exact hid (hparent.symm.trans hroot)
  | deeper hj hb =>
    rw [h] at hj
    cases hj
    rw [hroot] at hb
    cases hb with
    | child hj _ | deeper hj _ =>
      rw [hnone] at hj
      cases hj

theorem pair_tree_cancelled :
    ∃ t, Prog.Emits (exec Config.defaults.toStores) frame (cancelJobByID "r") pair () t
        [(0, .cancel "r")] ∧ TreeCancelled .defaults pair "r" t [(0, .cancel "r")] := by
  have hroot : pair.jobs.get "r" = some (member "r" "" .running) := by decide
  have htree : ¬Below pair "r" "r" := not_below_self hroot rfl (by decide) (by decide)
  obtain ⟨t, ht⟩ : ∃ t, Prog.Emits (exec Config.defaults.toStores) frame (cancelJobByID "r") pair ()
      t [(0, .cancel "r")] :=
    -- the job, its children; the child is marked and stored; the worker, the frame, the store
    ⟨_, _, _, _, exec_answered rfl, ⟨_, _, _, exec_answered rfl, ⟨_, _, _, exec_answered rfl,
      ⟨_, _, _, exec_answered rfl, ⟨_, _, _, exec_answered rfl, ⟨_, _, _, exec_answered rfl,
      ⟨_, _, _, exec_answered rfl, ⟨rfl, rfl, rfl⟩, rfl⟩, rfl⟩, rfl⟩, rfl⟩, rfl⟩, rfl⟩, rfl⟩
  exact ⟨t, ht, ((tree_cancelled_iff .defaults pair "r" _ hroot htree).2 _ _ ht).mpr
    pair_withinReach⟩

/-- A job that has decomposed into three, one of which has decomposed again. One child has been
accepted by the worker and not staged yet; one was put back on the queue after it had been marked
Proposing; the grandchild is running. -/
def family : World :=
  addConn { NewWorkerConn 0 "w" "linux" "amd64" 2 with inFlight := insert "a" (insert "g" ∅) }
    { World.initial with
      jobs := (((((Table.empty _).put (member "r" "" .awaitingChildren)).put
        (member "a" "r" .accepted)).put (member "q" "r" .proposing)).put
        (member "m" "r" .awaitingChildren)).put (member "g" "m" .running)
      queue := [member "q" "r" .pending] }

/-- **A cancel stops at the children.** No frame at all is sent, although two jobs of the tree are
with the worker; the grandchild goes on running; and a later pass takes up the queued child. -/
theorem family_outlives_cancel :
    ∃ t, Prog.Emits (exec Config.defaults.toStores) frame (cancelJobByID "r") family () t [] ∧
      (t.jobs.get "g").map Job.Status = some .running ∧
      (∃ c ∈ World.registered family, "g" ∈ c.inFlight ∧ "a" ∈ c.inFlight) ∧
      ¬Shunned .defaults t "q" ∧ ¬TreeCancelled .defaults family "r" t [] := by
  have hm : Below family "r" "m" :=
    .child (j := member "m" "r" .awaitingChildren) (by decide) rfl
  have hg : Open family "r" "g" (member "g" "m" .running) :=
    ⟨by decide, by decide, .inr (.deeper (j := member "g" "m" .running) (by decide) hm)⟩
  obtain ⟨t, ht, hrunning, hcovered⟩ : ∃ t, Prog.Emits (exec Config.defaults.toStores) frame
      (cancelJobByID "r") family () t [] ∧ (t.jobs.get "g").map Job.Status = some .running ∧
      ¬Covered t "q" :=
    ⟨_, ⟨_, _, _, exec_answered rfl, ⟨_, _, _, exec_answered rfl, ⟨_, _, _, exec_answered rfl,
      ⟨_, _, _, exec_answered rfl, ⟨_, _, _, exec_answered rfl, ⟨_, _, _, exec_answered rfl,
      ⟨_, _, _, exec_answered rfl, ⟨rfl, rfl, rfl⟩, rfl⟩, rfl⟩, rfl⟩, rfl⟩, rfl⟩, rfl⟩, rfl⟩,
      by decide, by unfold Covered; decide⟩
  refine ⟨t, ht, hrunning, ⟨_, List.mem_singleton_self _, by decide, by decide⟩,
    mt shunned_iff.mp hcovered, fun h => ?_⟩
  obtain ⟨j, hj, hcancelled⟩ := h.cancelled _ _ hg
  rw [hj, Option.map_some, hcancelled] at hrunning
  cases hrunning

end Workforce.CancelTree
