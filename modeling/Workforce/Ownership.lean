import Workforce.Copies

/-!
A job is held once.

Every call of an operation moves jobs between the places they are held in and the hands of
the operation. From one rule for each kind of call follows what each operation does, and from
that what a run does.
-/

namespace Workforce.Ownership

open Tables Contract Progs Shared Calls Handlers Dispatcher Footprints Copies

/-! ### Rules for calls -/

/-- A job is proposed only while no copy of it is queued or in flight. -/
def Alone : {β : Type} → Call β → World → Prop
  | _, .send _ (.propose job _ _), s => queued s job.ID = 0 ∧ holders s job.ID = ∅
  | _, _, _ => True

lemma alone_of_mild {β : Type} {c : Call β} {s : World} (hc : Mild c) : Alone c s := by
  cases c with
  | send w f =>
    cases f with
    | propose => exact hc.elim
    | dispatch | cancel | error => trivial
  | _ => trivial

section Calls

variable {cfg : Stores} {s t : World} {l : List String}

lemma apply_waiting {m : JobMutation} (hm : m ≠ .awaitingChildren) {now : Time} {j : Job}
    (h : (m.apply now j).Status = .awaitingChildren) : j.Status = .awaitingChildren := by
  cases m <;> simp_all [JobMutation.apply]
  split at h <;> simp_all

variable {id : String}

lemma holds_updated {m : JobMutation} {now : Time} (h : Holds l s) (hm : m ≠ .awaitingChildren)
    {issued : Finset String} (hi : s.issued ⊆ issued) {webhooks : List WebhookEvent} :
    Holds l { s with
      jobs := s.jobs.modify id (m.apply now), issued := issued, webhooks := webhooks } := by
  refine h.records ⟨rfl, rfl, rfl, rfl, rfl, rfl⟩ hi ?_ ?_
  · intro j hj
    refine hi (h.stored j fun hn => hj ?_)
    rw [get_modify _ _ _ (m.apply_ID now)]
    split_ifs with he
    · subst he
      rw [hn, Option.map_none]
    · exact hn
  · intro j job hj hst
    rw [get_modify _ _ _ (m.apply_ID now)] at hj
    split_ifs at hj with he
    · subst he
      obtain ⟨job', hget, rfl⟩ := Option.map_eq_some_iff.mp hj
      exact ⟨job', hget, apply_waiting hm hst⟩
    · exact ⟨job, hj, hst⟩

/-- A mild call leaves all jobs in the operation's hands there. -/
lemma holds_mild {β : Type} {c : Call β} {b : β} (hc : Mild c) (he : exec cfg c s b t)
    (h : Holds l s) : Holds l t := by
  cases c with
  | updateJob id m =>
    obtain ⟨now, -, rfl⟩ := he
    have hm : m ≠ .awaitingChildren := by
      rintro rfl
      exact hc
    exact holds_updated h hm subset_rfl
  | updateJobFiring id reason =>
    obtain ⟨-, -, rfl⟩ | ⟨now, issued, webhooks, -, -, hi, rfl⟩ := exec_updateJobFiring he
    · exact h
    · exact holds_updated h (by simp) hi
  | cancelledAdd id | cancelledRemove id =>
    subst he
    exact h.move (fun _ => le_rfl) rfl rfl (h.indexed.of_eq rfl rfl rfl)
  | restoreCapacity w id cost =>
    rcases he with ⟨-, -, rfl⟩ | ⟨-, rfl⟩
    · exact h
    · refine h.move (fun j => ?_) rfl rfl (indexed_complete id cost h.indexed)
      exact Nat.add_le_add_right (copies_complete_le id j cost) _
  | putRejected w id =>
    subst he
    exact holds_modify h (fun _ => rfl) (fun _ => rfl) (fun _ => rfl) (fun _ => rfl)
  | updateRun => exact h.same (same_of_untouched (untouched he) nofun nofun nofun nofun nofun)
  | _ =>
    refine h.same (same_of_quiet ?_ he)
    exact hc

variable {job : Job} {b : Unit}

lemma copies_push (he : exec cfg (.pushItem job) s b t) (j : String) :
    copies t j = copies s j + if j = job.ID then 1 else 0 := by
  subst he
  have hh : holders { s with queue := s.queue ++ [job] } j = holders s j := rfl
  simp only [copies, queued, hh, List.map_append, List.count_append, List.map_cons, List.map_nil,
    List.count_cons, List.count_nil, beq_iff_eq, eq_comm (a := j)]
  omega

lemma holds_push (he : exec cfg (.pushItem job) s b t) (h : Holds (job.ID :: l) s) : Holds l t := by
  have hcopies := copies_push he
  subst he
  refine h.move (fun j => le_of_eq ?_) rfl rfl (h.indexed.of_eq rfl rfl rfl)
  rw [hcopies, List.count_cons]
  simp only [beq_iff_eq, eq_comm (a := j)]
  omega

lemma holds_pop (he : exec cfg .popItem s (some job) t) (h : Holds l s) :
    Holds (job.ID :: l) t := by
  obtain ⟨hmem, -, rfl⟩ := he
  refine h.move (fun j => le_of_eq ?_) rfl rfl (h.indexed.of_eq rfl rfl rfl)
  have hperm := (List.perm_cons_erase hmem).map Job.ID
  have hcount := hperm.count_eq j
  simp only [List.map_cons, List.count_cons] at hcount
  have hh : holders { s with queue := s.queue.erase job } j = holders s j := rfl
  simp only [copies, queued, hh, List.count_cons]
  omega

lemma holds_age {timeout : Duration} (he : exec cfg (.applyStarvationAging timeout) s b t)
    (h : Holds l s) : Holds l t := by
  obtain ⟨now, rfl⟩ := he
  have hp : SamePlaces s { s with queue := aged timeout now s.queue } :=
    ⟨aged_map_ID _ _ _, rfl, rfl, rfl, rfl, rfl⟩
  exact h.move (fun j => by rw [hp.copies]) rfl rfl (hp.indexed h.indexed)

lemma holds_ulid (he : exec cfg .ulidMake s id t) (h : Holds l s) : Holds (id :: l) t := by
  have ht : Holds l t := h.same (same_of_quiet (by trivial) he)
  obtain ⟨-, hnew, rfl⟩ := he
  have hp : SamePlaces s { s with issued := insert id s.issued } := ⟨rfl, rfl, rfl, rfl, rfl, rfl⟩
  refine ht.take ?_ (Finset.mem_insert_self _ _) fun job hj => ?_
  · exact h.issued id hnew
  · have hstored := h.stored id (by rw [show s.jobs.get id = some job from hj]; simp)
    exact absurd hstored hnew

lemma holds_save {err : Option String} (he : exec cfg (.saveJob job) s err t) (h : Holds l s)
    (hid : job.ID ∈ l) (hst : job.Status ≠ .awaitingChildren) : Holds l t := by
  rcases he with ⟨-, rfl⟩ | ⟨-, rfl⟩
  · refine h.records ⟨rfl, rfl, rfl, rfl, rfl, rfl⟩ subset_rfl ?_ ?_
    · intro j hj
      by_cases he : j = job.ID
      · subst he
        exact h.mem_issued hid
      · rw [get_put, if_neg he] at hj
        exact h.stored j hj
    · intro j job' hj hw
      rw [get_put] at hj
      split_ifs at hj
      · cases hj
        exact absurd hw hst
      · exact ⟨job', hj, hw⟩
  · exact h

lemma holds_afterFunc {delay : Duration} (he : exec cfg (.afterFunc id delay) s b t)
    (h : Holds (id :: l) s) : Holds l t := by
  subst he
  refine h.move (fun j => le_of_eq ?_) rfl rfl (h.indexed.of_eq rfl rfl rfl)
  have hh : holders { s with timers := s.timers ++ [id] } j = holders s j := rfl
  simp only [copies, queued, hh, List.count_append, List.count_cons, List.count_nil]
  omega

/-- A job goes from the operation's hands to a connection, or stays. -/
lemma holds_subtract {w : ConnID} {cost : ℤ} {ok : Bool}
    (he : exec cfg (.subtractCapacity w id cost) s ok t) (h : Holds (id :: l) s) :
    Holds (if ok then l else id :: l) t := by
  obtain ⟨rfl, rfl⟩ | ⟨c, c', rfl, hc, hassign, rfl⟩ := exec_subtractCapacity he
  · exact h
  · simp only [WorkerConn.AssignTask] at hassign
    split_ifs at hassign
    cases hassign
    rw [if_pos rfl]
    have hput : s.conns.put
        { c with inFlight := insert id c.inFlight, occupiedCost := c.occupiedCost + cost } =
        s.conns.modify w fun c =>
          { c with inFlight := insert id c.inFlight, occupiedCost := c.occupiedCost + cost } := by
      unfold Table.modify
      rw [hc]
    refine h.move (fun j => ?_) rfl rfl ?_
    · have hle := copies_assign hc id j { c with
        inFlight := insert id c.inFlight, occupiedCost := c.occupiedCost + cost } rfl rfl
      by_cases hji : j = id
      · subst hji
        rw [if_pos rfl] at hle
        rw [List.count_cons_self]
        omega
      · rw [if_neg hji] at hle
        rw [List.count_cons_of_ne (Ne.symm hji)]
        omega
    · rw [hput]
      exact indexed_modify (fun _ => rfl) (fun _ => rfl) (fun _ => rfl) h.indexed

/-- A job that waited for its children is taken up again. -/
lemma holds_consolidate (he : exec cfg (.updateJob id .consolidate) s (some true) t)
    (h : Holds l s) : Holds (id :: l) t := by
  have ht : Holds l t := holds_mild (by trivial) he h
  obtain ⟨now, hb, rfl⟩ := he
  obtain ⟨job, hjob, hsched⟩ := Option.map_eq_some_iff.mp hb.symm
  have hst : job.Status = .awaitingChildren := by simpa [JobMutation.scheduled] using hsched
  have hp : SamePlaces s
      { s with jobs := s.jobs.modify id (JobMutation.consolidate.apply now) } :=
    ⟨rfl, rfl, rfl, rfl, rfl, rfl⟩
  refine ht.take ?_ (h.stored id (by rw [hjob]; simp)) fun job' hj => ?_
  · exact h.waiting id job hjob hst
  · rw [get_modify _ _ _ (JobMutation.apply_ID _ now), if_pos rfl, hjob] at hj
    cases hj
    simp [JobMutation.apply, hst]

/-- A job that is held nowhere may wait for its children. -/
lemma holds_await {b : Option Bool} (he : exec cfg (.updateJob id .awaitingChildren) s b t)
    (h : Holds l s) (hzero : copies s id + l.count id = 0) : Holds l t := by
  obtain ⟨now, -, rfl⟩ := he
  have hp : SamePlaces s
      { s with jobs := s.jobs.modify id (JobMutation.awaitingChildren.apply now) } :=
    ⟨rfl, rfl, rfl, rfl, rfl, rfl⟩
  have hget (j : String) : (s.jobs.modify id (JobMutation.awaitingChildren.apply now)).get j =
      if j = id then (s.jobs.get id).map (JobMutation.awaitingChildren.apply now)
      else s.jobs.get j := get_modify _ _ _ (JobMutation.apply_ID _ now)
  refine ⟨fun j => by rw [hp.copies]; exact h.once j, fun j job hj hst => ?_,
    fun j hj => by rw [hp.copies]; exact h.issued j hj, fun j hj => ?_, hp.indexed h.indexed⟩
  · rw [hp.copies]
    rw [hget] at hj
    split_ifs at hj with hji
    · subst hji
      exact hzero
    · exact h.waiting j job hj hst
  · refine h.stored j fun hn => hj ?_
    rw [hget]
    split_ifs with hji
    · subst hji
      rw [hn, Option.map_none]
    · exact hn

lemma holds_restore {w : ConnID} {cost : ℤ} {ok : Bool} (hlanes : cfg.lanes = true)
    (he : exec cfg (.restoreCapacity w id cost) s ok t) (h : Holds l s) (hbut : copiesBut w s id + l.count id = 0)
    (hissued : id ∈ s.issued)
    (hwait : ∀ job, s.jobs.get id = some job → job.Status ≠ .awaitingChildren) :
    Holds (id :: l) t := by
  have ht : Holds l t := holds_mild (by trivial) he h
  obtain ⟨-, rfl⟩ := exec_restoreCapacity hlanes he
  refine ht.take ?_ hissued hwait
  rw [copies_complete_self]
  exact hbut

end Calls

/-! ### Rules for programs -/

/-- The program, run alone, proposes jobs only while they are alone and ends as `Q` says. -/
abbrev Does (cfg : Config) {α : Type} (p : M α) (Q : α → World → Prop) (s : World) : Prop :=
  Prog.wp (exec cfg.toStores) Alone p Q s

section Programs

variable {cfg : Config} {α : Type} {s : World} {l : List String}

variable {p : M α}

lemma does_bind {β : Type} {f : α → M β} {Q : β → World → Prop}
    (h : Does cfg p (fun a t => Does cfg (f a) Q t) s) : Does cfg (p >>= f) Q s :=
  (wp_bind p f Q s).mpr h

lemma does_mild {Q : α → World → Prop} (hp : p.Uses Mild) (h : Holds l s)
    (hQ : ∀ a t, Holds l t → Q a t) : Does cfg p Q s := by
  refine wp_of_uses (R := fun s t => Holds l s → Holds l t) (fun _ h => h)
    (fun _ _ _ h h' hs => h' (h hs)) holds_mild alone_of_mild hp fun a t ht => hQ a t (ht h)

lemma does_step {β : Type} {c : Call β} {f : β → M α} {Q : α → World → Prop} (hc : Mild c)
    (h : Holds l s) (hf : ∀ b t, Holds l t → Does cfg (f b) Q t) :
    Does cfg (Prog.lift c >>= f) Q s :=
  wp_step (alone_of_mild hc) fun b t ht => hf b t (holds_mild hc ht h)

lemma does_quiet {Q : α → World → Prop} (hp : p.Uses Quiet) (hQ : ∀ a t, Same s t → Q a t) :
    Does cfg p Q s := by
  exact wp_quiet (fun {_ c _} hc => alone_of_mild (mild_call c hc)) hp hQ

lemma does_EnqueueJobs {jobs : List Job} {Q : Unit → World → Prop}
    (h : Holds (jobs.map Job.ID ++ l) s) (hQ : ∀ t, Holds l t → Q () t) :
    Does cfg (EnqueueJobs jobs) Q s := by
  induction jobs generalizing s with
  | nil => exact hQ s h
  | cons job rest ih => exact wp_step trivial fun _ t he => ih (holds_push he h)

/-- Jobs that are held nowhere can be queued again. -/
lemma does_OnJobsRequeued {ids : List String} (hn : ids.Nodup) (h : Holds [] s)
    (hfree : ∀ id ∈ ids, copies s id = 0) :
    Does cfg (OnJobsRequeued ids) (fun _ t => Holds [] t) s := by
  induction ids generalizing s with
  | nil => exact h
  | cons id rest ih =>
    rw [List.nodup_cons] at hn
    have hrest : ∀ id' ∈ rest, copies s id' = 0 := fun id' hid' => hfree id' (by simp [hid'])
    have hid := hfree id (by simp)
    refine wp_step trivial fun runs t ht => does_bind ?_
    refine does_quiet (quiet_closeActiveRuns _ _) fun _ u hu => ?_
    replace hu := (same_of_quiet (by trivial) ht).trans hu
    have hp := SamePlaces.of_same hu
    replace h := h.same hu
    refine wp_step trivial fun job v hv => ?_
    obtain ⟨hget, rfl⟩ := hv
    cases job with
    | none => exact ih hn.2 h fun id' hid' => by rw [hp.copies]; exact hrest id' hid'
    | some job =>
      have hjob : job.ID = id := key_of_get hget.symm
      subst hjob
      refine wp_step trivial fun _ x hx => wp_step trivial fun _ y hy => ?_
      have hx' := holds_mild (by trivial) hx h
      obtain ⟨now, -, rfl⟩ := hx
      have hp' : SamePlaces v
          { v with jobs := v.jobs.modify job.ID (JobMutation.requeued.apply now) } :=
        ⟨rfl, rfl, rfl, rfl, rfl, rfl⟩
      have hcopies (j : String) : copies
          { v with jobs := v.jobs.modify job.ID (JobMutation.requeued.apply now) } j =
          copies s j := by rw [hp'.copies, hp.copies]
      -- its status is pending now, so it can be taken and pushed
      have htake : Holds [job.ID]
          { v with jobs := v.jobs.modify job.ID (JobMutation.requeued.apply now) } := by
        refine hx'.take (by rw [hcopies, hid]; rfl) (h.stored _ (by rw [← hget]; simp)) ?_
        intro job' hj
        rw [get_modify _ _ _ (JobMutation.apply_ID _ now), if_pos rfl, ← hget] at hj
        cases hj
        simp [JobMutation.apply]
      refine ih hn.2 (holds_push hy htake) fun id' hid' => ?_
      have hne : job.ID ≠ id' := fun e => hn.1 (e ▸ hid')
      rw [copies_push hy, if_neg (Ne.symm hne), hcopies]
      exact hrest id' hid'

lemma does_retryTimer {id : String} (h : Holds [id] s) :
    Does cfg (retryTimer id) (fun _ t => Holds [] t) s := by
  refine wp_step trivial fun job t ht => ?_
  obtain ⟨hget, rfl⟩ := ht
  have hdrop : Holds [] t := h.drop fun j => by simp
  cases job with
  | none => exact hdrop
  | some job =>
    have hid : job.ID = id := key_of_get hget.symm
    subst hid
    dsimp only
    split
    · exact hdrop
    · refine does_step (by trivial) h fun _ u h => ?_
      exact wp_lift trivial fun _ v hv => holds_push hv h

lemma does_checkSiblings {id : String} (h : Holds [] s) :
    Does cfg (checkSiblings id) (fun _ t => Holds [] t) s := by
  unfold checkSiblings
  split
  · exact h
  refine does_step (by trivial) h fun siblings t h => ?_
  split
  · refine wp_step trivial fun parent u hu => ?_
    obtain ⟨hget, rfl⟩ := hu
    cases parent with
    | none => exact h
    | some parent =>
      refine wp_step trivial fun scheduled v hv => ?_
      split
      · next hs =>
        -- the update went through, so the parent had been waiting
        subst hs
        exact wp_lift trivial fun _ x hx => holds_push hx (holds_consolidate hv h)
      · exact holds_mild (by trivial) hv h
  · exact h

/-! The dispatch pass -/

/-- A proposed job has gone to a worker; otherwise the pass still has it. -/
lemma does_tryProposeJob {job : Job} {keys : List String} (h : Holds (job.ID :: l) s) :
    Does cfg (tryProposeJob cfg job keys)
      (fun r t => match r with
        | .ok _ => Holds l t
        | .error _ => Holds (job.ID :: l) t) s := by
  refine does_step (by trivial) h fun taskDef t h => ?_
  cases taskDef with
  | none => exact h
  | some taskDef =>
    dsimp only
    split
    · exact h
    refine does_step (by trivial) h fun workers u h => ?_
    split
    · exact h
    refine does_step (by trivial) h fun selected v h => ?_
    refine does_bind ?_
    refine does_quiet (quiet_artifactFor _ _ _ _) fun art x hx => ?_
    replace h := h.same hx
    cases art with
    | error err => exact h
    | ok art =>
      have halone : queued x job.ID = 0 ∧ holders x job.ID = ∅ := by
        have honce := h.once job.ID
        rw [List.count_cons_self] at honce
        unfold copies at honce
        exact ⟨by omega, Finset.card_eq_zero.mp (by omega)⟩
      refine wp_step halone fun sent y hy => ?_
      have hy' : Holds (job.ID :: l) y := by
        rcases hy with ⟨-, rfl⟩ | ⟨-, rfl⟩
        · exact h.move (fun _ => le_rfl) rfl rfl (h.indexed.of_eq rfl rfl rfl)
        · exact h
      split
      · exact hy'
      refine wp_step trivial fun updated z hz => ?_
      have hz' := holds_mild (by trivial) hz hy'
      split
      · exact hz'
      refine wp_step trivial fun assigned x' hx' => ?_
      have h' := holds_subtract hx' hz'
      cases assigned with
      | false => exact h'
      | true =>
        refine does_bind ?_
        exact does_mild (mild_of_quiet (quiet_enqueue _ _ _)) h' fun _ _ h => h

lemma does_ProcessQueue (h : Holds [] s) :
    Does cfg (ProcessQueue cfg) (fun _ t => Holds [] t) s := by
  have hdrop {id : String} {l : List String} {t : World} (h : Holds (id :: l) t) : Holds l t :=
    h.drop fun j => by rw [List.count_cons]; omega
  refine wp_pass cfg (I := fun l s => Holds (l.map Job.ID) s)
    (fun hc h => ⟨alone_of_mild (mild_call _ (quiet_of_idles hc)), fun _ _ ht =>
      h.same (same_of_quiet (quiet_of_idles hc) ht)⟩)
    (fun h => ⟨trivial, fun _ _ ht => holds_age ht h⟩) (fun h => ⟨trivial, fun o t ht => ?_⟩)
    (fun h => ⟨trivial, fun _ _ ht => hdrop (holds_mild (by trivial) ht h)⟩)
    (fun h => ⟨trivial, fun _ _ ht => hdrop (holds_mild (by trivial) ht h)⟩)
    (fun h => ⟨trivial, fun _ _ ht => holds_push ht h⟩)
    (fun h => wp_mono (does_tryProposeJob h) fun r t ht => ?_)
    (fun hp h => h.drop fun j => ((hp.map Job.ID).count_eq j).ge) h
  · cases o with
    | none =>
      obtain ⟨-, rfl⟩ := ht
      exact h
    | some job => exact holds_pop ht h
  · cases r <;> exact ht

end Programs

end Workforce.Ownership
