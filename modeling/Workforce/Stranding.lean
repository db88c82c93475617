import Workforce.Consolidation
import Workforce.Operations

/-!
Parents that wait for nothing.

A job that waits for children is meant to leave that state when the last of them ends. A
child ends in several ways, and not all of them tell the parent. This module says what each
call does to the waiting parents, with the parents set aside that the operation at hand is
still to deal with.
-/

namespace Workforce.Stranding

open Tables Contract Progs Shared Calls Handlers Footprints Consolidation

def OpenChild (pid : String) (s : World) (c : Job) : Prop :=
  IsChild pid s c ∧ ¬c.Status.IsTerminal

/-- The parent of the job, if it waits, has another child that has not ended. -/
def Dispensable (s : World) (id : String) : Prop :=
  ∀ j, s.jobs.get id = some j → j.ParentJobID ≠ id → Awaits j.ParentJobID s →
    ∃ c, OpenChild j.ParentJobID s c ∧ c.ID ≠ id

/-- The call does not end the last open child of a waiting parent in one of the ways that the
parent is not told of: the dispatcher fails a job whose task is gone, a job fails because its
child did or while emitting its children, or a job completes next to a sibling that did not. -/
def Spares : {β : Type} → Call β → World → Prop
  | _, .updateJob id (.failDirect _), s => Dispensable s id
  | _, .updateJob id (.failedFor _), s => Dispensable s id
  | _, .updateJobFiring id _, s => Dispensable s id
  | _, .updateJob id (.completed _), s =>
    Dispensable s id ∨ ∀ j, s.jobs.get id = some j →
      ∀ c, IsChild j.ParentJobID s c → c.ID ≠ id → c.Status = .completed
  | _, _, _ => True

/-- Every waiting parent outside `X` has a child that has not ended. Records are stored under
issued names. -/
structure Attended (X : Set String) (s : World) : Prop where
  openChild : ∀ p, p ∉ X → Awaits p s → ∃ c, OpenChild p s c
  issued : ∀ id, s.jobs.get id ≠ none → id ∈ s.issued
  named : s.jobs.get "" = none

section Rules

variable {cfg : Stores} {s t : World} {X : Set String} {id : String}

lemma Attended.of_eq (h : Attended X s) (hjobs : t.jobs = s.jobs) (hi : s.issued ⊆ t.issued) :
    Attended X t := by
  obtain ⟨hopen, hissued, hnamed⟩ := h
  refine ⟨?_, fun id hid => hi (hissued id (by rwa [hjobs] at hid)), by rwa [hjobs]⟩
  simpa only [Awaits, OpenChild, IsChild, hjobs] using hopen

lemma Attended.drop {p : String} (h : Attended (insert p X) s) (hp : ¬Awaits p s) :
    Attended X s := by
  refine ⟨fun q hq hw => h.openChild q ?_ hw, h.issued, h.named⟩
  rintro (rfl | hX)
  · exact hp hw
  · exact hq hX

lemma Attended.mono {Y : Set String} (h : Attended X s) (hXY : X ⊆ Y) : Attended Y s :=
  ⟨fun p hp => h.openChild p fun hX => hp (hXY hX), h.issued, h.named⟩

lemma Attended.save {job : Job} (h : Attended X s) (hnew : s.jobs.get job.ID = none)
    (hname : job.ID ≠ "") (hissued : job.ID ∈ s.issued) (hst : job.Status = .pending)
    (hjobs : t.jobs = s.jobs.put job) (hi : t.issued = s.issued) : Attended X t := by
  have hget : ∀ k, t.jobs.get k = if k = job.ID then some job else s.jobs.get k := by
    intro k
    rw [hjobs, get_put]
  have hold : ∀ {k j}, s.jobs.get k = some j → t.jobs.get k = some j := by
    intro k j hj
    rw [hget, if_neg, hj]
    rintro rfl
    rw [hnew] at hj
    cases hj
  refine ⟨fun p hp hw => ?_, fun id hid => ?_, ?_⟩
  · obtain ⟨j, hj, hwait⟩ := hw
    rw [hget] at hj
    split_ifs at hj with hid
    · cases hj
      rw [hst] at hwait
      cases hwait
    · obtain ⟨c, ⟨hc, hcp⟩, hopen⟩ := h.openChild p hp ⟨j, hj, hwait⟩
      exact ⟨c, ⟨hold hc, hcp⟩, hopen⟩
  · rw [hget] at hid
    rw [hi]
    split_ifs at hid with he
    · exact he ▸ hissued
    · exact h.issued id hid
  · rw [hget, if_neg hname.symm, h.named]

variable {m : JobMutation} {now : Time}

/-- The update of one job. If it ends the job, the parent must not rely on it; if it lets the
job wait, there must be something to wait for. -/
lemma Attended.update (h : Attended X s)
    (hend : ∀ j, s.jobs.get id = some j → ¬j.Status.IsTerminal →
      (m.apply now j).Status.IsTerminal → j.ParentJobID ∉ X → j.ParentJobID ≠ id →
      Awaits j.ParentJobID s → ∃ c, OpenChild j.ParentJobID s c ∧ c.ID ≠ id)
    (hwait : m.writes = some .awaitingChildren → id ∉ X → ∃ c, OpenChild id s c ∧ c.ID ≠ id)
    (hjobs : t.jobs = s.jobs.modify id (m.apply now)) (hi : s.issued ⊆ t.issued) :
    Attended X t := by
  have hget : ∀ k, t.jobs.get k =
      if k = id then (s.jobs.get id).map (m.apply now) else s.jobs.get k := by
    intro k
    rw [hjobs, get_modify _ _ _ (m.apply_ID now)]
  have hother : ∀ {p c}, OpenChild p s c → c.ID ≠ id → OpenChild p t c := by
    rintro p c ⟨⟨hc, hcp⟩, hopen⟩ hne
    exact ⟨⟨by rw [hget, if_neg hne, hc], hcp⟩, hopen⟩
  refine ⟨fun p hp hw => ?_, fun k hk => hi (h.issued k fun hn => hk ?_), ?_⟩
  · rcases awaits_before hjobs hw with hws | ⟨rfl, hm⟩
    · obtain ⟨c, hc⟩ := h.openChild p hp hws
      by_cases hne : c.ID = id
      · subst hne
        by_cases hterm : (m.apply now c).Status.IsTerminal
        · -- the child has ended; it is not the parent itself, which waits
          have hcp : c.ParentJobID = p := hc.1.2
          have hself : p ≠ c.ID := by
            rintro rfl
            obtain ⟨j', hj', hst'⟩ := hw
            rw [hget, if_pos rfl, hc.1.1] at hj'
            cases hj'
            rw [hst'] at hterm
            exact absurd hterm (by decide)
          subst hcp
          obtain ⟨c', hc', hne'⟩ := hend c hc.1.1 hc.2 hterm hp hself hws
          exact ⟨c', hother hc' hne'⟩
        · refine ⟨m.apply now c, ⟨?_, ?_⟩, hterm⟩
          · rw [JobMutation.apply_ID, hget, if_pos rfl, hc.1.1]
            rfl
          · rw [JobMutation.apply_ParentJobID, hc.1.2]
      · exact ⟨c, hother hc hne⟩
    · obtain ⟨c, hc, hne⟩ := hwait hm hp
      exact ⟨c, hother hc hne⟩
  · rw [hget]
    split_ifs with hk'
    · rw [← hk', hn]
      rfl
    · exact hn
  · rw [hget]
    split_ifs with hk'
    · rw [← hk', h.named]
      rfl
    · exact h.named

/-- The update leaves a job that has not ended as one that has not, and lets none wait. -/
def JobMutation.Lively (m : JobMutation) : Prop :=
  ∀ st, m.writes = some st → ¬st.IsTerminal ∧ st ≠ .awaitingChildren

/-- A call after which no parent waits for less. -/
def Lively : {β : Type} → Call β → Prop
  | _, .saveJob _ => False
  | _, .updateJob _ m => JobMutation.Lively m
  | _, .updateJobFiring _ _ => False
  | _, _ => True

lemma lively_apply (hm : JobMutation.Lively m) {j : Job} (hj : ¬j.Status.IsTerminal) :
    ¬(m.apply now j).Status.IsTerminal := by
  rcases hw : m.writes with _ | st
  · exact fun h => hj (JobMutation.apply_terminal hw (.inr h) ▸ h)
  · rw [JobMutation.apply_of_writes hw]
    exact (hm st hw).1

lemma Attended.lively {β : Type} {c : Call β} {b : β} (h : Attended X s) (hc : Lively c)
    (he : exec cfg c s b t) : Attended X t := by
  cases c with
  | saveJob | updateJobFiring => exact hc.elim
  | updateJob id m =>
    obtain ⟨now, -, rfl⟩ := he
    refine h.update (fun j _ hj hterm => absurd hterm (lively_apply hc hj)) (fun hw => ?_) rfl
      subset_rfl
    exact absurd rfl (hc _ hw).2
  | _ =>
    have hj := jobs_unchanged (by exact id) he
    exact h.of_eq hj.1 hj.2

lemma Attended.endJob (h : Attended X s) (hd : Dispensable s id)
    (hm : m.writes ≠ some .awaitingChildren) (hjobs : t.jobs = s.jobs.modify id (m.apply now))
    (hi : s.issued ⊆ t.issued) : Attended X t :=
  h.update (fun j hj _ _ _ hself hw => hd j hj hself hw) (fun hw => absurd hw hm) hjobs hi

/-- A call that ends no job but one its parent does not rely on. -/
def Kept : {β : Type} → Call β → Prop
  | _, .updateJob _ (.failDirect _) => True
  | _, .updateJobFiring _ _ => True
  | _, c => Lively c

lemma Attended.kept {β : Type} {c : Call β} {b : β} (h : Attended X s) (hc : Kept c)
    (hd : Spares c s) (he : exec cfg c s b t) : Attended X t := by
  cases c with
  | updateJob id m =>
    cases m with
    | failDirect reason =>
      obtain ⟨now, -, rfl⟩ := he
      exact h.endJob (m := .failDirect reason) hd (by simp [JobMutation.writes]) rfl subset_rfl
    | _ => exact h.lively (by exact hc) he
  | updateJobFiring id reason =>
    rcases exec_updateJobFiring he with ⟨-, -, rfl⟩ | ⟨now, issued, hooks, -, -, hi, rfl⟩
    · exact h
    · exact h.endJob (m := .failedFor reason) hd (by simp [JobMutation.writes]) rfl hi
  | _ => exact h.lively (by exact hc) he

lemma Attended.endChild (h : Attended X s) (hX : ∀ j, s.jobs.get id = some j → j.ParentJobID ∈ X)
    (hm : m.writes ≠ some .awaitingChildren) (hjobs : t.jobs = s.jobs.modify id (m.apply now))
    (hi : s.issued ⊆ t.issued) : Attended X t :=
  h.update (fun j hj _ _ hp => absurd (hX j hj) hp) (fun hw => absurd hw hm) hjobs hi

lemma not_awaits_of_consolidate
    (hjobs : t.jobs = s.jobs.modify id (JobMutation.consolidate.apply now)) : ¬Awaits id t := by
  rintro ⟨j', hj', hw⟩
  rw [hjobs, get_modify _ _ _ (JobMutation.apply_ID _ now), if_pos rfl] at hj'
  obtain ⟨j, -, rfl⟩ := Option.map_eq_some_iff.mp hj'
  simp only [JobMutation.apply] at hw
  split_ifs at hw with h
  exact h hw

lemma not_awaits_of_update {st : JobStatus} (hm : m.writes = some st) (hst : st ≠ .awaitingChildren)
    (hjobs : t.jobs = s.jobs.modify id (m.apply now)) : ¬Awaits id t := by
  rintro ⟨j', hj', hw⟩
  rw [hjobs, get_modify _ _ _ (m.apply_ID now), if_pos rfl] at hj'
  obtain ⟨j, -, rfl⟩ := Option.map_eq_some_iff.mp hj'
  rw [JobMutation.apply_of_writes hm] at hw
  exact hst hw

end Rules

/-! ### Programs -/

def sparing (cfg : Stores) {β : Type} (c : Call β) (s : World) (b : β) (t : World) : Prop :=
  Spares c s ∧ exec cfg c s b t

/-- The program, its calls meeting the condition, ends as `Q` says. -/
abbrev Leaves (cfg : Config) {α : Type} (p : M α) (Q : α → World → Prop) (s : World) : Prop :=
  Prog.wp (sparing cfg.toStores) (fun _ _ => True) p Q s

section Programs

variable {cfg : Config} {α : Type} {s : World} {X : Set String}

variable {p : M α}

lemma leaves_bind {β : Type} {f : α → M β} {Q : β → World → Prop}
    (h : Leaves cfg p (fun a t => Leaves cfg (f a) Q t) s) : Leaves cfg (p >>= f) Q s :=
  (wp_bind p f Q s).mpr h

variable {Q : α → World → Prop}

lemma leaves_step {β : Type} {c : Call β} {f : β → M α}
    (h : ∀ b t, Spares c s → exec cfg.toStores c s b t → Leaves cfg (f b) Q t) :
    Leaves cfg (.lift c >>= f) Q s :=
  wp_step trivial fun b t he => h b t he.1 he.2

lemma leaves_kept (hp : p.Uses Kept) (h : Attended X s) (hQ : ∀ a t, Attended X t → Q a t) :
    Leaves cfg p Q s := by
  refine wp_of_uses (R := fun s t => Attended X s → Attended X t) (fun _ h => h)
    (fun _ _ _ h h' hs => h' (h hs)) (fun hc he hs => hs.kept hc he.1 he.2) (fun _ => trivial) hp
    fun a t ht => hQ a t (ht h)

lemma leaves_quiet (hp : p.Uses Quiet) (hQ : ∀ a t, Same s t → Q a t) : Leaves cfg p Q s := by
  refine wp_of_uses (R := Same) Same.refl (fun _ _ _ => Same.trans)
    (fun hc he => same_of_quiet hc he.2) (fun _ => trivial) hp hQ

lemma Attended.same {t : World} (h : Attended X s) (hs : Same s t) : Attended X t :=
  h.of_eq hs.jobs hs.issued

end Programs

end Workforce.Stranding
