import Workforce.Handshake
import Workforce.Shortage

/-!
What a dispatch pass sends and what it records agree.

The pass is watched: next to the shared state stand the proposals sent and the costs charged to
workers since the watch began. The proposal goes out first; the status and the reservation
follow. When all sends and updates succeed, the one thing that can still go wrong is the
reservation, and it fails for a job without a cost on a worker that is full.
-/

namespace Workforce.Proposals

open Tables Contract Progs Shared Calls Handlers Dispatcher Footprints Copies Handshake

/-! ### Watching a pass -/

structure Watched where
  world : World
  /-- The proposals sent: to which connection, of which job. -/
  proposals : List (ConnID × String)
  /-- What was added to a connection's occupied cost, on account of which job. -/
  charges : List (ConnID × String × ℤ)

def Logs : {β : Type} → Call β → Watched → β → Watched → Prop
  | _, .send w (.propose job _ _), x, ok, y =>
    y.proposals = (if ok then x.proposals ++ [(w, job.ID)] else x.proposals) ∧
      y.charges = x.charges
  | _, .subtractCapacity w taskID cost, x, ok, y =>
    y.proposals = x.proposals ∧
      y.charges = if ok then x.charges ++ [(w, taskID, cost)] else x.charges
  | _, _, x, _, y => y.proposals = x.proposals ∧ y.charges = x.charges

/-- The answer of a send or of a job update that succeeds. -/
def Succeeds : {β : Type} → Call β → β → Prop
  | _, .send _ _, ok => ok = true
  | _, .updateJob _ _, r => r ≠ none
  | _, _, _ => True

def watched (cfg : Stores) {β : Type} (c : Call β) (x : Watched) (b : β) (y : Watched) : Prop :=
  exec cfg c x.world b y.world ∧ Succeeds c b ∧ Logs c x b y

/-- The calls of a pass that proposes no job without a cost to a full worker. -/
def roomy (cfg : Stores) {β : Type} (c : Call β) (x : Watched) (b : β) (y : Watched) : Prop :=
  watched cfg c x b y ∧ Roomy c x.world

def statusOf (s : World) (id : String) : Option JobStatus := (s.jobs.get id).map Job.Status

/-- What a list of charges adds to a connection. -/
def charged (charges : List (ConnID × String × ℤ)) (w : ConnID) : ℤ :=
  ((charges.filter fun e => e.1 = w).map fun e => e.2.2).sum

/-! ### What one turn does -/

structure Alike (x y : Watched) : Prop where
  jobs : y.world.jobs = x.world.jobs
  conns : y.world.conns = x.world.conns
  proposals : y.proposals = x.proposals
  charges : y.charges = x.charges

structure Rests (x y : Watched) : Prop extends Alike x y where
  queue : y.world.queue = x.world.queue

lemma Alike.refl (x : Watched) : Alike x x := ⟨rfl, rfl, rfl, rfl⟩

lemma Alike.trans {x y z : Watched} (h : Alike x y) (h' : Alike y z) : Alike x z where
  jobs := h'.jobs.trans h.jobs
  conns := h'.conns.trans h.conns
  proposals := h'.proposals.trans h.proposals
  charges := h'.charges.trans h.charges

lemma Rests.refl (x : Watched) : Rests x x := ⟨.refl x, rfl⟩

lemma Rests.trans {x y z : Watched} (h : Rests x y) (h' : Rests y z) : Rests x z :=
  ⟨h.toAlike.trans h'.toAlike, h'.queue.trans h.queue⟩

/-- The job is marked as proposed and charged to the connection. -/
structure Books (job : Job) (w : ConnID) (x y : Watched) : Prop where
  queue : y.world.queue = x.world.queue
  charges : y.charges = x.charges ++ [(w, job.ID, job.Cost)]
  jobs : ∃ now, (x.world.jobs.get job.ID).isSome ∧
    y.world.jobs = x.world.jobs.modify job.ID (JobMutation.proposing.apply now)
  conns : ∃ c, x.world.conns.get w = some c ∧ y.world.conns = x.world.conns.put
    { c with inFlight := insert job.ID c.inFlight, occupiedCost := c.occupiedCost + job.Cost }

/-- A proposal of the job is sent and recorded. -/
structure Offers (job : Job) (w : ConnID) (x y : Watched) : Prop extends Books job w x y where
  proposals : y.proposals = x.proposals ++ [(w, job.ID)]

structure Fails (job : Job) (x y : Watched) : Prop where
  queue : y.world.queue = x.world.queue
  conns : y.world.conns = x.world.conns
  proposals : y.proposals = x.proposals
  charges : y.charges = x.charges
  jobs : ∃ now reason,
    y.world.jobs = x.world.jobs.modify job.ID ((JobMutation.failDirect reason).apply now)

variable {cfg : Config} {x y z : Watched} {job : Job}

lemma rests_of_quiet {β : Type} {c : Call β} {b : β} (hc : Quiet c)
    (h : roomy cfg.toStores c x b y) : Rests x y := by
  obtain ⟨⟨he, -, hlogs⟩, -⟩ := h
  have hs := same_of_quiet hc he
  have hlog : y.proposals = x.proposals ∧ y.charges = x.charges := by
    cases c with
    | send w f =>
      cases f with
      | propose => exact hc.elim
      | _ => exact hlogs
    | subtractCapacity => exact hc.elim
    | _ => exact hlogs
  exact ⟨⟨hs.jobs, hs.conns, hlog.1, hlog.2⟩, hs.queue⟩

lemma wp_quiet {α : Type} {p : M α} {Q : α → Watched → Prop} (hp : p.Uses Quiet)
    (hQ : ∀ a y, Rests x y → Q a y) :
    Prog.wp (roomy cfg.toStores) (fun _ _ => True) p Q x :=
  wp_of_uses (R := Rests) Rests.refl (fun _ _ _ => Rests.trans)
    (fun hc he => rests_of_quiet hc he) (fun _ => trivial) hp hQ

/-- Once the proposal of an eligible worker is out, the rest succeeds. -/
lemma wp_recordProposal {c₀ : WorkerConn} (hlanes : cfg.lanes = true) (ho : Offered job x.world c₀)
    (hroom : job.Cost = 0 → 0 < c₀.AvailableCapacity) :
    Prog.wp (roomy cfg.toStores) (fun _ _ => True) (mark job c₀)
      (fun r y => r = .ok () ∧ y.proposals = x.proposals ∧ Books job c₀.conn x y) x := by
  refine wp_step trivial fun updated u hu => ?_
  obtain ⟨⟨⟨now, hr, hu⟩, hsome, hup, huc⟩, -⟩ := hu
  have hstored : (x.world.jobs.get job.ID).isSome := by
    rcases hj : x.world.jobs.get job.ID with _ | j
    · rw [hr, hj] at hsome
      exact absurd rfl hsome
    · rfl
  have hne : updated ≠ none := hsome
  rw [if_neg hne]
  refine wp_step trivial fun ok v hv => ?_
  obtain ⟨⟨hv, -, hvp, hvc⟩, -⟩ := hv
  have hconn : u.world.conns.get c₀.conn = some c₀ := by
    rw [hu]
    exact ho.conn
  rcases AssignTask_cases ho rfl with ⟨hf, -⟩ | ⟨-, c', hassign⟩
  · exact absurd (hroom hf.1) (not_lt.mpr hf.2)
  simp only [exec, hconn, hassign, hlanes, Bool.true_eq_false, false_and, false_or] at hv
  obtain ⟨rfl, hv⟩ := hv
  refine (wp_bind _ _ _ _).mpr (wp_quiet (quiet_enqueue _ _ _) fun _ y hy => ?_)
  refine ⟨rfl, ?_, ?_, ?_, ⟨now, hstored, ?_⟩, c₀, ho.conn, ?_⟩
  · rw [hy.proposals, hvp, hup]
  · rw [hy.queue, hv, hu]
  · rw [hy.charges, hvc, huc]
    rfl
  · rw [hy.jobs, hv, hu]
  · rw [hy.conns, hv, hu, WorkerConn.eq_of_AssignTask hassign]

/-- A job is proposed with everything that belongs to it, or nothing happens. -/
lemma wp_tryProposeJob (hlanes : cfg.lanes = true) (keys : List String) :
    Prog.wp (roomy cfg.toStores) (fun _ _ => True) (tryProposeJob cfg job keys)
      (fun r y => (r = .ok () ∧ ∃ w, Offers job w x y) ∨ (r ≠ .ok () ∧ Rests x y)) x := by
  refine wp_step trivial fun task u hu => ?_
  have hxu := rests_of_quiet (by trivial) hu
  cases task with
  | none => exact .inr ⟨nofun, hxu⟩
  | some taskDef =>
    split_ifs
    · exact .inr ⟨nofun, hxu⟩
    refine wp_step trivial fun workers v hv => ?_
    have hxv := hxu.trans (rests_of_quiet (by trivial) hv)
    split_ifs
    · exact .inr ⟨nofun, hxv⟩
    refine wp_step trivial fun selected a ha => ?_
    have hxa := hxv.trans (rests_of_quiet (by trivial) ha)
    have ho : Offered job u.world selected := offered_of_eligible hv.1.1 ha.1.1.1
    refine (wp_bind _ _ _ _).mpr
      (wp_quiet (quiet_artifactFor cfg job taskDef selected) fun art d hd => ?_)
    have hxd := hxa.trans hd
    cases art with
    | error err => exact .inr ⟨nofun, hxd⟩
    | ok info =>
      refine wp_step trivial fun sent e he => ?_
      obtain ⟨⟨he, hsent, hep, hec⟩, hroom⟩ := he
      obtain rfl : sent = true := hsent
      have hworld := (he.resolve_right fun h => nomatch h.1).2
      have hoe : Offered job e.world selected := by
        refine ⟨?_, ho.cost, ho.fits⟩
        rw [hworld]
        exact (hxd.conns.trans hxu.conns.symm) ▸ ho.conn
      have hav : job.Cost = 0 → 0 < selected.AvailableCapacity := fun h0 =>
        hroom h0 selected (by rw [hxd.conns, ← hxu.conns]; exact ho.conn)
      refine wp_mono (wp_recordProposal hlanes hoe hav) fun r y hy => ?_
      obtain ⟨rfl, hp, hbooks⟩ := hy
      have hsame : Books job selected.conn x y := by
        obtain ⟨hq, hc, ⟨now, hst, hj⟩, c, hg, hcs⟩ := hbooks
        rw [hworld] at hst hq hj hg hcs
        refine ⟨hq.trans hxd.queue, ?_, ⟨now, hxd.jobs ▸ hst, ?_⟩, c, hxd.conns ▸ hg, ?_⟩
        · rw [hc, hec, hxd.charges]
        · rw [hj, hxd.jobs]
        · rw [hcs, hxd.conns]
      refine .inl ⟨rfl, selected.conn, hsame, ?_⟩
      rw [hp, hep, hxd.proposals]
      rfl

/-! ### The account of every job -/

/-- Nothing about the job has changed. -/
structure SameFor (id : String) (x y : Watched) : Prop where
  proposals : ∀ w, (w, id) ∈ y.proposals ↔ (w, id) ∈ x.proposals
  charges : ∀ w cost, (w, id, cost) ∈ y.charges ↔ (w, id, cost) ∈ x.charges
  status : statusOf y.world id = statusOf x.world id
  inFlight : ∀ w, id ∈ inFlightOf y.world w ↔ id ∈ inFlightOf x.world w

lemma SameFor.trans {id : String} (h : SameFor id x y) (h' : SameFor id y z) :
    SameFor id x z where
  proposals := fun w => (h'.proposals w).trans (h.proposals w)
  charges := fun w cost => (h'.charges w cost).trans (h.charges w cost)
  status := h'.status.trans h.status
  inFlight := fun w => (h'.inFlight w).trans (h.inFlight w)

lemma Alike.sameFor (h : Alike x y) (id : String) : SameFor id x y where
  proposals := fun w => by rw [h.proposals]
  charges := fun w cost => by rw [h.charges]
  status := by rw [statusOf, h.jobs, statusOf]
  inFlight := fun w => by rw [inFlightOf, h.conns, inFlightOf]

lemma statusOf_modify {s t : World} {id id' : String} {m : JobMutation} {now : Time}
    (h : t.jobs = s.jobs.modify id (m.apply now)) (hne : id' ≠ id) :
    statusOf t id' = statusOf s id' := by
  rw [statusOf, h, get_modify _ _ _ (JobMutation.apply_ID m now), if_neg hne, statusOf]

lemma Fails.sameFor (h : Fails job x y) {id : String} (hne : id ≠ job.ID) : SameFor id x y where
  proposals := fun w => by rw [h.proposals]
  charges := fun w cost => by rw [h.charges]
  status := by
    obtain ⟨now, reason, hj⟩ := h.jobs
    exact statusOf_modify hj hne
  inFlight := fun w => by rw [inFlightOf, h.conns, inFlightOf]

section Offers

variable {w : ConnID}

lemma Offers.inFlightOf_eq (h : Offers job w x y) (w' : ConnID) :
    inFlightOf y.world w' =
      if w' = w then insert job.ID (inFlightOf x.world w) else inFlightOf x.world w' := by
  obtain ⟨c, hg, hc⟩ := h.conns
  have hkey := key_of_get hg
  simp only [inFlightOf, hc, get_put, hkey]
  split_ifs with hw
  · rw [hg]
    rfl
  · rfl

lemma Offers.occupiedOf_eq (h : Offers job w x y) (w' : ConnID) :
    occupiedOf y.world w' = occupiedOf x.world w' + if w' = w then job.Cost else 0 := by
  obtain ⟨c, hg, hc⟩ := h.conns
  have hkey := key_of_get hg
  simp only [occupiedOf, hc, get_put, hkey]
  split_ifs with hw
  · rw [hw, hg]
    rfl
  · rw [add_zero]

lemma Offers.sameFor (h : Offers job w x y) {id : String} (hne : id ≠ job.ID) :
    SameFor id x y where
  proposals := fun w' => by
    rw [h.proposals, List.mem_append, List.mem_singleton, Prod.mk.injEq]
    simp [hne]
  charges := fun w' cost => by
    rw [h.charges, List.mem_append, List.mem_singleton, Prod.mk.injEq, Prod.mk.injEq]
    simp [hne]
  status := by
    obtain ⟨now, -, hj⟩ := h.jobs
    exact statusOf_modify hj hne
  inFlight := fun w' => by
    rw [h.inFlightOf_eq]
    split_ifs with hw
    · rw [Finset.mem_insert, hw]
      simp [hne]
    · exact Iff.rfl

lemma Offers.status (h : Offers job w x y) : statusOf y.world job.ID = some .proposing := by
  obtain ⟨now, hst, hj⟩ := h.jobs
  obtain ⟨j, hget⟩ := Option.isSome_iff_exists.mp hst
  rw [statusOf, hj, get_modify _ _ _ (JobMutation.apply_ID _ now), if_pos rfl, hget]
  rfl

end Offers

/-- The proposals of the job are those that are recorded: it is in flight, its cost is charged
and its status says so. -/
def Recorded (id : String) (cost : ℤ) (x : Watched) : Prop :=
  ∀ w, (w, id) ∈ x.proposals ↔ id ∈ inFlightOf x.world w ∧ (w, id, cost) ∈ x.charges ∧
    statusOf x.world id = some .proposing

/-- During a pass over the jobs of `bill` that began in `s`: the jobs of `l` have not been
touched, the proposals of the others are recorded, and the charges account for what is
occupied. -/
structure Inv (s : World) (bill : List (String × ℤ)) (l : List Job) (x : Watched) : Prop where
  nodup : (l.map Job.ID).Nodup
  billed : ∀ j ∈ l, (j.ID, j.Cost) ∈ bill
  untouched : ∀ j ∈ l, SameFor j.ID ⟨s, [], []⟩ x
  recorded : ∀ id cost, (id, cost) ∈ bill → id ∉ l.map Job.ID → Recorded id cost x
  occupied : ∀ w, occupiedOf x.world w = occupiedOf s w + charged x.charges w

section Invariant

variable {s : World} {bill : List (String × ℤ)} {l l' : List Job}

lemma SameFor.recorded {id : String} {cost : ℤ} (h : SameFor id x y)
    (hr : Recorded id cost x) : Recorded id cost y := by
  intro w
  rw [h.proposals, h.inFlight, h.charges, h.status]
  exact hr w

lemma recorded_of_untouched {id : String} (h : SameFor id ⟨s, [], []⟩ x) (cost : ℤ) :
    Recorded id cost x := by
  intro w
  rw [h.proposals, h.charges]
  simp

lemma Inv.perm (h : Inv s bill l x)
    (hp : (l.map fun j => (j.ID, j.Cost)).Perm (l'.map fun j => (j.ID, j.Cost))) :
    Inv s bill l' x := by
  have hids : (l.map Job.ID).Perm (l'.map Job.ID) := by
    simpa [Function.comp_def] using hp.map Prod.fst
  have hmem {j : Job} (hj : j ∈ l') : ∃ k ∈ l, (k.ID, k.Cost) = (j.ID, j.Cost) :=
    List.mem_map.mp (hp.mem_iff.mpr (List.mem_map_of_mem hj))
  refine ⟨hids.nodup_iff.mp h.nodup, fun j hj => ?_, fun j hj => ?_, fun id cost hb hn =>
    h.recorded id cost hb fun hm => hn (hids.mem_iff.mp hm), h.occupied⟩
  · obtain ⟨k, hk, he⟩ := hmem hj
    exact he ▸ h.billed k hk
  · obtain ⟨k, hk, he⟩ := hmem hj
    exact (Prod.mk.inj he).1 ▸ h.untouched k hk

lemma Inv.alike (h : Inv s bill l x) (ha : Alike x y) : Inv s bill l y where
  nodup := h.nodup
  billed := h.billed
  untouched := fun j hj => (h.untouched j hj).trans (ha.sameFor j.ID)
  recorded := fun id cost hb hn => (ha.sameFor id).recorded (h.recorded id cost hb hn)
  occupied := fun w => by
    rw [occupiedOf, ha.conns, ha.charges]
    exact h.occupied w

lemma Inv.turn (hbill : (bill.map Prod.fst).Nodup) (h : Inv s bill (job :: l) x)
    (hother : ∀ id, id ≠ job.ID → SameFor id x y) (hjob : Recorded job.ID job.Cost y)
    (hocc : ∀ w, occupiedOf y.world w = occupiedOf s w + charged y.charges w) :
    Inv s bill l y := by
  obtain ⟨hnotin, hnodup⟩ := List.nodup_cons.mp h.nodup
  refine ⟨hnodup, fun j hj => h.billed j (List.mem_cons_of_mem _ hj), fun j hj => ?_,
    fun id cost hb hn => ?_, hocc⟩
  · have hne : j.ID ≠ job.ID := fun heq => hnotin (heq ▸ List.mem_map_of_mem hj)
    exact (h.untouched j (List.mem_cons_of_mem _ hj)).trans (hother _ hne)
  · by_cases hid : id = job.ID
    · -- each name is billed once
      have hmine := h.billed job List.mem_cons_self
      obtain ⟨-, rfl⟩ := Prod.mk.inj
        (List.inj_on_of_nodup_map hbill hb hmine (show id = job.ID from hid))
      exact hid ▸ hjob
    · refine (hother id hid).recorded (h.recorded id cost hb ?_)
      rw [List.map_cons, List.mem_cons, not_or]
      exact ⟨hid, hn⟩

lemma Inv.discard (hbill : (bill.map Prod.fst).Nodup) (h : Inv s bill (job :: l) x) :
    Inv s bill l x :=
  h.turn hbill (fun id _ => (Alike.refl x).sameFor id)
    (recorded_of_untouched (h.untouched job List.mem_cons_self) _) h.occupied

lemma charged_append (charges : List (ConnID × String × ℤ)) (w w' : ConnID) (id : String)
    (cost : ℤ) : charged (charges ++ [(w, id, cost)]) w' =
      charged charges w' + if w' = w then cost else 0 := by
  unfold charged
  by_cases hw : w' = w
  · simp [hw]
  · simp [hw, Ne.symm hw]

lemma Inv.offers {w : ConnID} (hbill : (bill.map Prod.fst).Nodup) (h : Inv s bill (job :: l) x)
    (ho : Offers job w x y) : Inv s bill l y := by
  have hfresh := h.untouched job List.mem_cons_self
  have hno (w' : ConnID) : (w', job.ID) ∉ x.proposals := by
    rw [hfresh.proposals]
    exact List.not_mem_nil
  have hnoc (w' : ConnID) : (w', job.ID, job.Cost) ∉ x.charges := by
    rw [hfresh.charges]
    exact List.not_mem_nil
  refine h.turn hbill (fun id => ho.sameFor) (fun w' => ?_) fun w' => ?_
  · -- proposed to `w` alone, and recorded there alone
    rw [ho.proposals, ho.charges, List.mem_append, List.mem_append, ho.status, ho.inFlightOf_eq]
    by_cases hw : w' = w
    · simp [hw]
    · simp [hw, hno w', hnoc w']
  · rw [ho.occupiedOf_eq, ho.charges, charged_append, h.occupied w', add_assoc]

lemma Inv.fails (hbill : (bill.map Prod.fst).Nodup) (h : Inv s bill (job :: l) x)
    (hf : Fails job x y) : Inv s bill l y := by
  have hfresh := h.untouched job List.mem_cons_self
  refine h.turn hbill (fun id => hf.sameFor) (fun w => ?_) fun w => ?_
  · -- neither proposed nor charged
    rw [hf.proposals, hf.charges, hfresh.proposals, hfresh.charges]
    simp
  · rw [occupiedOf, hf.conns, hf.charges]
    exact h.occupied w

end Invariant

/-! ### The pass -/

/-- After the pass the jobs in the queue have not been touched, and the proposals of the others
are recorded. -/
lemma wp_ProcessQueue {s : World} (hlanes : cfg.lanes = true) (hnodup : (s.queue.map Job.ID).Nodup) :
    Prog.wp (roomy cfg.toStores) (fun _ _ => True) (ProcessQueue cfg)
      (fun _ y => Inv s (s.queue.map fun j => (j.ID, j.Cost)) y.world.queue y) ⟨s, [], []⟩ := by
  have hbill : ((s.queue.map fun j => (j.ID, j.Cost)).map Prod.fst).Nodup := by
    rwa [List.map_map]
  generalize hb : s.queue.map (fun j => (j.ID, j.Cost)) = bill at hbill ⊢
  have hfirst {job : Job} {l : List Job} {x : Watched}
      (h : Inv s bill (x.world.queue ++ job :: l) x) : Inv s bill (job :: (x.world.queue ++ l)) x :=
    h.perm (List.perm_middle.map _)
  refine wp_mono (wp_pass cfg (I := fun l x => Inv s bill (x.world.queue ++ l) x)
    (fun hc h => ⟨trivial, fun _ y hy => ?_⟩) (fun {timeout l x} h => wp_lift trivial fun _ y hy => ?_)
    (fun {l x} h => wp_lift trivial fun o y hy => ?_)
    (fun {job l x} h => wp_lift trivial fun _ y hy => ?_)
    (fun {job l x reason} h => wp_lift trivial fun _ y hy => ?_)
    (fun {job l x} h => wp_lift trivial fun _ y hy => ?_)
    (fun {job l x keys} h => wp_mono (wp_tryProposeJob hlanes keys) fun r y hy => ?_)
    (fun hp h => h.perm ((hp.append_left _).map _)) ?_) fun _ y h => by rwa [List.append_nil] at h
  · have hr := rests_of_quiet (quiet_of_idles hc) hy
    rw [hr.queue]
    exact h.alike hr.toAlike
  · obtain ⟨⟨⟨now, hy⟩, -, hp, hc⟩, -⟩ := hy
    refine (h.perm (List.Perm.of_eq ?_)).alike ⟨by rw [hy], by rw [hy], hp, hc⟩
    rw [hy, List.map_append, List.map_append, aged_map (fun _ _ => rfl)]
  · obtain ⟨⟨hpop, -, hp, hc⟩, -⟩ := hy
    rcases exec_popItem hpop with ⟨rfl, -, hy⟩ | ⟨job, hmem, rfl, -, hy⟩
    · rw [hy]
      exact h.alike ⟨by rw [hy], by rw [hy], hp, hc⟩
    · have hperm := ((List.perm_cons_erase hmem).append_right l).trans List.perm_middle.symm
      rw [hy]
      exact (h.perm (hperm.map _)).alike ⟨by rw [hy], by rw [hy], hp, hc⟩
  · obtain ⟨⟨hy, -, hp, hc⟩, -⟩ := hy
    have hworld : y.world =
        { x.world with cancelledJobIDs := x.world.cancelledJobIDs.erase job.ID } := hy
    rw [hworld]
    exact ((hfirst h).discard hbill).alike ⟨by rw [hworld], by rw [hworld], hp, hc⟩
  · obtain ⟨⟨⟨now, -, hy⟩, -, hp, hc⟩, -⟩ := hy
    have hf : Fails job x y := ⟨by rw [hy], by rw [hy], hp, hc, now, reason, by rw [hy]⟩
    rw [hf.queue]
    exact (hfirst h).fails hbill hf
  · obtain ⟨⟨hy, -, hp, hc⟩, -⟩ := hy
    have hworld : y.world = { x.world with queue := x.world.queue ++ [job] } := hy
    rw [hworld, ← List.append_cons]
    exact h.alike ⟨by rw [hworld], by rw [hworld], hp, hc⟩
  · rcases hy with ⟨rfl, w, ho⟩ | ⟨hne, hr⟩
    · rw [ho.queue]
      exact (hfirst h).offers hbill ho
    · cases r with
      | ok => exact absurd rfl hne
      | error err =>
        rw [hr.queue]
        exact h.alike hr.toAlike
  · have hmem {j : Job} (hj : j ∈ s.queue) : (j.ID, j.Cost) ∈ bill :=
      hb ▸ List.mem_map_of_mem (f := fun j : Job => (j.ID, j.Cost)) hj
    rw [List.append_nil]
    refine ⟨hnodup, fun j hj => hmem hj, fun j _ => (Alike.refl _).sameFor j.ID,
      fun id cost hcost hn => ?_, fun w => by simp [charged]⟩
    obtain ⟨j, hj, heq⟩ := List.mem_map.mp (hb ▸ hcost)
    exact absurd (List.mem_map_of_mem hj) ((Prod.mk.inj heq).1 ▸ hn)

/-- **What is sent is what is recorded.** In a pass over distinct jobs in which all sends and
updates succeed, and in which no job without a cost is proposed to a full worker: the charges
account for what the workers have occupied; a job of the queue is proposed to a worker exactly
if it has left the queue, is in flight there, is charged to it and has the status to say so; and
a job that is put back has not been proposed and keeps its status. -/
theorem proposal_iff_recorded (cfg : Config) (hlanes : cfg.lanes = true) (s : World)
    (hnodup : (s.queue.map Job.ID).Nodup) {shortage : Bool} {y : Watched}
    (h : Prog.Ends (roomy cfg.toStores) (ProcessQueue cfg) ⟨s, [], []⟩ shortage y) :
    (∀ w, occupiedOf y.world w = occupiedOf s w + charged y.charges w) ∧
    (∀ j ∈ s.queue, ∀ w, (w, j.ID) ∈ y.proposals ↔
      j.ID ∉ y.world.queue.map Job.ID ∧ j.ID ∈ inFlightOf y.world w ∧
        (w, j.ID, j.Cost) ∈ y.charges ∧ statusOf y.world j.ID = some .proposing) ∧
    ∀ j ∈ y.world.queue, (∀ w, (w, j.ID) ∉ y.proposals) ∧
      statusOf y.world j.ID = statusOf s j.ID := by
  have hinv := wp_sound (wp_ProcessQueue hlanes hnodup) h
  have hback : ∀ j ∈ y.world.queue, ∀ w, (w, j.ID) ∉ y.proposals := fun j hj w hw =>
    absurd (((hinv.untouched j hj).proposals w).mp hw) List.not_mem_nil
  refine ⟨hinv.occupied, fun j hj w => ?_, fun j hj => ⟨hback j hj, (hinv.untouched j hj).status⟩⟩
  by_cases hq : j.ID ∈ y.world.queue.map Job.ID
  · obtain ⟨j', hj', hid⟩ := List.mem_map.mp hq
    exact ⟨fun hp => absurd (hid ▸ hp) (hback j' hj' w), fun hr => absurd hq hr.1⟩
  · rw [hinv.recorded j.ID j.Cost (List.mem_map.mpr ⟨j, hj, rfl⟩) hq w]
    exact ⟨fun hr => ⟨hq, hr⟩, fun hr => hr.2⟩

/-! ### One job and one worker -/

section OneJob

open Shortage (idle jobOf workerOf)

def sentOut (capacity cost : ℤ) : Watched where
  world := { idle capacity cost [] with
    sent := [(0, .propose (jobOf cost) { Name := "t", Cost := cost } {})] }
  proposals := [(0, "j")]
  charges := []

def marked (capacity cost : ℤ) : Watched :=
  { sentOut capacity cost with
    world := { (sentOut capacity cost).world with
      jobs := (sentOut capacity cost).world.jobs.modify "j" (JobMutation.proposing.apply 0) } }

/-- What is watched once the call is answered. -/
def logged : {β : Type} → Call β → Watched → β → World → Watched
  | _, .send w (.propose job _ _), x, ok, s =>
    ⟨s, if ok then x.proposals ++ [(w, job.ID)] else x.proposals, x.charges⟩
  | _, .subtractCapacity w taskID cost, x, ok, s =>
    ⟨s, x.proposals, if ok then x.charges ++ [(w, taskID, cost)] else x.charges⟩
  | _, _, x, _, s => ⟨s, x.proposals, x.charges⟩

/-- The calls that are played: updates of stored jobs, and proposals of jobs without a cost only if
they are `free` to be made. -/
def allowed (free : Bool) : {β : Type} → Call β → World → Bool
  | _, .updateJob id _, s => (s.jobs.get id).isSome
  | _, .send _ (.propose job _ _), _ => free || job.Cost ≠ 0
  | _, _, _ => true

def answerWatched (free : Bool) {β : Type} (c : Call β) (x : Luck × Watched) :
    Option (β × Luck × Watched) :=
  if allowed free c x.2.world then
    (answer c (x.1, x.2.world)).map fun r => (r.1, r.2.1, logged c x.2 r.1 r.2.2)
  else none

lemma watched_of_answer {free : Bool} {β : Type} {c : Call β} {x y : Luck × Watched} {b : β}
    (h : answerWatched free c x = some (b, y)) :
    watched cfg.toStores c x.2 b y.2 ∧ (free = false → Roomy c x.2.world) := by
  unfold answerWatched at h
  split_ifs at h with hallowed
  obtain ⟨⟨b, l, s⟩, ha, heq⟩ := Option.map_eq_some_iff.mp h
  cases heq
  have hexec : exec cfg.toStores c x.2.world b s := exec_of_answer ha
  cases c with
  | send w f =>
    cases ha
    cases f with
    | propose job =>
      refine ⟨⟨hexec, rfl, rfl, rfl⟩, fun hfree h0 => ?_⟩
      simp [allowed, hfree, h0] at hallowed
    | _ => exact ⟨⟨hexec, rfl, rfl, rfl⟩, fun _ => trivial⟩
  | updateJob id m =>
    cases ha
    refine ⟨⟨hexec, fun hnone => ?_, rfl, rfl⟩, fun _ => trivial⟩
    simp [allowed, Option.map_eq_none_iff.mp hnone] at hallowed
  | _ => exact ⟨⟨hexec, trivial, rfl, rfl⟩, fun _ => trivial⟩

def booked : Watched :=
  { marked 2 1 with
    world := { (marked 2 1).world with
      conns := (marked 2 1).world.conns.put
        { workerOf 2 with inFlight := insert "j" ∅, occupiedCost := 1 } }
    charges := [(0, "j", 1)] }

/-- A job with a cost is proposed to a worker that has room. -/
theorem proposal_iff_recorded_booked :
    Prog.Ends (roomy Config.defaults.toStores) (ProcessQueue .defaults)
      ⟨idle 2 1 [jobOf 1], [], []⟩ false booked ∧
    ((0, "j") ∈ booked.proposals ↔ "j" ∉ booked.world.queue.map Job.ID ∧
      "j" ∈ inFlightOf booked.world 0 ∧ (0, "j", (1 : ℤ)) ∈ booked.charges ∧
      statusOf booked.world "j" = some .proposing) := by
  have hends : Prog.Ends (roomy Config.defaults.toStores) (ProcessQueue .defaults)
      ⟨idle 2 1 [jobOf 1], [], []⟩ false booked :=
    ends_of_play (π := Prod.snd) (n := 100) (x := ({}, _)) (y := ({}, booked))
      (fun h => (watched_of_answer h).imp_right fun hroomy => hroomy rfl)
      (rfl : Prog.play (answerWatched false) _ _ _ = _)
  have hnodup : ((idle 2 1 [jobOf 1]).queue.map Job.ID).Nodup := List.nodup_singleton _
  exact ⟨hends, (proposal_iff_recorded .defaults rfl _ hnodup hends).2.1 (jobOf 1)
    (List.mem_singleton_self _) 0⟩

def putBack : Watched :=
  { marked 0 0 with world := { (marked 0 0).world with queue := [jobOf 0] } }

/-- A job without a cost is proposed to a full worker and marked; then the reservation fails and
the job goes back into the queue, proposed and not in flight. -/
theorem proposed_and_put_back :
    Prog.Ends (watched Config.defaults.toStores) (ProcessQueue .defaults)
      ⟨idle 0 0 [jobOf 0], [], []⟩ false putBack ∧
    (0, "j") ∈ putBack.proposals ∧ jobOf 0 ∈ putBack.world.queue ∧
    "j" ∉ inFlightOf putBack.world 0 ∧ statusOf putBack.world "j" = some .proposing ∧
    statusOf (idle 0 0 [jobOf 0]) "j" = some .pending := by
  have hends : Prog.Ends (watched Config.defaults.toStores) (ProcessQueue .defaults)
      ⟨idle 0 0 [jobOf 0], [], []⟩ false putBack :=
    ends_of_play (π := Prod.snd) (n := 100) (x := ({}, _)) (y := ({}, putBack))
      (fun h => (watched_of_answer h).1) (rfl : Prog.play (answerWatched true) _ _ _ = _)
  refine ⟨hends, List.mem_singleton_self _, List.mem_singleton_self _, ?_, ?_, ?_⟩
  · decide
  · decide
  · decide

end OneJob

end Workforce.Proposals
