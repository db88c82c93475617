import Workforce.Fresh
import Workforce.Registry

/-!
The children of a decomposing job.

`handleSubjobsEmitted` checks and saves the requested children one by one. What comes from outside
is given: the answers of the registry, and whether each `SaveJob` succeeds. A request is refused
when its task or its artifact is missing, or when its record cannot be saved; the first refused
request ends the loop, with the children before it already in the store.
-/

namespace Workforce.Emission

open Tables Contract Progs Shared Calls Handlers Registry Fresh Footprints

/-- The calls, against a registry, and a store whose `SaveJob` gives these answers in turn. -/
def scripted (st : Stores) (reg : Artifacts) (saves : ℕ → Option String) :
    {β : Type} → Call β → World × ℕ → β → World × ℕ → Prop
  | _, .saveJob job, x, err, y =>
    exec st (.saveJob job) x.1 err y.1 ∧ err = saves x.2 ∧ y.2 = x.2 + 1
  | _, c, x, b, y => exec st c x.1 b y.1 ∧ reg.Answers c b ∧ y.2 = x.2

variable (cfg : Config) (reg : Artifacts) (saves : ℕ → Option String)

/-- No build of the task in the version is known. -/
def Missing (taskDef : Task) (req : ChildJobRequest) : Prop :=
  cfg.hasRegistry = true ∧ (reg.ListPlatforms taskDef.Name req.Version).toOption.getD [] = []

def Refused (tasks : Tasks) (i : ℕ) (req : ChildJobRequest) : Prop :=
  match tasks.get req.Task with
  | none => True
  | some taskDef => Missing cfg reg taskDef req ∨ saves i ≠ none

instance (taskDef : Task) (req : ChildJobRequest) : Decidable (Missing cfg reg taskDef req) := by
  unfold Missing
  infer_instance

instance (tasks : Tasks) (i : ℕ) (req : ChildJobRequest) :
    Decidable (Refused cfg reg saves tasks i req) := by
  unfold Refused
  split <;> infer_instance

/-- The job is the child of the parent that was requested. -/
structure Requested (tasks : Tasks) (parent : Job) (req : ChildJobRequest) (c : Job) : Prop where
  ParentJobID : c.ParentJobID = parent.ID
  Status : c.Status = .pending
  Payload : c.Payload = req.Payload
  Priority : c.Priority = req.Priority
  task : ∃ taskDef, tasks.get req.Task = some taskDef ∧ c.TaskName = taskDef.Name ∧
    c.Cost = taskDef.Cost

/-- Between `s` and `t` the jobs have been stored under new IDs, and nothing else. -/
structure Stored (s : World) (new : List Job) (t : World) : Prop where
  jobs : t.jobs = s.jobs.putAll new
  tasks : t.tasks = s.tasks
  queue : t.queue = s.queue
  issued : s.issued ⊆ t.issued
  fresh : ∀ c ∈ new, c.ID ∉ s.issued ∧ c.ID ∈ t.issued
  nodup : (new.map Job.ID).Nodup

variable {cfg reg saves} {st : Stores} {s t u : World} {parent : Job} {start : Time}

lemma Stored.nil (s : World) : Stored s [] s :=
  ⟨rfl, rfl, rfl, subset_rfl, by simp, by simp⟩

variable {c : Job} {new : List Job}

lemma Stored.cons (h : Stored s [c] t) (h' : Stored t new u) :
    Stored s (c :: new) u where
  jobs := by rw [h'.jobs, h.jobs]; rfl
  tasks := h'.tasks.trans h.tasks
  queue := h'.queue.trans h.queue
  issued := h.issued.trans h'.issued
  fresh := by
    intro d hd
    rcases List.mem_cons.mp hd with rfl | hd
    · exact ⟨(h.fresh d List.mem_cons_self).1, h'.issued (h.fresh d List.mem_cons_self).2⟩
    · exact ⟨fun hs => (h'.fresh d hd).1 (h.issued hs), (h'.fresh d hd).2⟩
  nodup := by
    refine List.nodup_cons.mpr ⟨fun hmem => ?_, h'.nodup⟩
    obtain ⟨d, hd, hid⟩ := List.mem_map.mp hmem
    exact (h'.fresh d hd).1 (hid ▸ (h.fresh c List.mem_cons_self).2)

lemma Stored.get_new (h : Stored s new t) (hc : c ∈ new) : t.jobs.get c.ID = some c := by
  rw [h.jobs]
  exact get_putAll_of_mem h.nodup _ hc

variable {id reason : String}

lemma Stored.get_old (h : Stored s new t) (hid : id ∈ s.issued) :
    t.jobs.get id = s.jobs.get id := by
  rw [h.jobs]
  exact get_putAll_of_notMem _ _ fun c hc heq => (h.fresh c hc).1 (heq ▸ hid)

lemma Stored.get_cases (h : Stored s new t) {j : Job} (hj : t.jobs.get id = some j) :
    j ∈ new ∨ s.jobs.get id = some j := by
  by_cases hid : ∃ c ∈ new, c.ID = id
  · obtain ⟨c, hc, rfl⟩ := hid
    rw [h.get_new hc] at hj
    cases hj
    exact .inl hc
  · refine .inr ?_
    rw [h.jobs, get_putAll_of_notMem _ _ fun c hc heq => hid ⟨c, hc, heq⟩] at hj
    exact hj

/-! ### The loop -/

variable {x y : World × ℕ}

lemma ends_childVersion {taskDef : Task} {req : ChildJobRequest}
    {v : Except (String × Option String) String}
    (h : Prog.Ends (scripted st reg saves) (childVersion cfg taskDef req) x v y) :
    y = x ∧ (Missing cfg reg taskDef req ∧ (∃ e, v = .error e) ∨
      ¬Missing cfg reg taskDef req ∧ ∃ ver, v = .ok ver) := by
  unfold childVersion at h
  unfold Missing
  by_cases hreg : cfg.hasRegistry = true
  · simp only [hreg, if_true] at h
    obtain ⟨platforms, z, ⟨hz, hplatforms, hn⟩, h⟩ := ends_step.mp h
    obtain rfl : z = x := Prod.ext hz hn
    rw [← hplatforms]
    rcases platforms with err | _ | ⟨p, rest⟩
    all_goals
      obtain ⟨rfl, rfl⟩ := h
      simp [hreg, Except.toOption]
  · simp only [hreg] at h
    obtain ⟨rfl, rfl⟩ := h
    simp [hreg]

/-- How the loop, with requests `reqs` from number `i` on, gets from `s` to `t`: the children of
the requests before the first refused one are stored, and if there is one the parent has been
marked failed. -/
def Stops (cfg : Config) (reg : Artifacts) (saves : ℕ → Option String) (parent : Job) (i : ℕ)
    (reqs : List ChildJobRequest) (acc : List Job) (s : World)
    (r : Except (Option String) (List Job)) (t : World) : Prop :=
  ∃ new u, Stored s new u ∧
    List.Forall₂ (Requested s.tasks parent) (reqs.take new.length) new ∧
    (∀ k req, k < new.length → reqs[k]? = some req →
      ¬Refused cfg reg saves s.tasks (i + k) req) ∧
    (new.length = reqs.length ∧ r = .ok (acc ++ new) ∧ t = u ∨
      ∃ req reason b, reqs[new.length]? = some req ∧
        Refused cfg reg saves s.tasks (i + new.length) req ∧
        exec cfg.toStores (.updateJobFiring parent.ID reason) u b t ∧ ∃ e, r = .error e)

variable {i : ℕ} {req : ChildJobRequest} {rest : List ChildJobRequest} {acc : List Job}
  {r : Except (Option String) (List Job)}

variable {err : Option String}

/-- A refused request ends the loop with nothing stored for it. -/
lemma stops_refused (hx : Stored s [] x.1) (href : Refused cfg reg saves s.tasks i req)
    (h : Prog.Ends (scripted cfg.toStores reg saves) (failEmission parent reason err >>= fun err =>
      pure (Except.error err)) x r y) : Stops cfg reg saves parent i (req :: rest) acc s r y.1 := by
  obtain ⟨e, z, h1, rfl, rfl⟩ := ends_bind.mp h
  obtain ⟨b, z', ⟨hfire, -, -⟩, -, rfl⟩ := ends_step.mp h1
  exact ⟨[], x.1, hx, .nil, by simp, .inr ⟨req, reason, b, rfl, href, hfire, _, rfl⟩⟩

lemma Stops.cons (hstored : Stored s [c] u) (hreq : Requested s.tasks parent req c)
    (hok : ¬Refused cfg reg saves s.tasks i req)
    (h : Stops cfg reg saves parent (i + 1) rest (acc ++ [c]) u r t) :
    Stops cfg reg saves parent i (req :: rest) acc s r t := by
  obtain ⟨new, v, hnew, hall, hpassed, hend⟩ := h
  rw [hstored.tasks] at hall hpassed hend
  refine ⟨c :: new, v, hstored.cons hnew, .cons hreq hall, fun k q hk hq => ?_, ?_⟩
  · cases k with
    | zero =>
      cases hq
      exact hok
    | succ k =>
      have hk' := hpassed k q (Nat.lt_of_succ_lt_succ hk) hq
      rwa [Nat.add_assoc, Nat.add_comm 1] at hk'
  · rcases hend with ⟨hlen, hr, ht⟩ | ⟨q, reason, b, hq, href, hfire, he⟩
    · exact .inl ⟨congrArg (· + 1) hlen, by rw [hr, List.append_assoc]; rfl, ht⟩
    · rw [Nat.add_assoc, Nat.add_comm 1] at href
      exact .inr ⟨q, reason, b, hq, href, hfire, he⟩

variable {reqs : List ChildJobRequest}

lemma stops_createChildren
    (h : Prog.Ends (scripted cfg.toStores reg saves) (createChildren cfg parent start i reqs acc)
      (s, i) r y) : Stops cfg reg saves parent i reqs acc s r y.1 := by
  induction reqs generalizing s i acc with
  | nil =>
    obtain ⟨rfl, rfl⟩ := h
    exact ⟨[], s, .nil s, .nil, by simp, .inl ⟨rfl, by simp, rfl⟩⟩
  | cons req rest ih =>
    obtain ⟨task, x1, ⟨⟨htask, hx1⟩, -, hn1⟩, h1⟩ := ends_step.mp h
    obtain rfl : x1 = (s, i) := Prod.ext hx1 hn1
    cases task with
    | none => exact stops_refused (.nil s) (by unfold Refused; rw [← htask]; trivial) h1
    | some taskDef =>
      have href : Refused cfg reg saves s.tasks i req ↔
          Missing cfg reg taskDef req ∨ saves i ≠ none := by
        unfold Refused
        rw [← htask]
      obtain ⟨v, x2, hversion, h2⟩ := ends_bind.mp h1
      obtain ⟨rfl, ⟨hmissing, ⟨reason, err⟩, rfl⟩ | ⟨hfound, ver, rfl⟩⟩ := ends_childVersion hversion
      · exact stops_refused (.nil s) (href.mpr (.inl hmissing)) h2
      obtain ⟨id, ⟨u, n⟩, ⟨⟨-, hid, hu⟩, -, hn⟩, h3⟩ := ends_step.mp h2
      obtain rfl : n = i := hn
      obtain rfl : u = { s with issued := insert id s.issued } := hu
      obtain ⟨saved, ⟨v, n'⟩, ⟨hsave, hanswer, hn'⟩, h4⟩ := ends_step.mp h3
      obtain rfl : n' = n + 1 := hn'
      rcases hsave with ⟨rfl, hv⟩ | ⟨hsome, hv⟩
      · refine Stops.cons (c := _) (u := v) ?_ ?_ ?_ (ih h4)
        · replace hv : v = _ := hv
          rw [hv]
          refine ⟨rfl, rfl, rfl, Finset.subset_insert _ _, ?_, by simp⟩
          simp only [List.mem_singleton, forall_eq]
          exact ⟨hid, Finset.mem_insert_self _ _⟩
        · exact ⟨rfl, rfl, rfl, rfl, taskDef, htask.symm, rfl, rfl⟩
        · rw [href, not_or, not_not]
          exact ⟨hfound, hanswer.symm⟩
      · obtain ⟨err, rfl⟩ := Option.ne_none_iff_exists'.mp hsome
        refine stops_refused (x := (v, n + 1)) ?_ (href.mpr (.inr (hanswer ▸ hsome))) h4
        rw [hv]
        exact ⟨rfl, rfl, rfl, Finset.subset_insert _ _, by simp, by simp⟩

/-! ### Which calls are made

A condition on calls that holds for all calls of an emission but the one that marks the parent
failed holds for all of them exactly if it holds for that one, or no request is refused. -/

/-- The calls of an emission that refuses nothing. -/
def Regular : {β : Type} → Call β → Prop
  | _, .now => True
  | _, .ulidMake => True
  | _, .getTask _ => True
  | _, .listPlatforms _ _ => True
  | _, .saveJob _ => True
  | _, .updateJob _ _ => True
  | _, .pushItem _ => True
  | _, _ => False

section Calls

variable {A : ∀ {β : Type}, Call β → World × ℕ → Prop} {Q : Prop} {stored : Option Job}

lemma scripted_getTask (name : String) (x : World × ℕ) (b : Option Task) (y : World × ℕ) :
    scripted st reg saves (.getTask name) x b y ↔ b = x.1.tasks.get name ∧ y = x := by
  constructor
  · rintro ⟨⟨hb, hy⟩, -, hn⟩
    exact ⟨hb, Prod.ext hy hn⟩
  · rintro ⟨rfl, rfl⟩
    exact ⟨⟨rfl, rfl⟩, trivial, rfl⟩

lemma scripted_listPlatforms (name version : String) (x : World × ℕ)
    (b : Except String (List ArtifactPlatform)) (y : World × ℕ) :
    scripted st reg saves (.listPlatforms name version) x b y ↔
      b = reg.ListPlatforms name version ∧ y = x := by
  constructor
  · rintro ⟨hy, hb, hn⟩
    exact ⟨hb, Prod.ext hy hn⟩
  · rintro ⟨rfl, rfl⟩
    exact ⟨rfl, rfl, rfl⟩

lemma scripted_ulidMake (x : World × ℕ) (id : String) (y : World × ℕ) :
    scripted st reg saves .ulidMake x id y ↔
      id ≠ "" ∧ id ∉ x.1.issued ∧ y = ({ x.1 with issued := insert id x.1.issued }, x.2) := by
  constructor
  · rintro ⟨⟨hne, hnew, hy⟩, -, hn⟩
    exact ⟨hne, hnew, Prod.ext hy hn⟩
  · rintro ⟨hne, hnew, rfl⟩
    exact ⟨⟨hne, hnew, rfl⟩, trivial, rfl⟩

lemma scripted_saveJob (job : Job) (x : World × ℕ) (b : Option String) (y : World × ℕ) :
    scripted st reg saves (.saveJob job) x b y ↔
      b = saves x.2 ∧ y = (if saves x.2 = none then { x.1 with jobs := x.1.jobs.put job } else x.1,
        x.2 + 1) := by
  constructor
  · rintro ⟨⟨hb, hy⟩ | ⟨hb, hy⟩, hb', hn⟩
    · exact ⟨hb', Prod.ext (by rw [if_pos (hb' ▸ hb), hy]) hn⟩
    · exact ⟨hb', Prod.ext (by rw [if_neg (hb' ▸ hb), hy]) hn⟩
  · rintro ⟨rfl, rfl⟩
    by_cases hb : saves x.2 = none
    · exact ⟨.inl ⟨hb, by rw [if_pos hb]⟩, rfl, rfl⟩
    · exact ⟨.inr ⟨hb, by rw [if_neg hb]⟩, rfl, rfl⟩

variable {x : World × ℕ}

/-- There are always new identifiers, so what all of them agree on can be said without one. -/
lemma forall_fresh_iff {P : String → World × ℕ → Prop} {p : Prop}
    (h : ∀ id, id ≠ "" → id ∉ x.1.issued →
      (P id ({ x.1 with issued := insert id x.1.issued }, x.2) ↔ p)) :
    (∀ id y, scripted st reg saves .ulidMake x id y → P id y) ↔ p := by
  constructor
  · intro hall
    obtain ⟨id, hid⟩ := Infinite.exists_notMem_finset (insert "" x.1.issued)
    obtain ⟨hne, hnew⟩ := not_or.mp (mt Finset.mem_insert.mpr hid)
    exact (h id hne hnew).mp (hall id _ ((scripted_ulidMake x id _).mpr ⟨hne, hnew, rfl⟩))
  · intro hp id y hy
    obtain ⟨hne, hnew, rfl⟩ := (scripted_ulidMake x id y).mp hy
    exact (h id hne hnew).mpr hp

lemma wp_childVersion {taskDef : Task}
    (hA : ∀ {β : Type} (c : Call β) (x : World × ℕ), Regular c → A c x)
    {P : Except (String × Option String) String → World × ℕ → Prop} {p : Prop}
    (hmissing : Missing cfg reg taskDef req → ∀ e, P (.error e) x ↔ p)
    (hfound : ¬Missing cfg reg taskDef req → ∀ ver, P (.ok ver) x ↔ p) :
    Prog.wp (scripted st reg saves) A (childVersion cfg taskDef req) P x ↔ p := by
  unfold childVersion
  unfold Missing at hmissing hfound
  by_cases hreg : cfg.hasRegistry = true
  · rw [if_pos hreg]
    refine (wp_step_iff (scripted_listPlatforms _ _ x)).trans
      ((and_iff_right (hA _ _ (by trivial))).trans ?_)
    rcases hl : reg.ListPlatforms taskDef.Name req.Version with err | _ | ⟨q, rest⟩
    · exact hmissing ⟨hreg, by rw [hl]; rfl⟩ _
    · exact hmissing ⟨hreg, by rw [hl]; rfl⟩ _
    · exact hfound (fun h => by rw [hl] at h; cases h.2) _
  · rw [if_neg hreg]
    exact hfound (fun h => hreg h.1) _

lemma wp_failEmission {reason : String} {err : Option String} :
    Prog.wp (scripted st reg saves) A (failEmission parent reason err >>= fun err =>
      pure (Except.error err : Except (Option String) (List Job))) (fun _ _ => True) x ↔
      A (.updateJobFiring parent.ID reason) x :=
  and_iff_left fun _ _ _ => trivial

/-- Some request, numbered from `i` on, is refused. -/
def SomeRefused (cfg : Config) (reg : Artifacts) (saves : ℕ → Option String) (tasks : Tasks) (i : ℕ)
    (reqs : List ChildJobRequest) : Prop :=
  ∃ k req, reqs[k]? = some req ∧ Refused cfg reg saves tasks (i + k) req

lemma someRefused_cons {tasks : Tasks} : SomeRefused cfg reg saves tasks i (req :: rest) ↔
    Refused cfg reg saves tasks i req ∨ SomeRefused cfg reg saves tasks (i + 1) rest := by
  constructor
  · rintro ⟨_ | k, q, hq, href⟩
    · cases hq
      exact .inl href
    · exact .inr ⟨k, q, hq, by rwa [Nat.add_right_comm] ⟩
  · rintro (href | ⟨k, q, hq, href⟩)
    · exact ⟨0, req, rfl, href⟩
    · exact ⟨k + 1, q, hq, by rwa [Nat.add_right_comm] at href⟩

variable {reqs : List ChildJobRequest}
  (hA : ∀ {β : Type} (c : Call β) (x : World × ℕ), Regular c → A c x)
  (hQ : ∀ reason x, x.1.jobs.get parent.ID = stored →
    (A (.updateJobFiring parent.ID reason) x ↔ Q))
  (hissued : parent.ID ∈ s.issued) (hparent : s.jobs.get parent.ID = stored)

include hA hQ hissued hparent

lemma wp_createChildren_iff :
    Prog.wp (scripted cfg.toStores reg saves) A (createChildren cfg parent start i reqs acc)
      (fun _ _ => True) (s, i) ↔ (SomeRefused cfg reg saves s.tasks i reqs → Q) := by
  induction reqs generalizing s i acc with
  | nil =>
    refine iff_of_true trivial ?_
    rintro ⟨k, q, hq, -⟩
    simp at hq
  | cons req rest ih =>
    refine (wp_step_iff (scripted_getTask req.Task (s, i))).trans
      ((and_iff_right (hA _ _ (by trivial))).trans ?_)
    rw [someRefused_cons]
    rcases htask : s.tasks.get req.Task with _ | taskDef
    · have href : Refused cfg reg saves s.tasks i req := by
        unfold Refused
        rw [htask]
        trivial
      rw [wp_failEmission, hQ _ _ hparent]
      exact ⟨fun h _ => h, fun h => h (.inl href)⟩
    have href : Refused cfg reg saves s.tasks i req ↔
        Missing cfg reg taskDef req ∨ saves i ≠ none := by
      unfold Refused
      rw [htask]
    refine (wp_bind _ _ _ _).trans (wp_childVersion hA (fun hmissing e => ?_)
      fun hfound version => ?_)
    · rw [wp_failEmission, hQ _ _ hparent]
      exact ⟨fun h _ => h, fun h => h (.inl (href.mpr (.inl hmissing)))⟩
    -- whatever identifier the child gets, the rest of the loop is the same
    refine (and_iff_right (hA _ _ (by trivial))).trans (forall_fresh_iff fun id hne hnew => ?_)
    refine (wp_step_iff (scripted_saveJob _ _)).trans
      ((and_iff_right (hA _ _ (by trivial))).trans ?_)
    have hother : id ≠ parent.ID := fun h => hnew (h ▸ hissued)
    rcases hsaved : saves i with _ | err
    · have hok : ¬Refused cfg reg saves s.tasks i req := by
        rw [href, not_or, not_not]
        exact ⟨hfound, hsaved⟩
      rw [or_iff_right hok]
      refine ih (Finset.mem_insert_of_mem hissued) ?_
      exact (get_put _ _ _).trans (by rw [if_neg hother.symm, hparent])
    · have hrefused := href.mpr (.inr (by rw [hsaved]; exact Option.some_ne_none err))
      rw [wp_failEmission, hQ _ _ hparent]
      exact ⟨fun h _ => h, fun h => h (.inl hrefused)⟩

lemma wp_handleSubjobsEmitted_iff :
    Prog.wp (scripted cfg.toStores reg saves) A (handleSubjobsEmitted cfg parent reqs)
      (fun _ _ => True) (s, 0) ↔
      (¬parent.Status.IsTerminal → SomeRefused cfg reg saves s.tasks 0 reqs → Q) := by
  unfold handleSubjobsEmitted
  split
  next hterminal => exact iff_of_true trivial fun h => absurd hterminal h
  next hopen =>
  rw [forall_prop_of_true hopen]
  have hloop (start : Time) : Prog.wp (scripted cfg.toStores reg saves) A
      (createChildren cfg parent start 0 reqs []) (fun _ _ => True) (s, 0) ↔
        (SomeRefused cfg reg saves s.tasks 0 reqs → Q) :=
    wp_createChildren_iff hA hQ hissued hparent
  constructor
  · intro h
    have hstart := h.2 0 (s, 0) ⟨rfl, trivial, rfl⟩
    refine (hloop 0).mp (wp_mono ((wp_bind _ _ _ _).mp hstart) fun _ _ _ => trivial)
  · intro hrefused
    refine wp_step (hA _ _ trivial) fun start y hy => ?_
    obtain rfl : y = (s, 0) := Prod.ext hy.1 hy.2.2
    refine (wp_bind _ _ _ _).mpr (wp_mono ((hloop start).mpr hrefused) fun r x _ => ?_)
    -- after the loop only regular calls are made
    refine wp_true_of_uses (φ := Regular) (fun h => hA _ _ h) ?_
    cases r with
    | error err => trivial
    | ok children =>
      refine uses_step trivial fun updated => ?_
      split
      · trivial
      · exact uses_bind _ (uses_EnqueueJobs (fun _ => trivial) children) fun _ => trivial

end Calls

/-- Marking the parent failed, with this record of it stored, fires an event into the store whose
mutex is held. -/
def Rings (st : Stores) (stored : Option Job) : Prop :=
  st.same = true ∧ ∃ p, stored = some p ∧ ShouldDispatchEvent p eventJobFailed

/-- The marking of the parent returns unless its event has to enter the held mutex. -/
lemma answers_updateJobFiring {stored : Option Job} (hstored : x.1.jobs.get id = stored) :
    (∃ b y, scripted st reg saves (.updateJobFiring id reason) x b y) ↔ ¬Rings st stored := by
  constructor
  · rintro ⟨b, y, hy, -, -⟩ ⟨hsame, p, rfl, hfires⟩
    simp only [exec, hstored] at hy
    obtain ⟨-, now, hy⟩ := hy
    rw [if_pos hfires, hsame] at hy
    cases hy.1
  · intro hquiet
    suffices h : ∃ b t, exec st (.updateJobFiring id reason) x.1 b t by
      obtain ⟨b, t, ht⟩ := h
      exact ⟨b, (t, x.2), ht, trivial, rfl⟩
    simp only [exec]
    rw [hstored]
    rcases stored with _ | p
    · exact ⟨none, x.1, rfl, rfl⟩
    by_cases hfires : ShouldDispatchEvent p eventJobFailed
    · have hsame : st.same = false := by
        rw [← Bool.not_eq_true]
        exact fun h => hquiet ⟨h, p, rfl, hfires⟩
      obtain ⟨wid, hwid⟩ := Infinite.exists_notMem_finset (insert "" x.1.issued)
      obtain ⟨hne, hnew⟩ := not_or.mp (mt Finset.mem_insert.mpr hwid)
      exact ⟨some true, _, rfl, 0, by rw [if_pos hfires]; exact ⟨hsame, wid, hne, hnew, rfl⟩⟩
    · exact ⟨some true, _, rfl, 0, by rw [if_neg hfires]⟩

lemma answers_regular {β : Type} (c : Call β) (x : World × ℕ) (hc : Regular c) :
    ∃ b y, scripted st reg saves c x b y := by
  cases c with
  | now => exact ⟨0, x, rfl, trivial, rfl⟩
  | ulidMake =>
    obtain ⟨id, hid⟩ := Infinite.exists_notMem_finset (insert "" x.1.issued)
    obtain ⟨hne, hnew⟩ := not_or.mp (mt Finset.mem_insert.mpr hid)
    exact ⟨id, _, (scripted_ulidMake x id _).mpr ⟨hne, hnew, rfl⟩⟩
  | getTask name => exact ⟨_, x, (scripted_getTask name x _ _).mpr ⟨rfl, rfl⟩⟩
  | listPlatforms name version =>
    exact ⟨_, x, (scripted_listPlatforms name version x _ _).mpr ⟨rfl, rfl⟩⟩
  | saveJob job => exact ⟨_, _, (scripted_saveJob job x _ _).mpr ⟨rfl, rfl⟩⟩
  | updateJob id m => exact ⟨_, (_, x.2), ⟨0, rfl, rfl⟩, trivial, rfl⟩
  | pushItem job => exact ⟨(), (_, x.2), rfl, trivial, rfl⟩
  | _ => exact hc.elim

/-! ### All or nothing -/

def Marked (s : World) (id : String) (t : World) : Prop :=
  (s.jobs.get id).map Job.Status ≠ some .failed ∧ (t.jobs.get id).map Job.Status = some .failed

/-- The children are stored under new IDs and enqueued once each, and the parent waits. -/
def Emitted (s : World) (parent : Job) (reqs : List ChildJobRequest) (t : World) : Prop :=
  ∃ children, List.Forall₂ (Requested s.tasks parent) reqs children ∧
    (children.map Job.ID).Nodup ∧
    (∀ c ∈ children, s.jobs.get c.ID = none ∧ t.jobs.get c.ID = some c) ∧
    t.queue = s.queue ++ children ∧
    (t.jobs.get parent.ID).map Job.Status = some .awaitingChildren

/-- Either the parent is marked failed and no record created by the call is pending, or all
children are there. -/
def AllOrNothing (s : World) (parent : Job) (reqs : List ChildJobRequest) (t : World) : Prop :=
  (Marked s parent.ID t → ∀ id j, s.jobs.get id = none → t.jobs.get id = some j →
    j.Status ≠ .pending) ∧
  (¬Marked s parent.ID t → Emitted s parent reqs t)

lemma exec_of_scripted {β : Type} {c : Call β} {b : β} (h : scripted st reg saves c x b y) :
    exec st c x.1 b y.1 := by
  cases c <;> exact h.1

/-- With no request refused the call does all. -/
lemma emitted_of_stored {now : Time} {v : World} (hs : IDsIssued s)
    (hparent : s.jobs.get parent.ID = some parent) (hu : Stored s new u)
    (hreqs : List.Forall₂ (Requested s.tasks parent) reqs new)
    (hv : v = { u with jobs := u.jobs.modify parent.ID (JobMutation.awaitingChildren.apply now) })
    (ht : t = { v with queue := v.queue ++ new }) :
    ¬Marked s parent.ID t ∧ Emitted s parent reqs t := by
  have hissued : parent.ID ∈ s.issued := hs.1 _ (by rw [hparent]; exact Option.some_ne_none _)
  have hget (id : String) : t.jobs.get id = if id = parent.ID
      then some (JobMutation.awaitingChildren.apply now parent) else u.jobs.get id := by
    rw [ht, hv, get_modify _ _ _ (JobMutation.apply_ID _ now), hu.get_old hissued, hparent]
    rfl
  have hwaits : (t.jobs.get parent.ID).map Job.Status = some .awaitingChildren := by
    rw [hget, if_pos rfl]
    rfl
  refine ⟨fun h => ?_, new, hreqs, hu.nodup, fun c hc => ⟨?_, ?_⟩, ?_, hwaits⟩
  · rw [Marked, hwaits] at h
    cases h.2
  · exact not_not.mp (mt (hs.1 c.ID) (hu.fresh c hc).1)
  · rw [hget, if_neg fun h : c.ID = parent.ID => (hu.fresh c hc).1 (h ▸ hissued)]
    exact hu.get_new hc
  · rw [ht, hv, ← hu.queue]

lemma allOrNothing_iff_of_marked {now : Time} (hs : IDsIssued s)
    (hparent : s.jobs.get parent.ID = some parent) (hopen : ¬parent.Status.IsTerminal)
    (hu : Stored s new u) (hnew : ∀ c ∈ new, c.Status = .pending)
    (ht : t.jobs = u.jobs.modify parent.ID ((JobMutation.failedFor reason).apply now)) :
    AllOrNothing s parent reqs t ↔ new = [] := by
  have hissued : parent.ID ∈ s.issued := hs.1 _ (by rw [hparent]; exact Option.some_ne_none _)
  have hget (id : String) : t.jobs.get id = if id = parent.ID
      then some ((JobMutation.failedFor reason).apply now parent) else u.jobs.get id := by
    rw [ht, get_modify _ _ _ (JobMutation.apply_ID _ now), hu.get_old hissued, hparent]
    rfl
  have hmarked : Marked s parent.ID t := by
    refine ⟨fun h => hopen ?_, by rw [hget, if_pos rfl]; rfl⟩
    rw [hparent, Option.map_some, Option.some.injEq] at h
    rw [h]
    trivial
  constructor
  · intro h
    by_contra hne
    obtain ⟨c, rest, rfl⟩ := List.exists_cons_of_ne_nil hne
    have hc : c.ID ∉ s.issued := (hu.fresh c List.mem_cons_self).1
    refine h.1 hmarked c.ID c (not_not.mp (mt (hs.1 c.ID) hc)) ?_ (hnew c List.mem_cons_self)
    rw [hget, if_neg fun h : c.ID = parent.ID => hc (h ▸ hissued)]
    exact hu.get_new List.mem_cons_self
  · rintro rfl
    refine ⟨fun _ id j hnone hj => ?_, fun h => absurd hmarked h⟩
    have hid : id ≠ parent.ID := by
      rintro rfl
      rw [hparent] at hnone
      cases hnone
    rw [hget, if_neg hid] at hj
    rcases hu.get_cases hj with hmem | hold
    · cases hmem
    · rw [hnone] at hold
      cases hold

/-- The first request is refused: nothing has been stored yet. -/
def FirstRefused (cfg : Config) (reg : Artifacts) (saves : ℕ → Option String) (tasks : Tasks)
    (reqs : List ChildJobRequest) : Prop :=
  ∃ req, reqs[0]? = some req ∧ Refused cfg reg saves tasks 0 req

lemma allOrNothing_of_stops {r : Except (Option String) (List Job)} (hs : IDsIssued s)
    (hparent : s.jobs.get parent.ID = some parent) (hopen : ¬parent.Status.IsTerminal)
    (h : Stops cfg reg saves parent 0 reqs [] s r x.1)
    (hend : Prog.Ends (scripted cfg.toStores reg saves) (match r with
      | .error err => pure err
      | .ok children => do
        let updated ← UpdateJob parent.ID .awaitingChildren
        if updated = none then return none
        EnqueueJobs children
        return none) x err y) :
    AllOrNothing s parent reqs y.1 ↔
      (¬SomeRefused cfg reg saves s.tasks 0 reqs ∨ FirstRefused cfg reg saves s.tasks reqs) := by
  have hissued : parent.ID ∈ s.issued := hs.1 _ (by rw [hparent]; exact Option.some_ne_none _)
  obtain ⟨new, u, hu, hreqs, hpassed, ⟨hlen, rfl, hx⟩ | ⟨req, reason, b, hreq, href, hfire, e, rfl⟩⟩ :=
    h
  · -- all children are stored: the parent is found, and they are enqueued
    rw [hlen, List.take_length] at hreqs
    obtain ⟨updated, x1, ⟨⟨now, hupdated, hx1⟩, -, -⟩, h1⟩ := ends_step.mp hend
    rw [hx, hu.get_old hissued, hparent] at hupdated
    rw [hx] at hx1
    rw [if_neg (by rw [hupdated]; exact Option.some_ne_none _)] at h1
    obtain ⟨_, x2, h2, -, rfl⟩ := ends_bind.mp h1
    have hx2 := wp_sound (wp_EnqueueJobs new)
      (ends_map (π := Prod.fst) h2 exec_of_scripted)
    obtain ⟨hunmarked, hemitted⟩ := emitted_of_stored hs hparent hu hreqs hx1 hx2
    refine iff_of_true ⟨fun h => absurd h hunmarked, fun _ => hemitted⟩ (.inl ?_)
    rintro ⟨k, q, hq, hrefused⟩
    have hk : k < new.length := hlen ▸ (List.getElem?_eq_some_iff.mp hq).1
    exact hpassed k q hk hq hrefused
  · obtain ⟨rfl, rfl⟩ := hend
    have hpending : ∀ c ∈ new, c.Status = .pending :=
      ((List.forall₂_and_left new _).mp (hreqs.flip.imp fun c q hq => ⟨hq.Status, hq⟩)).1
    have hmarks : ∃ now, y.1.jobs =
        u.jobs.modify parent.ID ((JobMutation.failedFor reason).apply now) := by
      rcases exec_updateJobFiring hfire with ⟨hnone, -, -⟩ | ⟨now, issued, webhooks, -, -, -, ht⟩
      · rw [hu.get_old hissued, hparent] at hnone
        cases hnone
      · exact ⟨now, by rw [ht]⟩
    obtain ⟨now, hy⟩ := hmarks
    rw [allOrNothing_iff_of_marked hs hparent hopen hu hpending hy]
    constructor
    · rintro rfl
      exact .inr ⟨req, hreq, href⟩
    · rintro (hnone | ⟨q, hq, hfirst⟩)
      · exact absurd ⟨new.length, req, hreq, href⟩ hnone
      · by_contra hne
        exact hpassed 0 q (List.length_pos_iff.mpr hne) hq hfirst

/-- A loop that has come to its end has not fired into a held mutex. -/
lemma Stops.not_rings (hissued : parent.ID ∈ s.issued)
    (h : Stops cfg reg saves parent 0 reqs [] s r t)
    (href : SomeRefused cfg reg saves s.tasks 0 reqs) :
    ¬Rings cfg.toStores (s.jobs.get parent.ID) := by
  obtain ⟨new, u, hu, -, hpassed, ⟨hlen, -, -⟩ | ⟨-, reason, b, -, -, hfire, -⟩⟩ := h
  · obtain ⟨k, q, hq, hrefused⟩ := href
    have hk : k < new.length := hlen ▸ (List.getElem?_eq_some_iff.mp hq).1
    exact absurd hrefused (hpassed k q hk hq)
  · rw [← hu.get_old hissued]
    have hanswer : scripted cfg.toStores reg saves (.updateJobFiring parent.ID reason) (u, 0) b
      (t, 0) := ⟨hfire, trivial, rfl⟩
    exact (answers_updateJobFiring rfl).mp ⟨b, (t, 0), hanswer⟩

lemma not_rings_of_ends (hissued : parent.ID ∈ s.issued) (hopen : ¬parent.Status.IsTerminal)
    (href : SomeRefused cfg reg saves s.tasks 0 reqs)
    (h : Prog.Ends (scripted cfg.toStores reg saves) (handleSubjobsEmitted cfg parent reqs) (s, 0)
      err y) : ¬Rings cfg.toStores (s.jobs.get parent.ID) := by
  unfold handleSubjobsEmitted at h
  rw [if_neg hopen] at h
  obtain ⟨start, x, hx, h1⟩ := ends_step.mp h
  obtain rfl : x = (s, 0) := Prod.ext hx.1 hx.2.2
  obtain ⟨r, x2, h2, -⟩ := ends_bind.mp h1
  exact (stops_createChildren h2).not_rings hissued href

/-- **Emission is all or nothing exactly if no request is refused, or the very first one.** The
job must not have ended, and the call returns unless a refusal has to fire an event into the store
whose mutex it holds. -/
theorem emission_all_or_nothing_iff (cfg : Config) (reg : Artifacts) (saves : ℕ → Option String)
    (s : World) (parent : Job) (reqs : List ChildJobRequest) (hs : IDsIssued s)
    (hparent : s.jobs.get parent.ID = some parent) :
    ((∃ err y, Prog.Ends (scripted cfg.toStores reg saves) (handleSubjobsEmitted cfg parent reqs)
        (s, 0) err y) ↔
      (¬parent.Status.IsTerminal → SomeRefused cfg reg saves s.tasks 0 reqs →
        ¬Rings cfg.toStores (some parent))) ∧
    ∀ err y, Prog.Ends (scripted cfg.toStores reg saves) (handleSubjobsEmitted cfg parent reqs)
        (s, 0) err y →
      (AllOrNothing s parent reqs y.1 ↔ ¬parent.Status.IsTerminal ∧
        (¬SomeRefused cfg reg saves s.tasks 0 reqs ∨
          FirstRefused cfg reg saves s.tasks reqs)) := by
  have hissued : parent.ID ∈ s.issued := hs.1 _ (by rw [hparent]; exact Option.some_ne_none _)
  refine ⟨⟨?_, fun h => ?_⟩, fun err y h => ?_⟩
  · rintro ⟨err, y, h⟩ hopen href
    exact hparent ▸ not_rings_of_ends hissued hopen href h
  · exact exists_ends ((wp_handleSubjobsEmitted_iff answers_regular
      (fun _ _ => answers_updateJobFiring) hissued hparent).mpr h) fun h => h
  · unfold handleSubjobsEmitted at h
    split at h
    next hterminal =>
      obtain ⟨-, rfl⟩ := h
      refine iff_of_false (fun hall => ?_) fun h => h.1 hterminal
      obtain ⟨-, -, -, -, -, hwaits⟩ := hall.2 fun h => h.1 h.2
      rw [hparent, Option.map_some, Option.some.injEq] at hwaits
      rw [hwaits] at hterminal
      exact absurd hterminal (by decide)
    next hopen =>
      obtain ⟨start, x, hx, h1⟩ := ends_step.mp h
      obtain rfl : x = (s, 0) := Prod.ext hx.1 hx.2.2
      obtain ⟨r, x2, h2, h3⟩ := ends_bind.mp h1
      rw [and_iff_right hopen]
      exact allOrNothing_of_stops hs hparent hopen (stops_createChildren h2) h3

/-- A running job, and the one task that is registered. -/
def decomposing : Job := { ID := "p", TaskName := "t", Status := .running }

def decomposed : World :=
  { World.initial with
    jobs := (Table.empty _).put decomposing
    tasks := (Table.empty _).put { Name := "t" }
    issued := {"p"} }

/-- A registry with one release of everything. -/
def released : Artifacts where
  ListPlatforms _ _ := .ok [{ OS := "linux", Arch := "amd64", Version := "1" }]
  Resolve _ _ _ _ := .error ""

theorem two_children_emitted :
    ∃ err y, Prog.Ends (scripted Config.defaults.toStores released fun _ => none)
      (handleSubjobsEmitted .defaults decomposing [{ Task := "t" }, { Task := "t" }])
      (decomposed, 0) err y ∧
      AllOrNothing decomposed decomposing [{ Task := "t" }, { Task := "t" }] y.1 := by
  have h := emission_all_or_nothing_iff .defaults released (fun _ => none) decomposed decomposing
    [{ Task := "t" }, { Task := "t" }] (by decide) (by decide)
  have hnone : ¬SomeRefused .defaults released (fun _ => none) decomposed.tasks 0
      [{ Task := "t" }, { Task := "t" }] := by
    rw [someRefused_cons, someRefused_cons]
    rintro (href | href | ⟨k, q, hq, -⟩)
    · exact absurd href (by decide)
    · exact absurd href (by decide)
    · simp at hq
  obtain ⟨err, y, hy⟩ := h.1.mpr fun _ href => absurd href hnone
  exact ⟨err, y, hy, (h.2 err y hy).mpr ⟨by decide, .inl hnone⟩⟩

/-- The first of two children, and what is stored after the second was refused. -/
def firstChild : Job :=
  { ID := "c", ParentJobID := "p", TaskName := "t", ArtifactVersion := "1", Status := .pending,
    CreatedAt := 5, UpdatedAt := 5 }

def halfEmitted : World :=
  { decomposed with
    jobs := (decomposed.jobs.put firstChild).modify "p"
      ((JobMutation.failedFor "child job targets unknown task: u").apply 5)
    issued := insert "c" decomposed.issued }

/-- **A refused second request leaves the first child behind.** The parent is failed, and its child
is stored as pending without being on the queue. -/
theorem first_child_left_pending :
    (∃ err n, Prog.Ends (scripted Config.defaults.toStores released fun _ => none)
      (handleSubjobsEmitted .defaults decomposing [{ Task := "t" }, { Task := "u" }])
      (decomposed, 0) err (halfEmitted, n)) ∧
    Marked decomposed "p" halfEmitted ∧
    decomposed.jobs.get "c" = none ∧
    (halfEmitted.jobs.get "c").map Job.Status = some .pending ∧
    ¬AllOrNothing decomposed decomposing [{ Task := "t" }, { Task := "u" }] halfEmitted := by
  have hmarked : Marked decomposed "p" halfEmitted := by
    unfold Marked
    decide
  have hpending : halfEmitted.jobs.get "c" = some firstChild := by decide
  refine ⟨⟨joinErrors [some ("task " ++ "u".quote ++ " not found"), none], 1, ?_⟩, hmarked,
    by decide, by rw [hpending]; rfl, fun h => ?_⟩
  · refine ⟨5, (decomposed, 0), ⟨rfl, trivial, rfl⟩, ?_⟩
    refine ⟨some { Name := "t" }, (decomposed, 0), ⟨⟨by decide, rfl⟩, trivial, rfl⟩, ?_⟩
    refine ⟨_, (decomposed, 0), ⟨rfl, rfl, rfl⟩, ?_⟩
    refine ⟨"c", ({ decomposed with issued := insert "c" decomposed.issued }, 0),
      ⟨⟨by decide, by decide, rfl⟩, trivial, rfl⟩, ?_⟩
    refine ⟨none, (_, 1), ⟨.inl ⟨rfl, rfl⟩, rfl, rfl⟩, ?_⟩
    refine ⟨none, (_, 1), ⟨⟨by decide, rfl⟩, trivial, rfl⟩, ?_⟩
    refine ⟨some true, (halfEmitted, 1), ⟨⟨rfl, 5, ?_⟩, trivial, rfl⟩, rfl, rfl⟩
    rfl
  · exact h.1 hmarked "c" firstChild (by decide) hpending rfl

end Workforce.Emission
