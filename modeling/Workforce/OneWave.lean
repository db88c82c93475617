import Workforce.Playback
import Workforce.Consolidation

/-!
One wave of children: however the handlers of their results interleave, the parent is queued
for its consolidate phase once.

While the parent waits, no handler has passed the guard, and if all children are completed
some handler is still on its way to the guard: the one that stored the last completion has
not listed the siblings yet, or it has, and found all of them completed. The guard lets one
handler pass, and that one queues the parent.
-/

namespace Workforce.OneWave

open Tables Contract Progs Shared Calls Handlers Runs Consolidation

variable {cfg : Config} {s t : World} {pid : String} {q₀ : List Job} {gs : List Phase}
  {g g' : Phase} {i : ℕ}

/-! ### Lists of phases -/

lemma exists_mem_set {P : Phase → Prop} (hi : gs[i]? = some g) (hP : P g → P g')
    (h : ∃ x ∈ gs, P x) : ∃ x ∈ gs.set i g', P x := by
  obtain ⟨hlt, rfl⟩ := List.getElem?_eq_some_iff.mp hi
  obtain ⟨x, hx, hPx⟩ := h
  obtain ⟨j, hj, rfl⟩ := List.getElem_of_mem hx
  by_cases hji : j = i
  · subst hji
    exact ⟨g', List.mem_set hlt g', hP hPx⟩
  · refine ⟨gs[j], List.mem_iff_getElem.mpr ⟨j, by simpa using hj, ?_⟩, hPx⟩
    rw [List.getElem_set_ne (Ne.symm hji)]

def hasWon : Phase → Bool
  | .won _ => true
  | _ => false

/-- The handlers that have passed the guard and not queued the parent yet. -/
def winners (gs : List Phase) : ℕ := gs.countP hasWon

lemma winners_set (g' : Phase) (hi : gs[i]? = some g) :
    winners (gs.set i g') + (hasWon g).toNat = winners gs + (hasWon g').toNat := by
  obtain ⟨hlt, rfl⟩ := List.getElem?_eq_some_iff.mp hi
  have hpos : hasWon gs[i] = true → 0 < gs.countP hasWon := fun h =>
    List.countP_pos_iff.mpr ⟨gs[i], List.getElem_mem hlt, h⟩
  unfold winners
  rw [List.countP_set hlt]
  cases h : hasWon gs[i] <;> cases h' : hasWon g' <;> simp
  · have := hpos h
    omega
  · have := hpos h
    omega

/-! ### The invariant -/

def InWave (pid : String) (s : World) : Phase → Prop
  | .start id => ∃ c, s.jobs.get id = some c ∧ c.ParentJobID = pid
  | .read job => job.ParentJobID = pid ∧ ∃ c, s.jobs.get job.ID = some c ∧ c.ParentJobID = pid
  | .updated p => p = pid
  | .decided p => p = pid
  | .fetched parent => parent.ID = pid
  | .won parent => parent.ID = pid
  | .emitting => False
  | .idle => True

/-- The handler has stored its completion and may still schedule the parent. -/
def Active : Phase → Prop
  | .updated _ => True
  | .decided _ => True
  | .fetched _ => True
  | _ => False

/-- The parent has been queued for its consolidate phase, once, since the queue was `q₀`. -/
def Enqueued (pid : String) (q₀ : List Job) (s : World) : Prop :=
  ∃ p, p.ID = pid ∧ p.Status = .pending ∧ p.Phase = .consolidate ∧ s.queue = q₀ ++ [p]

/-- The parent still waits, or one handler has scheduled it. -/
inductive Progress (pid : String) (q₀ : List Job) (gs : List Phase) (s : World) (j : Job) : Prop
  | waits : j.Status = .awaitingChildren → winners gs = 0 → s.queue = q₀ →
      (AllCompleted pid s → ∃ g ∈ gs, Active g) → Progress pid q₀ gs s j
  | scheduled : j.Status = .pending → j.Phase = .consolidate →
      (winners gs = 1 ∧ s.queue = q₀ ∨ winners gs = 0 ∧ Enqueued pid q₀ s) →
      Progress pid q₀ gs s j

structure Wave (pid : String) (q₀ : List Job) (gs : List Phase) (s : World) : Prop where
  handlers : ∀ g ∈ gs, InWave pid s g
  parent : ∃ j, s.jobs.get pid = some j ∧ j.ParentJobID ≠ pid ∧ Progress pid q₀ gs s j

/-- Stored jobs stay stored and keep their parents. -/
def Kept (s t : World) : Prop :=
  ∀ id c, s.jobs.get id = some c → ∃ c', t.jobs.get id = some c' ∧ c'.ParentJobID = c.ParentJobID

lemma kept_of_eq (h : ∀ id, t.jobs.get id = s.jobs.get id) : Kept s t :=
  fun id c hc => ⟨c, by rw [h, hc], rfl⟩

lemma kept_modify {id : String} {m : JobMutation} {now : Time}
    (ht : t.jobs = s.jobs.modify id (m.apply now)) : Kept s t := by
  intro id' c hc
  rw [ht, get_modify _ _ _ (m.apply_ID now)]
  split_ifs with h
  · subst h
    exact ⟨m.apply now c, by rw [hc]; rfl, m.apply_ParentJobID now c⟩
  · exact ⟨c, hc, rfl⟩

lemma InWave.mono (hk : Kept s t) (h : InWave pid s g) : InWave pid t g := by
  cases g with
  | start id =>
    obtain ⟨c, hc, hp⟩ := h
    obtain ⟨c', hc', hp'⟩ := hk _ _ hc
    exact ⟨c', hc', hp'.trans hp⟩
  | read job =>
    obtain ⟨hj, c, hc, hp⟩ := h
    obtain ⟨c', hc', hp'⟩ := hk _ _ hc
    exact ⟨hj, c', hc', hp'.trans hp⟩
  | _ => exact h

lemma handlers_set (hk : Kept s t) (h : ∀ g ∈ gs, InWave pid s g) (hg' : InWave pid t g') :
    ∀ x ∈ gs.set i g', InWave pid t x := by
  intro x hx
  rcases List.mem_or_eq_of_mem_set hx with hx | rfl
  · exact (h x hx).mono hk
  · exact hg'

lemma allCompleted_congr (h : ∀ id, t.jobs.get id = s.jobs.get id) :
    AllCompleted pid t ↔ AllCompleted pid s := by
  simp only [AllCompleted, IsChild, h]

/-! ### Moves keep the invariant -/

/-- A move that leaves the jobs and the queue alone and takes no handler off its way to a guard
that would let it pass. -/
lemma Wave.still (h : Wave pid q₀ gs s) (hi : gs[i]? = some g)
    (hjobs : ∀ id, t.jobs.get id = s.jobs.get id) (hqueue : t.queue = s.queue)
    (hw : hasWon g = false) (hw' : hasWon g' = false) (hg' : InWave pid s g')
    (hact : ∀ j, s.jobs.get pid = some j → j.Status = .awaitingChildren → AllCompleted pid s →
      Active g → Active g') : Wave pid q₀ (gs.set i g') t := by
  obtain ⟨hh, j, hj, hself, hp⟩ := h
  have hwin : winners (gs.set i g') = winners gs := by
    have := winners_set g' hi
    simpa [hw, hw'] using this
  refine ⟨handlers_set (kept_of_eq hjobs) hh (hg'.mono (kept_of_eq hjobs)), j,
    by rw [hjobs, hj], hself, ?_⟩
  cases hp with
  | waits hst h0 hq hall =>
    refine .waits hst (hwin.trans h0) (hqueue.trans hq) fun hc => ?_
    rw [allCompleted_congr hjobs] at hc
    exact exists_mem_set hi (hact j hj hst hc) (hall hc)
  | scheduled hst hph hor =>
    refine .scheduled hst hph ?_
    simpa only [hwin, Enqueued, hqueue] using hor

lemma Wave.complete {job : Job} {now : Time} {result : JsonOrBytes} (hpid : pid ≠ "")
    (h : Wave pid q₀ gs s) (hi : gs[i]? = some (.read job))
    (ht : t = { s with
      jobs := s.jobs.modify job.ID ((JobMutation.completed result).apply now) }) :
    Wave pid q₀ (gs.set i (if job.ParentJobID = "" then .idle else .updated job.ParentJobID)) t := by
  obtain ⟨hh, j, hj, hself, hp⟩ := h
  obtain ⟨hjob, c, hc, hcp⟩ := hh _ (List.mem_of_getElem? hi)
  have hne : pid ≠ job.ID := by
    rintro rfl
    rw [hj] at hc
    cases hc
    exact hself hcp
  rw [if_neg (hjob ▸ hpid)]
  have hwin := winners_set (.updated job.ParentJobID) hi
  simp only [hasWon, Bool.toNat_false, Nat.add_zero] at hwin
  have hk : Kept s t := kept_modify (by rw [ht])
  refine ⟨handlers_set hk hh hjob, j, ?_, hself, ?_⟩
  · rw [ht, get_modify _ _ _ (JobMutation.apply_ID _ now), if_neg hne, hj]
  · obtain ⟨hlt, -⟩ := List.getElem?_eq_some_iff.mp hi
    have hq : t.queue = s.queue := by rw [ht]
    cases hp with
    | waits hst h0 hq₀ _ =>
      exact .waits hst (hwin.trans h0) (hq.trans hq₀) fun _ => ⟨_, List.mem_set hlt _, trivial⟩
    | scheduled hst hph hor =>
      refine .scheduled hst hph ?_
      simpa only [hwin, Enqueued, hq] using hor

lemma Wave.win {parent j : Job} {now : Time} (h : Wave pid q₀ gs s)
    (hi : gs[i]? = some (.fetched parent)) (hj : s.jobs.get parent.ID = some j)
    (hst : j.Status = .awaitingChildren)
    (ht : t = { s with jobs := s.jobs.modify parent.ID (JobMutation.consolidate.apply now) }) :
    Wave pid q₀ (gs.set i (.won parent)) t := by
  obtain ⟨hh, j', hj', hself, hp⟩ := h
  obtain rfl : parent.ID = pid := hh _ (List.mem_of_getElem? hi)
  rw [hj] at hj'
  cases hj'
  have hwin := winners_set (.won parent) hi
  simp only [hasWon, Bool.toNat_false, Bool.toNat_true, Nat.add_zero] at hwin
  have hk : Kept s t := kept_modify (by rw [ht])
  refine ⟨handlers_set hk hh rfl, JobMutation.consolidate.apply now j, ?_, ?_, ?_⟩
  · rw [ht, get_modify _ _ _ (JobMutation.apply_ID _ now), if_pos rfl, hj]
    rfl
  · rwa [JobMutation.apply_ParentJobID]
  · cases hp with
    | waits _ h0 hq _ =>
      refine .scheduled ?_ ?_ (.inl ⟨by omega, by rw [ht]; exact hq⟩)
      · simp [JobMutation.apply, hst]
      · simp [JobMutation.apply, hst]
    | scheduled hst' => rw [hst] at hst'; cases hst'

lemma Wave.push {parent : Job} (h : Wave pid q₀ gs s) (hi : gs[i]? = some (.won parent))
    (ht : t = { s with
      queue := s.queue ++ [{ parent with Status := .pending, Phase := .consolidate }] }) :
    Wave pid q₀ (gs.set i .idle) t := by
  obtain ⟨hh, j, hj, hself, hp⟩ := h
  have hid : parent.ID = pid := hh _ (List.mem_of_getElem? hi)
  have hwin := winners_set .idle hi
  simp only [hasWon, Bool.toNat_false, Bool.toNat_true, Nat.add_zero] at hwin
  refine ⟨handlers_set (kept_of_eq fun id => by rw [ht]) hh trivial, j, by rw [ht]; exact hj,
    hself, ?_⟩
  cases hp with
  | waits _ h0 => omega
  | scheduled hst hph hor =>
    refine .scheduled hst hph (.inr ?_)
    rcases hor with ⟨h1, hq⟩ | ⟨h0, -⟩
    · refine ⟨by omega, { parent with Status := .pending, Phase := .consolidate }, hid, rfl, rfl, ?_⟩
      rw [ht, hq]
    · omega

/-- **One move** keeps the wave. -/
theorem Wave.move (hpid : pid ≠ "") (h : Wave pid q₀ gs s) (hi : gs[i]? = some g)
    (hm : Moves cfg.toStores (fun _ _ => True) g s g' t) : Wave pid q₀ (gs.set i g') t := by
  have hg : InWave pid s g := h.handlers g (List.mem_of_getElem? hi)
  have hsame : ∀ id, s.jobs.get id = s.jobs.get id := fun _ => rfl
  cases hm with
  | read hj =>
    obtain ⟨c, hc, hp⟩ := id hg
    rw [hj] at hc
    cases hc
    exact h.still hi hsame rfl rfl rfl ⟨hp, _, hj, hp⟩ fun _ _ _ _ ha => ha.elim
  | ignore => exact h.still hi hsame rfl rfl rfl trivial fun _ _ _ _ ha => ha.elim
  | complete _ ht => exact h.complete hpid hi ht
  | gone hj =>
    obtain ⟨-, c, hc, -⟩ := id hg
    rw [hj] at hc
    cases hc
  | calm hjobs hqueue hor =>
    have hw : hasWon g = false := by rcases hor with ⟨_, rfl⟩ | rfl <;> rfl
    exact h.still hi (fun id => by rw [hjobs]) hqueue hw hw hg fun _ _ _ _ ha => ha
  | decide _ => exact h.still hi hsame rfl rfl rfl hg fun _ _ _ _ _ => trivial
  | wait hnot =>
    obtain rfl := id hg
    exact h.still hi hsame rfl rfl rfl trivial fun _ _ _ hall _ => hnot hall
  | fetch hj => exact h.still hi hsame rfl rfl rfl hg fun _ _ _ _ _ => trivial
  | lost hj =>
    obtain rfl := id hg
    obtain ⟨j, hj', -⟩ := h.parent
    rw [hj] at hj'
    cases hj'
  | win hj hst ht => exact h.win hi hj hst ht
  | lose hst hjobs hqueue =>
    obtain rfl := id hg
    exact h.still hi hjobs hqueue rfl rfl trivial fun j hj hw _ _ => hst j hj hw
  | push ht => exact h.push hi ht
  | emit => exact hg.elim

/-! ### Runs -/

/-- The parent waits for children, one of which has not completed yet. -/
structure Waiting (pid : String) (s : World) : Prop where
  named : pid ≠ ""
  waits : ∃ j, s.jobs.get pid = some j ∧ j.Status = .awaitingChildren ∧ j.ParentJobID ≠ pid
  isOpen : ∃ c, IsChild pid s c ∧ c.Status ≠ .completed

def ChildResult (pid : String) (s : World) (msg : ResultMessage) : Prop :=
  msg.ResultType = .success ∧ ∃ c, IsChild pid s c ∧ c.ID = msg.JobID

/-- Every handler is in a phase of the wave. -/
def Ongoing (cfg : Config) (pid : String) (q₀ : List Job) (p : Prog.Pool Call World) : Prop :=
  ∃ gs, List.Forall₂ (At cfg) gs p.threads ∧ Wave pid q₀ gs p.st

lemma ongoing_step {p p' : Prog.Pool Call World} (hpid : pid ≠ "")
    (h : Ongoing cfg pid q₀ p) (hs : Prog.Step (exec cfg.toStores) p i p') :
    Ongoing cfg pid q₀ p' := by
  obtain ⟨gs, hgs, hw⟩ := h
  obtain ⟨g, g', hi, hm, hgs'⟩ := moves_step (φ := fun _ _ => True) hgs hs fun _ _ _ _ => trivial
  exact ⟨_, hgs', hw.move hpid hi hm⟩

lemma ongoing_start {results : List (ConnID × ResultMessage)} (h : Waiting pid s)
    (hr : ∀ r ∈ results, ChildResult pid s r.2) :
    Ongoing cfg pid s.queue (handling cfg s results) := by
  refine ⟨results.map fun r => .start r.2.JobID, ?_, ?_, ?_⟩
  · rw [handling, List.forall₂_map_left_iff, List.forall₂_map_right_iff, List.forall₂_same]
    intro r hmem
    exact ⟨r.1, r.2, rfl, (hr r hmem).1, rfl⟩
  · intro g hg
    obtain ⟨r, hmem, rfl⟩ := List.mem_map.mp hg
    obtain ⟨-, c, ⟨hc, hp⟩, hid⟩ := hr r hmem
    exact ⟨c, by rw [← hid]; exact hc, hp⟩
  · obtain ⟨j, hj, hst, hself⟩ := h.waits
    obtain ⟨c, hc, hopen⟩ := h.isOpen
    refine ⟨j, hj, hself, .waits hst ?_ rfl fun hall => absurd (hall c hc) hopen⟩
    rw [winners, List.countP_eq_zero]
    intro g hg
    obtain ⟨r, -, rfl⟩ := List.mem_map.mp hg
    simp [hasWon]

/-- **One wave.** However the handlers of the children's results interleave, the parent is
queued for its consolidate phase at most once; and once all children are completed and all
handlers have ended, it has been queued exactly once, and waits to be dispatched. -/
theorem consolidated_once (cfg : Config) (hlanes : cfg.lanes = true) {pid : String} {s : World}
    {results : List (ConnID × ResultMessage)} (h : Waiting pid s)
    (hr : ∀ r ∈ results, ChildResult pid s r.2) {tr : List (Prog.Pool Call World × ℕ)}
    {t : Prog.Pool Call World}
    (hrun : Run (Prog.Step (exec cfg.toStores)) (handling cfg s results) tr t) :
    ∀ u ∈ states tr t, (u.st.queue = s.queue ∨ Enqueued pid s.queue u.st) ∧
      (AllCompleted pid u.st → u.Finished → Enqueued pid s.queue u.st ∧
        ∃ j, u.st.jobs.get pid = some j ∧ j.Status = .pending ∧ j.Phase = .consolidate) := by
  have hinv := hrun.invariant (G := fun _ _ => True)
    (fun _ _ _ ho _ hs => ongoing_step h.named ho hs) (fun _ _ => trivial) (ongoing_start h hr)
  intro u hu
  obtain ⟨gs, hgs, hh, j, hj, -, hp⟩ := hinv u hu
  constructor
  · cases hp with
    | waits _ _ hq _ => exact .inl hq
    | scheduled _ _ hor => exact hor.imp (fun h => h.2) fun h => h.2
  · intro hall hfin
    -- no handler is active or holds the parent any more
    have hidle : ∀ g ∈ gs, g = .idle := by
      intro g hg
      obtain ⟨q, hq, hat⟩ := exists_thread hgs hg
      rw [hfin q hq] at hat
      rcases ended hlanes hat with rfl | rfl
      · rfl
      · exact (hh _ hg).elim
    cases hp with
    | waits _ _ _ hact =>
      obtain ⟨g, hg, ha⟩ := hact hall
      rw [hidle g hg] at ha
      exact ha.elim
    | scheduled hst hph hor =>
      refine ⟨?_, j, hj, hst, hph⟩
      rcases hor with ⟨h1, -⟩ | ⟨-, he⟩
      · have h0 : winners gs = 0 := List.countP_eq_zero.mpr fun g hg => by simp [hidle g hg, hasWon]
        omega
      · exact he

def twoChildren : World :=
  { World.initial with
    jobs := (((Table.empty _).put { ID := "p", Status := .awaitingChildren }).put
      { ID := "a", ParentJobID := "p", Status := .running }).put
      { ID := "b", ParentJobID := "p", Status := .running }
    tasks := (Table.empty _).put { Name := "t" }
    issued := insert "p" (insert "a" (insert "b" ∅)) }

def success (id : String) : ConnID × ResultMessage :=
  (0, { JobID := id, RunID := "", ResultType := .success })

lemma twoChildren_waiting : Waiting "p" twoChildren where
  named := by decide
  waits := ⟨{ ID := "p", Status := .awaitingChildren }, by decide, rfl, by decide⟩
  isOpen := ⟨{ ID := "a", ParentJobID := "p", Status := .running }, ⟨by decide, rfl⟩, by decide⟩

lemma childResult_success : ∀ r ∈ [success "a", success "b"], ChildResult "p" twoChildren r.2 := by
  intro r hr
  rcases List.mem_pair.mp hr with rfl | rfl
  · exact ⟨rfl, { ID := "a", ParentJobID := "p", Status := .running }, ⟨by decide, rfl⟩, rfl⟩
  · exact ⟨rfl, { ID := "b", ParentJobID := "p", Status := .running }, ⟨by decide, rfl⟩, rfl⟩

/-- Both handlers store their result before either looks at the siblings, and both find them
completed. -/
theorem consolidated_once_twoChildren :
    ∃ tr t, Run (Prog.Step (exec Config.defaults.toStores))
      (handling .defaults twoChildren [success "a", success "b"]) tr t ∧ t.Finished ∧
      Enqueued "p" [] t.st := by
  obtain ⟨tr, t, hrun, hall, hend⟩ : ∃ tr t, Run (Prog.Step (exec Config.defaults.toStores))
      (handling .defaults twoChildren [success "a", success "b"]) tr t ∧
      AllCompleted "p" t.st ∧ t.Finished :=
    ⟨_, _, run_scheduled [0, 1, 0, 1, 0, 1, 0, 1, 0, 1, 0, 1, 0, 1, 0] {} rfl, by decide,
      List.forall_mem_cons.mpr ⟨rfl, List.forall_mem_singleton.mpr rfl⟩⟩
  exact ⟨tr, t, hrun, hend, ((consolidated_once .defaults rfl twoChildren_waiting
    childResult_success hrun _ Run.last_mem).2 hall hend).1⟩

/-- The children have completed, but the manager was stopped before it looked at the siblings. -/
def stopped : World :=
  { twoChildren with
    jobs := (twoChildren.jobs.modify "a" ((JobMutation.completed none).apply 1)).modify "b"
      ((JobMutation.completed none).apply 1) }

/-- **A wave that is over is not started again**: with all children completed before, a repeated
result finds its job ended, and nobody queues the parent. -/
theorem completed_before_never_queued :
    ∃ tr t, Run (Prog.Step (exec Config.defaults.toStores))
      (handling .defaults stopped [success "a"]) tr t ∧
      t.Finished ∧ AllCompleted "p" t.st ∧ Awaits "p" t.st ∧ t.st.queue = [] :=
  ⟨_, _, run_scheduled [0] {} rfl, List.forall_mem_singleton.mpr rfl, by decide,
    ⟨{ ID := "p", Status := .awaitingChildren }, by decide, rfl⟩, rfl⟩

end Workforce.OneWave
