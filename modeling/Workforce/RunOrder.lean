import Workforce.Retries
import Workforce.WeakOrders

/-!
The order in which the runs of a job are listed.

Runs that have started are compared by the time they did, all others by their attempt. This is no
strict weak order if a run that never started has the attempt number of two that did: nothing then
keeps those two in order. Attempt numbers only grow with error results, so a worker that loses its
connection twice is enough.
-/

namespace Workforce.RunOrder

open Tables Contract Shared Calls Handlers Runs Operations Retries WeakOrders

/-! ### The listing -/

def Started (r : JobRun) : Prop := r.StartedAt ≠ 0

instance : DecidablePred Started := fun r => by unfold Started; infer_instance

/-- The comparison of `ListJobRuns`. -/
def less (a b : JobRun) : Bool :=
  if a.StartedAt = 0 ∨ b.StartedAt = 0 then a.Attempt < b.Attempt else a.StartedAt < b.StartedAt

def runsOf (jobID : String) (runs : List JobRun) : List JobRun :=
  runs.filter fun r => r.JobID = jobID

/-- The runs of a job; `runs` is the enumeration of the map, `slice` the sort. -/
def ListJobRuns (slice : Slice JobRun) (runs : List JobRun) (jobID : String) : List JobRun :=
  slice.sort less (runsOf jobID runs)

/-- The logs of the runs of a job, one after the other. -/
def GetJobLogReader (slice : Slice JobRun) (runs : List JobRun) (logs : String → Bytes)
    (jobID : String) : Bytes :=
  (ListJobRuns slice runs jobID).flatMap fun r => logs r.ID

/-- Runs that have started are in the order they did. -/
def InOrder (l : List JobRun) : Prop :=
  (l.filter Started).Pairwise fun a b => a.StartedAt ≤ b.StartedAt

/-- Around a run that never started, those of no larger attempt started no later than those of no
smaller one, and earlier if the attempts differ. -/
def Separated (l : List JobRun) : Prop :=
  ∀ u ∈ l, ¬Started u → ∀ a ∈ l, ∀ b ∈ l, Started a → Started b →
    a.Attempt ≤ u.Attempt → u.Attempt ≤ b.Attempt →
      a.StartedAt ≤ b.StartedAt ∧ (a.Attempt < b.Attempt → a.StartedAt < b.StartedAt)

variable {a b c u : JobRun} {l : List JobRun}

lemma less_started (ha : Started a) (hb : Started b) : less a b ↔ a.StartedAt < b.StartedAt := by
  rw [less, if_neg (not_or.mpr ⟨ha, hb⟩), decide_eq_true_iff]

lemma less_unstarted (h : ¬Started a ∨ ¬Started b) : less a b ↔ a.Attempt < b.Attempt := by
  have h' : a.StartedAt = 0 ∨ b.StartedAt = 0 := h.imp not_not.mp not_not.mp
  rw [less, if_pos h', decide_eq_true_iff]

lemma not_less_started (ha : Started a) (hb : Started b) :
    ¬less a b ↔ b.StartedAt ≤ a.StartedAt := by
  rw [less_started ha hb, not_lt]

lemma not_less_unstarted (h : ¬Started a ∨ ¬Started b) : ¬less a b ↔ b.Attempt ≤ a.Attempt := by
  rw [less_unstarted h, not_lt]

lemma less_asymm (h : less a b) : ¬less b a := by
  by_cases hst : Started a ∧ Started b
  · rw [less_started hst.1 hst.2] at h
    exact (not_less_started hst.2 hst.1).mpr h.le
  · rw [less_unstarted (not_and_or.mp hst)] at h
    exact (not_less_unstarted (not_and_or.mp hst).symm).mpr h.le

lemma separated_of_strictWeakOn (h : StrictWeakOn less l) : Separated l := by
  intro u hu hus a ha b hb has hbs hau hub
  have hua : ¬less u a := (not_less_unstarted (.inl hus)).mpr hau
  have hbu : ¬less b u := (not_less_unstarted (.inr hus)).mpr hub
  have hle := (not_less_started hbs has).mp (h.not_less_trans hb hu ha hbu hua)
  refine ⟨hle, fun hlt => lt_of_not_ge fun hge => ?_⟩
  -- else neither is less, and `u` is not less or not more than either
  have hab : ¬less a b := (not_less_started has hbs).mpr hge
  have hau' := (not_less_unstarted (.inr hus)).mp (h.not_less_trans ha hb hu hab hbu)
  have hub' := (not_less_unstarted (.inl hus)).mp (h.not_less_trans hu ha hb hua hab)
  exact absurd (hub'.trans hau') (not_le.mpr hlt)

lemma Separated.not_less_trans (h : Separated l) (ha : a ∈ l) (hb : b ∈ l) (hc : c ∈ l)
    (hab : ¬less a b) (hbc : ¬less b c) : ¬less a c := by
  -- by which of the three have started; unless two have, attempts decide throughout
  by_cases has : Started a <;> by_cases hbs : Started b <;> by_cases hcs : Started c
  · rw [not_less_started has hbs] at hab
    rw [not_less_started hbs hcs] at hbc
    exact (not_less_started has hcs).mpr (hbc.trans hab)
  · rw [not_less_started has hbs] at hab
    rw [not_less_unstarted (.inr hcs)] at hbc ⊢
    by_contra hac
    have hac := not_le.mp hac
    exact absurd ((h c hc hcs a ha b hb has hbs hac.le hbc).2 (hac.trans_le hbc)) (not_lt.mpr hab)
  · rw [not_less_unstarted (.inr hbs)] at hab
    rw [not_less_unstarted (.inl hbs)] at hbc
    exact (not_less_started has hcs).mpr (h b hb hbs c hc a ha hcs has hbc hab).1
  · rw [not_less_unstarted (.inr hbs)] at hab
    rw [not_less_unstarted (.inr hcs)] at hbc ⊢
    exact hbc.trans hab
  · rw [not_less_started hbs hcs] at hbc
    rw [not_less_unstarted (.inl has)] at hab ⊢
    by_contra hac
    have hac := not_le.mp hac
    exact absurd ((h a ha has b hb c hc hbs hcs hab hac.le).2 (hab.trans_lt hac)) (not_lt.mpr hbc)
  · rw [not_less_unstarted (.inl has)] at hab ⊢
    rw [not_less_unstarted (.inr hcs)] at hbc
    exact hbc.trans hab
  all_goals
    rw [not_less_unstarted (.inl has)] at hab ⊢
    rw [not_less_unstarted (.inl hbs)] at hbc
    exact hbc.trans hab

lemma strictWeakOn_iff : StrictWeakOn less l ↔ Separated l :=
  ⟨separated_of_strictWeakOn, fun h => strictWeakOn_of_not_less_trans (fun _ _ _ _ => less_asymm)
    fun _ ha _ hb _ hc => h.not_less_trans ha hb hc⟩

/-! ### The order of the listing -/

lemma inOrder_of_sorted (h : l.Pairwise fun a b => ¬less b a) : InOrder l := by
  refine (h.filter _).imp_of_mem fun ha hb hab => ?_
  have has := of_decide_eq_true (List.mem_filter.mp ha).2
  have hbs := of_decide_eq_true (List.mem_filter.mp hb).2
  exact (not_less_started hbs has).mp hab

/-- The log of the job is made of those of its runs, in the order in which they started. -/
def Composed (jobID : String) (runs : List JobRun) (logs : String → Bytes) (text : Bytes) : Prop :=
  ∃ l, l.Perm (runsOf jobID runs) ∧ InOrder l ∧ text = l.flatMap fun r => logs r.ID

/-- **The order of the runs.** The comparison is a strict weak order on the runs of a job, and its
runs that have started are then listed and their logs composed in the order they did, whatever the
enumeration and the sort, exactly if runs that never started separate the others. -/
theorem runs_ordered_iff (runs : Table JobRun.ID) (jobID : String) :
    (StrictWeakOn less (runsOf jobID runs.values) ∧
      ∀ (slice : Slice JobRun) (enumeration : List JobRun) (logs : String → Bytes),
        enumeration.Perm runs.values → InOrder (ListJobRuns slice enumeration jobID) ∧
          Composed jobID runs.values logs (GetJobLogReader slice enumeration logs jobID)) ↔
      Separated (runsOf jobID runs.values) := by
  refine ⟨fun h => strictWeakOn_iff.mp h.1, fun h => ?_⟩
  have hweak := strictWeakOn_iff.mpr h
  refine ⟨hweak, fun slice enumeration logs henum => ?_⟩
  have hruns : (runsOf jobID enumeration).Perm (runsOf jobID runs.values) := henum.filter _
  have horder : InOrder (ListJobRuns slice enumeration jobID) :=
    inOrder_of_sorted (slice.sorted _ _ (hweak.subset hruns.subset))
  exact ⟨horder, _, (slice.perm _ _).trans hruns, horder, rfl⟩

/-! ### A worker that loses its connection twice -/

def reconnect (n : ℕ) : List Op :=
  [.unregister n, connects (n + 1), .processQueue, .accept (n + 1) "w" "j"]

/-- **Runs out of order.** The worker starts the job and loses its connection; it accepts the job
again and loses the connection before it starts it; it starts it on a third connection. All three
runs have the first attempt, so the second is neither before nor after the others, and if the map is
enumerated from the last run to the first they are listed like that. -/
theorem started_runs_swapped :
    ∃ tr s, Run (step (tries 1)) World.initial tr s ∧
      ¬StrictWeakOn less (runsOf "j" s.runs.values) ∧
      (ListJobRuns (insertion JobRun) s.runs.values "j").map (fun r => (r.ID, r.StartedAt)) =
        [("r3", 3), ("r2", 0), ("r1", 1)] ∧
      ∀ logs, GetJobLogReader (insertion JobRun) s.runs.values logs "j" =
        logs "r3" ++ (logs "r2" ++ logs "r1") := by
  obtain ⟨tr, s, hrun, horder, hlisted, hids⟩ : ∃ tr s, Run (step (tries 1)) World.initial tr s ∧
      ¬InOrder (ListJobRuns (insertion JobRun) s.runs.values "j") ∧
      (ListJobRuns (insertion JobRun) s.runs.values "j").map (fun r => (r.ID, r.StartedAt)) =
        [("r3", 3), ("r2", 0), ("r1", 1)] ∧
      (ListJobRuns (insertion JobRun) s.runs.values "j").map JobRun.ID = ["r3", "r2", "r1"] :=
    ⟨_, _, run_played (proposes ++ .accept 0 "w" "j" :: .starting "w" "j" "r1" :: reconnect 0 ++
      reconnect 1 ++ [.starting "w" "j" "r3"])
      { times := [0, 0, 0, 0, 1, 0, 0, 0, 0, 0, 0, 0, 0, 0, 3], ids := ["j", "r1", "r2", "r3"] } rfl,
      by unfold InOrder; decide +kernel, by decide +kernel, by decide +kernel⟩
  refine ⟨tr, s, hrun, fun h => ?_, hlisted, fun logs => ?_⟩
  · exact horder (inOrder_of_sorted ((insertion JobRun).sorted _ _ h))
  · rw [GetJobLogReader, ← List.flatMap_map, hids]
    simp

end Workforce.RunOrder
