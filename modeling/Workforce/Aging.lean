import Mathlib.Data.Prod.Lex
import Workforce.PriorityHeap
import Workforce.Backoff

/-!
The aging of jobs that have waited too long.

A pass lifts every starved job one above the highest priority in the queue, in 64-bit arithmetic,
and rebuilds the heap. Starved jobs then come first and among themselves by age, unless the highest
priority was the highest there is.
-/

namespace Workforce.Aging

open Contract Shared PriorityHeap Decimal Handlers

/-! ### The order of jobs -/

lemma isHigherPriority_iff (a b : Job) :
    isHigherPriority a b ↔
      toLex (-a.Priority, a.CreatedAt) < toLex (-b.Priority, b.CreatedAt) := by
  rw [Prod.Lex.toLex_lt_toLex]
  unfold isHigherPriority
  by_cases h : a.Priority = b.Priority
  · simp [h]
  · simp [h]

lemma isHigherPriority_of_eq {a b : Job} (h : a.Priority = b.Priority) :
    isHigherPriority a b ↔ a.CreatedAt < b.CreatedAt := by
  unfold isHigherPriority
  rw [if_neg (not_not.mpr h)]

lemma isHigherPriority_of_lt {a b : Job} (h : b.Priority < a.Priority) : isHigherPriority a b := by
  unfold isHigherPriority
  rw [if_pos h.ne']
  exact h

instance : IsStrictWeakOrder Job isHigherPriority := by
  have horder : IsStrictWeakOrder (ℤ ×ₗ ℤ) (· < ·) := isStrictWeakOrder_of_isOrderConnected
  have heq : isHigherPriority =
      Function.onFun (· < ·) fun j : Job => toLex (-j.Priority, j.CreatedAt) :=
    funext₂ fun a b => propext (isHigherPriority_iff a b)
  rw [heq]
  infer_instance

/-! ### A pass -/

def Values (pq : PriorityQueue Job) : List Job := pq.items.map fun id => (pq.item id).Value

def applyStarvationAging (timeout : Duration) (now : Time) (pq : PriorityQueue Job) :
    PriorityQueue Job :=
  if timeout ≤ 0 then pq
  else
    let maxP := maxPriority (Values pq)
    let boosted := change (fun _ => boost timeout now maxP) pq
    let dirty := ∃ job ∈ Values pq, Starved timeout now job ∧ job.Priority ≤ maxP
    if dirty then Reheapify isHigherPriority boosted else boosted

variable {timeout : Duration} {now : Time} {pq : PriorityQueue Job} {jobs : List Job} {a b j : Job}

lemma foldl_higher (jobs : List Job) (m : ℤ) :
    m ≤ jobs.foldl higher m ∧ (∀ j ∈ jobs, j.Priority ≤ jobs.foldl higher m) ∧
      (jobs.foldl higher m = m ∨ ∃ j ∈ jobs, j.Priority = jobs.foldl higher m) := by
  induction jobs generalizing m with
  | nil => simp
  | cons j jobs ih =>
    have hfirst : m ≤ higher m j ∧ j.Priority ≤ higher m j ∧
        (higher m j = m ∨ j.Priority = higher m j) := by
      unfold higher
      split_ifs <;> omega
    obtain ⟨hle, hall, hreached⟩ := ih (higher m j)
    rw [List.foldl_cons]
    refine ⟨by omega, List.forall_mem_cons.mpr ⟨by omega, hall⟩, ?_⟩
    rcases hreached with heq | ⟨k, hk, heq⟩
    · rw [heq]
      exact hfirst.2.2.imp_right fun h => ⟨j, List.mem_cons_self, h⟩
    · exact .inr ⟨k, List.mem_cons_of_mem j hk, heq⟩

lemma le_maxPriority (h : j ∈ jobs) : j.Priority ≤ maxPriority jobs := (foldl_higher jobs 0).2.1 j h

lemma maxPriority_nonneg : 0 ≤ maxPriority jobs := (foldl_higher jobs 0).1

lemma maxPriority_reached (h : maxPriority jobs ≠ 0) : ∃ j ∈ jobs, j.Priority = maxPriority jobs :=
  (foldl_higher jobs 0).2.2.resolve_left h

lemma boost_createdAt (maxP : ℤ) (job : Job) :
    (boost timeout now maxP job).CreatedAt = job.CreatedAt := by
  unfold boost
  split_ifs <;> rfl

lemma starved_boost {maxP : ℤ} :
    Starved timeout now (boost timeout now maxP j) ↔ Starved timeout now j := by
  unfold Starved
  rw [boost_createdAt]

lemma boost_of_starved (hj : j ∈ jobs) (h : Starved timeout now j) :
    boost timeout now (maxPriority jobs) j = withPriority (wrap64 (maxPriority jobs + 1)) j :=
  if_pos ⟨h, le_maxPriority hj⟩

lemma boost_of_not_starved {maxP : ℤ} (h : ¬Starved timeout now j) :
    boost timeout now maxP j = j := if_neg fun hboost => h hboost.1

lemma coe_values : ((Values pq : List Job) : Multiset Job) = (content pq).map Prod.snd := by
  unfold Values content
  rw [Multiset.map_map]
  rfl

lemma valid_aging (h : Valid isHigherPriority pq) (htimeout : 0 < timeout) :
    Valid isHigherPriority (applyStarvationAging timeout now pq) ∧
      content (applyStarvationAging timeout now pq) =
        ((content pq).map fun p => (p.1, boost timeout now (maxPriority (Values pq)) p.2)) ∧
      (applyStarvationAging timeout now pq).made = pq.made := by
  unfold applyStarvationAging
  rw [if_neg (not_le.mpr htimeout)]
  dsimp only
  split_ifs with hdirty
  · exact valid_reheapify_change h _
  · -- nobody is starved: nothing is written
    have hsame (v : Job) (hv : v ∈ Values pq) :
        boost timeout now (maxPriority (Values pq)) v = v :=
      if_neg fun hstarved => hdirty ⟨v, hv, hstarved⟩
    have hqueue : change (fun _ => boost timeout now (maxPriority (Values pq))) pq = pq := by
      have hitem : (change (fun _ => boost timeout now (maxPriority (Values pq))) pq).item =
          pq.item := by
        funext id
        unfold change
        dsimp only
        split_ifs with hid
        · rw [hsame _ (List.mem_map.mpr ⟨id, hid, rfl⟩)]
        · rfl
      exact congrArg (fun item => { pq with item := item }) hitem
    rw [hqueue]
    refine ⟨h, ?_, rfl⟩
    conv_lhs => rw [← Multiset.map_id (content pq)]
    refine Multiset.map_congr rfl fun p hp => ?_
    have hv : p.2 ∈ Values pq := by
      rw [← Multiset.mem_coe, coe_values]
      exact Multiset.mem_map_of_mem _ hp
    rw [hsame p.2 hv]
    rfl

/-! ### What is popped -/

lemma filter_append_filter {α : Type} {P : α → Prop} [DecidablePred P] {l : List α}
    (h : l.Pairwise fun a b => P b → P a) :
    l = l.filter (fun a => P a) ++ l.filter (fun a => ¬P a) := by
  induction l with
  | nil => rfl
  | cons a l ih =>
    obtain ⟨ha, hl⟩ := List.pairwise_cons.mp h
    by_cases hPa : P a
    · rw [List.filter_cons_of_pos (by simpa), List.filter_cons_of_neg (by simpa), List.cons_append,
        ← ih hl]
    · have hnone (b : α) (hb : b ∈ a :: l) : ¬P b := by
        rcases List.mem_cons.mp hb with rfl | hb
        · exact hPa
        · exact mt (ha b hb) hPa
      have hfirst : (a :: l).filter (fun a => P a) = [] :=
        List.filter_eq_nil_iff.mpr fun b hb => by simpa using hnone b hb
      have hrest : (a :: l).filter (fun a => ¬P a) = a :: l :=
        List.filter_eq_self.mpr fun b hb => by simpa using hnone b hb
      rw [hfirst, hrest, List.nil_append]

/-- The starved jobs come first, lifted to one priority and by age; then the others as they are,
in their order. -/
def StarvedFirst (timeout : Duration) (now : Time) (jobs : List Job) (out : List Job) : Prop :=
  ∃ p starved others, out = starved ++ others ∧
    (starved.Perm ((jobs.filter fun j => Starved timeout now j).map (withPriority p))) ∧
    starved.Pairwise (fun a b => a.CreatedAt ≤ b.CreatedAt) ∧
    others.Perm (jobs.filter fun j => ¬Starved timeout now j) ∧
    others.Pairwise fun a b => ¬isHigherPriority b a

lemma popAll_aging (h : Valid isHigherPriority pq) (htimeout : 0 < timeout) :
    (popAll isHigherPriority (applyStarvationAging timeout now pq)).Perm
      ((Values pq).map (boost timeout now (maxPriority (Values pq)))) ∧
    (popAll isHigherPriority (applyStarvationAging timeout now pq)).Pairwise
      fun a b => ¬isHigherPriority b a := by
  obtain ⟨hvalid, hcontent, -⟩ := @valid_aging timeout now pq h htimeout
  obtain ⟨hall, hsorted⟩ := drain_sorted _ hvalid rfl
  refine ⟨?_, hsorted⟩
  rw [← Multiset.coe_eq_coe, ← Multiset.map_coe, coe_values, Multiset.map_map]
  refine hall.trans ?_
  rw [hcontent, Multiset.map_map]
  rfl

lemma sub_antitone {t u : Time} (h : t ≤ u) : Sub now u ≤ Sub now t := by
  exact max_le_max_left _ (min_le_min_left _ (sub_le_sub_left h now))

lemma createdAt_lt (ha : Starved timeout now a) (hb : ¬Starved timeout now b) :
    a.CreatedAt < b.CreatedAt := by
  by_contra hle
  exact hb (lt_of_lt_of_le ha (sub_antitone (not_lt.mp hle)))

/-- The highest priority there is, in a queue with starved jobs and others above the lowest. -/
def Overflows (timeout : Duration) (now : Time) (jobs : List Job) : Prop :=
  (∃ j ∈ jobs, j.Priority = 2 ^ 63 - 1) ∧ (∃ j ∈ jobs, Starved timeout now j) ∧
    ∃ j ∈ jobs, ¬Starved timeout now j ∧ -2 ^ 63 < j.Priority

lemma maxPriority_lt (hints : ∀ j ∈ jobs, IsInt64 j.Priority) : maxPriority jobs < 2 ^ 63 := by
  by_cases hzero : maxPriority jobs = 0
  · omega
  · obtain ⟨j, hj, heq⟩ := maxPriority_reached hzero
    exact heq ▸ (hints j hj).2

/-- Without overflow, a boosted job comes before one that is not starved. -/
lemma boosted_first (hints : ∀ j ∈ jobs, IsInt64 j.Priority) (h : ¬Overflows timeout now jobs)
    (ha : a ∈ jobs) (hstarved : Starved timeout now a) (hb : b ∈ jobs)
    (hfresh : ¬Starved timeout now b) :
    isHigherPriority (withPriority (wrap64 (maxPriority jobs + 1)) a) b := by
  have hmax := maxPriority_lt hints
  have hnonneg := @maxPriority_nonneg jobs
  have hle := le_maxPriority hb
  by_cases hfull : maxPriority jobs = 2 ^ 63 - 1
  · -- the boosted priority is the lowest there is, and so is that of all others
    have hwrap : wrap64 (maxPriority jobs + 1) = -2 ^ 63 := by
      rw [hfull]
      rfl
    obtain ⟨j, hj, heq⟩ : ∃ j ∈ jobs, j.Priority = maxPriority jobs :=
      maxPriority_reached (by omega)
    have hlowest : b.Priority = -2 ^ 63 := by
      by_contra hne
      have := (hints b hb).1
      exact h ⟨⟨j, hj, heq.trans hfull⟩, ⟨a, ha, hstarved⟩, b, hb, hfresh, by omega⟩
    exact (isHigherPriority_of_eq (hwrap.trans hlowest.symm)).mpr (createdAt_lt hstarved hfresh)
  · refine isHigherPriority_of_lt ?_
    show b.Priority < wrap64 (maxPriority jobs + 1)
    rw [wrap64_eq ⟨by omega, by omega⟩]
    omega

lemma map_boost_filter : ((jobs.map (boost timeout now (maxPriority jobs))).filter
      fun j => Starved timeout now j) =
      (jobs.filter fun j => Starved timeout now j).map
        (withPriority (wrap64 (maxPriority jobs + 1))) ∧
    ((jobs.map (boost timeout now (maxPriority jobs))).filter fun j => ¬Starved timeout now j) =
      jobs.filter fun j => ¬Starved timeout now j := by
  constructor
  · rw [List.filter_map]
    simp only [Function.comp_def, starved_boost]
    refine List.map_congr_left fun j hj => ?_
    obtain ⟨hj, hstarved⟩ := List.mem_filter.mp hj
    exact boost_of_starved hj (of_decide_eq_true hstarved)
  · rw [List.filter_map]
    simp only [Function.comp_def, starved_boost]
    refine (List.map_congr_left fun j hj => ?_).trans (List.map_id _)
    exact boost_of_not_starved (of_decide_eq_true (List.mem_filter.mp hj).2)

/-- **One pass.** -/
lemma starvedFirst_iff (h : Valid isHigherPriority pq) (htimeout : 0 < timeout)
    (hints : ∀ j ∈ Values pq, IsInt64 j.Priority) :
    StarvedFirst timeout now (Values pq)
        (popAll isHigherPriority (applyStarvationAging timeout now pq)) ↔
      ¬Overflows timeout now (Values pq) := by
  obtain ⟨hperm, hsorted⟩ := @popAll_aging timeout now pq h htimeout
  generalize popAll isHigherPriority (applyStarvationAging timeout now pq) = out at hperm hsorted
  obtain ⟨hmapS, hmapO⟩ := @map_boost_filter timeout now (Values pq)
  have hmem (v : Job) (hv : v ∈ out) :
      ∃ j ∈ Values pq, boost timeout now (maxPriority (Values pq)) j = v :=
    List.mem_map.mp (hperm.mem_iff.mp hv)
  constructor
  · rintro ⟨p, starved, others, rfl, hstarved, -, hothers, -⟩
      ⟨⟨top, htop, hmax⟩, ⟨a, ha, hSa⟩, x, hx, hSx, hlow⟩
    have hfirst : withPriority p a ∈ starved := hstarved.mem_iff.mpr
      (List.mem_map_of_mem (List.mem_filter.mpr ⟨ha, decide_eq_true hSa⟩))
    have hlater : x ∈ others := hothers.mem_iff.mpr
      (List.mem_filter.mpr ⟨hx, decide_eq_true hSx⟩)
    have hp : p = -2 ^ 63 := by
      obtain ⟨j, hj, heq⟩ := hmem _ (List.mem_append_left _ hfirst)
      have hSj : Starved timeout now (boost timeout now (maxPriority (Values pq)) j) :=
        heq ▸ hSa
      rw [starved_boost] at hSj
      have hfull : maxPriority (Values pq) = 2 ^ 63 - 1 := by
        have hle := le_maxPriority htop
        have hlt := maxPriority_lt hints
        omega
      rw [boost_of_starved hj hSj, hfull] at heq
      exact (congrArg Job.Priority heq).symm
    exact (List.pairwise_append.mp hsorted).2.2 _ hfirst x hlater
      (isHigherPriority_of_lt (hp.trans_lt hlow))
  · intro hno
    have hsplit : out.Pairwise fun a b => Starved timeout now b → Starved timeout now a := by
      refine hsorted.imp_of_mem fun ha hb hab hSb => ?_
      by_contra hSa
      obtain ⟨a, haq, rfl⟩ := hmem _ ha
      obtain ⟨b, hbq, rfl⟩ := hmem _ hb
      rw [starved_boost] at hSa hSb
      have hfirst := boosted_first hints hno hbq hSb haq hSa
      rw [← boost_of_starved hbq hSb] at hfirst
      rw [boost_of_not_starved hSa] at hab
      exact hab hfirst
    have hstarved := hperm.filter fun j => Starved timeout now j
    rw [hmapS] at hstarved
    have hothers := hperm.filter fun j => ¬Starved timeout now j
    rw [hmapO] at hothers
    refine ⟨wrap64 (maxPriority (Values pq) + 1), _, _, filter_append_filter hsplit, hstarved, ?_,
      hothers, hsorted.sublist List.filter_sublist⟩
    refine (hsorted.sublist List.filter_sublist).imp_of_mem fun ha hb hab => ?_
    -- all have the one priority
    obtain ⟨a, -, rfl⟩ := List.mem_map.mp (hstarved.mem_iff.mp ha)
    obtain ⟨b, -, rfl⟩ := List.mem_map.mp (hstarved.mem_iff.mp hb)
    have hsame : (withPriority (wrap64 (maxPriority (Values pq) + 1)) b).Priority =
      (withPriority (wrap64 (maxPriority (Values pq) + 1)) a).Priority := rfl
    exact not_lt.mp fun hlt => hab ((isHigherPriority_of_eq hsame).mpr hlt)

/-! ### Later passes -/

inductive Use
  | push (job : Job)
  | pop
  | age (now : Time)

def use (timeout : Duration) (pq : PriorityQueue Job) : Use → PriorityQueue Job
  | .push job => (PushItem isHigherPriority pq job).2
  | .pop => (PopItem isHigherPriority pq).2
  | .age now => applyStarvationAging timeout now pq

variable {s u : PriorityQueue Job}

/-- The jobs that were starved in `s`, as far as they are still queued, are on one level. -/
structure Level (timeout : Duration) (now : Time) (s u : PriorityQueue Job) : Prop where
  valid : Valid isHigherPriority u
  known : ∀ id ∈ s.items, id < u.made
  level : ∃ p, ∀ id v w, (id, v) ∈ content s → Starved timeout now v → (id, w) ∈ content u →
    w.CreatedAt = v.CreatedAt ∧ w.Priority = p

lemma starved_mono {later : Time} (h : now ≤ later) (hj : Starved timeout now j) :
    Starved timeout later j := by
  refine lt_of_lt_of_le hj ?_
  exact max_le_max_left _ (min_le_min_left _ (sub_le_sub_right h _))

lemma mem_content_aging (h : Valid isHigherPriority u) (htimeout : 0 < timeout) {id : Handle}
    {w : Job} (hw : (id, w) ∈ content (applyStarvationAging timeout now u)) :
    ∃ w₀, (id, w₀) ∈ content u ∧ w₀ ∈ Values u ∧
      w = boost timeout now (maxPriority (Values u)) w₀ := by
  rw [(valid_aging h htimeout).2.1] at hw
  obtain ⟨⟨id', w₀⟩, hmem, heq⟩ := Multiset.mem_map.mp hw
  obtain ⟨rfl, rfl⟩ := Prod.mk.inj heq
  refine ⟨w₀, hmem, ?_, rfl⟩
  rw [← Multiset.mem_coe, coe_values]
  exact Multiset.mem_map_of_mem Prod.snd hmem

lemma level_aging (h : Valid isHigherPriority pq) (htimeout : 0 < timeout) :
    Level timeout now (applyStarvationAging timeout now pq)
      (applyStarvationAging timeout now pq) := by
  obtain ⟨hvalid, -, -⟩ := @valid_aging timeout now pq h htimeout
  refine ⟨hvalid, hvalid.known, wrap64 (maxPriority (Values pq) + 1), fun id v w hv hS hw => ?_⟩
  obtain rfl : w = v := by rw [(mem_content.mp hw).2, (mem_content.mp hv).2]
  obtain ⟨w₀, -, hw₀, rfl⟩ := mem_content_aging h htimeout hw
  rw [starved_boost] at hS
  rw [boost_of_starved hw₀ hS]
  exact ⟨rfl, rfl⟩

lemma Level.use (h : Level timeout now s u) (htimeout : 0 < timeout) (e : Use)
    (he : ∀ later, e = .age later → now ≤ later) : Level timeout now s (use timeout u e) := by
  obtain ⟨p, hlevel⟩ := h.level
  cases e with
  | push job =>
    obtain ⟨hvalid, hcontent, hmade⟩ := valid_pushItem h.valid job
    refine ⟨hvalid, fun id hid => ?_, p, fun id v w hv hS hw => ?_⟩
    · exact (h.known id hid).trans_le (by rw [Aging.use, hmade]; exact Nat.le_succ _)
    · -- the item that is pushed is a new one
      rw [Aging.use, hcontent, Multiset.mem_cons, Prod.mk.injEq] at hw
      rcases hw with ⟨rfl, -⟩ | hw
      · exact absurd (h.known _ (mem_content.mp hv).1) (lt_irrefl _)
      · exact hlevel id v w hv hS hw
  | pop =>
    by_cases hempty : u.items = []
    · have hpop : Aging.use timeout u .pop = u := by
        unfold Aging.use PopItem
        rw [if_pos hempty]
      rw [hpop]
      exact h
    · obtain ⟨id, v, -, hvalid, hcontent, -, hmade⟩ := valid_popItem h.valid hempty
      refine ⟨hvalid, fun id hid => hmade.symm ▸ h.known id hid, p, fun id v w hv hS hw => ?_⟩
      refine hlevel id v w hv hS ?_
      rw [hcontent]
      exact Multiset.mem_cons_of_mem hw
  | age later =>
    obtain ⟨hvalid, -, hmade⟩ := @valid_aging timeout later u h.valid htimeout
    refine ⟨hvalid, fun id hid => hmade.symm ▸ h.known id hid,
      wrap64 (maxPriority (Values u) + 1), fun id v w hv hS hw => ?_⟩
    obtain ⟨w₀, hmem, hw₀, rfl⟩ := mem_content_aging h.valid htimeout hw
    obtain ⟨hcreated, -⟩ := hlevel id v w₀ hv hS hmem
    have hstarved : Starved timeout later w₀ := by
      have hv' := starved_mono (he later rfl) hS
      unfold Starved at hv' ⊢
      rwa [hcreated]
    rw [boost_of_starved hw₀ hstarved]
    exact ⟨hcreated, rfl⟩

lemma Level.useAll (h : Level timeout now s u) (htimeout : 0 < timeout) (uses : List Use)
    (hlater : ∀ later, .age later ∈ uses → now ≤ later) :
    Level timeout now s (uses.foldl (Aging.use timeout) u) := by
  induction uses generalizing u with
  | nil => exact h
  | cons e uses ih =>
    refine ih (h.use htimeout e fun later heq => hlater later (heq ▸ List.mem_cons_self)) ?_
    exact fun later hmem => hlater later (List.mem_cons_of_mem e hmem)

instance : Inhabited Job := ⟨{ ID := "" }⟩

def queueOf (jobs : List Job) : PriorityQueue Job :=
  jobs.foldl (fun pq job => (PushItem isHigherPriority pq job).2) NewPriorityQueue

lemma queueOf_spec (jobs : List Job) :
    Valid isHigherPriority (queueOf jobs) ∧ (Values (queueOf jobs)).Perm jobs := by
  induction jobs using List.reverseRecOn with
  | nil => exact ⟨valid_new, .nil⟩
  | append_singleton jobs job ih =>
    obtain ⟨hvalid, hcontent, -⟩ := valid_pushItem ih.1 job
    have hpush : queueOf (jobs ++ [job]) =
        (PushItem isHigherPriority (queueOf jobs) job).2 := by
      unfold queueOf
      rw [List.foldl_append]
      rfl
    rw [hpush]
    refine ⟨hvalid, Multiset.coe_eq_coe.mp ?_⟩
    rw [coe_values, hcontent, Multiset.map_cons, ← coe_values, Multiset.coe_eq_coe.mpr ih.2,
      Multiset.cons_coe, Multiset.coe_eq_coe]
    exact (List.perm_append_singleton job jobs).symm

/-- A job that has waited for ten hours, and a new one with a given priority. -/
def waiting : Job := { ID := "w", CreatedAt := 0 }

def newcomer (priority : ℤ) : Job := { ID := "n", Priority := priority, CreatedAt := 36000000000000 }

end Workforce.Aging
