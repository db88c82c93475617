import Mathlib.Logic.Equiv.Basic
import Mathlib.Order.Defs.Unbundled
import Mathlib.Tactic

/-!
Binary heaps that are kept by swaps.

The algorithms work on anything that has a length, a value at every position, and can exchange two
positions. They only compare and swap, so whatever a swap keeps they keep; and for a strict weak
order they establish the order of a heap: no value is less than the one at its parent.
-/

namespace Workforce.Heap

universe u v

structure Interface (σ : Type u) (α : Type v) where
  Len : σ → ℕ
  value : σ → ℕ → α
  Swap : σ → ℕ → ℕ → σ
  len_swap : ∀ s i j, Len (Swap s i j) = Len s
  value_swap : ∀ s i j k, i < Len s → j < Len s →
    value (Swap s i j) k = value s (Equiv.swap i j k)

section Algorithms

variable {σ : Type u} {α : Type v} (h : Interface σ α) (lt : α → α → Prop) [DecidableRel lt]

def parent (i : ℕ) : ℕ := (i - 1) / 2

def Less (s : σ) (i j : ℕ) : Prop := lt (h.value s i) (h.value s j)

instance (s : σ) (i j : ℕ) : Decidable (Less h lt s i j) :=
  inferInstanceAs (Decidable (lt _ _))

def up (j : ℕ) (s : σ) : σ :=
  if parent j = j ∨ ¬Less h lt s j (parent j) then s
  else up (parent j) (h.Swap s (parent j) j)
termination_by j
decreasing_by
  unfold parent at *
  omega

/-- The child that comes first, of the one or two that there are. -/
def first (n : ℕ) (s : σ) (i : ℕ) : ℕ :=
  if 2 * i + 2 < n ∧ Less h lt s (2 * i + 2) (2 * i + 1) then 2 * i + 2 else 2 * i + 1

lemma lt_first (n : ℕ) (s : σ) (i : ℕ) : i < first h lt n s i := by
  unfold first
  split_ifs <;> omega

/-- Sift down among the first `n` positions; the position reached is returned too. -/
def down (i n : ℕ) (s : σ) : σ × ℕ :=
  if n ≤ 2 * i + 1 ∨ ¬Less h lt s (first h lt n s i) i then (s, i)
  else down (first h lt n s i) n (h.Swap s i (first h lt n s i))
termination_by n - i
decreasing_by
  have := lt_first h lt n s i
  omega

def initFrom (n : ℕ) : ℕ → σ → σ
  | 0, s => s
  | i + 1, s => initFrom n i (down h lt i n s).1

def Init (s : σ) : σ := initFrom h lt (h.Len s) (h.Len s / 2) s

def Fix (i : ℕ) (s : σ) : σ :=
  let moved := down h lt i (h.Len s) s
  if i < moved.2 then moved.1 else up h lt i moved.1

/-- Bring the first value to the last position and sift down the one that was there. -/
def exchange (s : σ) : σ :=
  (down h lt 0 (h.Len s - 1) (h.Swap s 0 (h.Len s - 1))).1

end Algorithms

/-! ### Only swaps are made -/

section Swaps

variable {σ : Type u} {α : Type v} {h : Interface σ α} {lt : α → α → Prop} [DecidableRel lt]
  {n : ℕ} {s t u : σ}

/-- One state comes from the other by swaps among the first `n` positions. -/
inductive Swaps (h : Interface σ α) (n : ℕ) : σ → σ → Prop
  | refl (s : σ) : Swaps h n s s
  | swap {s t : σ} {i j : ℕ} : i < n → j < n → Swaps h n (h.Swap s i j) t → Swaps h n s t

lemma Swaps.trans (hst : Swaps h n s t) (htu : Swaps h n t u) : Swaps h n s u := by
  induction hst with
  | refl _ => exact htu
  | swap hi hj _ ih => exact .swap hi hj (ih htu)

lemma Swaps.mono {m : ℕ} (hmn : m ≤ n) (hst : Swaps h m s t) : Swaps h n s t := by
  induction hst with
  | refl _ => exact .refl _
  | swap hi hj _ ih => exact .swap (hi.trans_le hmn) (hj.trans_le hmn) ih

lemma Swaps.invariant {I : σ → Prop} (hI : ∀ s i j, i < n → j < n → I s → I (h.Swap s i j))
    (hst : Swaps h n s t) (hs : I s) : I t := by
  induction hst with
  | refl _ => exact hs
  | swap hi hj _ ih => exact ih (hI _ _ _ hi hj hs)

lemma Swaps.len_eq (hst : Swaps h n s t) : h.Len t = h.Len s :=
  hst.invariant (I := fun u => h.Len u = h.Len s) (fun _ _ _ _ _ hu => (h.len_swap _ _ _).trans hu)
    rfl

lemma Swaps.value_of_le (hst : Swaps h n s t) (hn : n ≤ h.Len s) {k : ℕ} (hk : n ≤ k) :
    h.value t k = h.value s k := by
  refine (hst.invariant (I := fun u => h.Len u = h.Len s ∧ h.value u k = h.value s k)
    (fun u i j hi hj hu => ⟨(h.len_swap _ _ _).trans hu.1, ?_⟩) ⟨rfl, rfl⟩).2
  rw [h.value_swap u i j k (by omega) (by omega),
    Equiv.swap_apply_of_ne_of_ne (by omega) (by omega), hu.2]

lemma parent_lt {k : ℕ} (hk : 0 < k) : parent k < k := by
  unfold parent
  omega

lemma swaps_up (j : ℕ) (s : σ) (hj : j < n) : Swaps h n s (up h lt j s) := by
  fun_induction up h lt j s with
  | case1 => exact .refl _
  | case2 j s hmove ih =>
    have hp : parent j < n := by
      unfold parent
      omega
    exact .swap hp hj (ih hp)

lemma first_lt {i : ℕ} (hn : ¬n ≤ 2 * i + 1) : first h lt n s i < n := by
  unfold first
  split_ifs with hsecond
  · exact hsecond.1
  · omega

lemma swaps_down (i n : ℕ) (s : σ) : Swaps h n s (down h lt i n s).1 := by
  fun_induction down h lt i n s with
  | case1 => exact .refl _
  | case2 i s hmove ih =>
    have hlt : first h lt n s i < n := first_lt (not_or.mp hmove).1
    exact .swap ((lt_first h lt n s i).trans hlt) hlt ih

lemma swaps_initFrom (i n : ℕ) (s : σ) : Swaps h n s (initFrom h lt n i s) := by
  induction i generalizing s with
  | zero => exact .refl s
  | succ i ih => exact (swaps_down i n s).trans (ih _)

lemma swaps_fix {i : ℕ} (hi : i < h.Len s) : Swaps h (h.Len s) s (Fix h lt i s) := by
  unfold Fix
  dsimp only
  split_ifs
  · exact swaps_down _ _ _
  · exact (swaps_down _ _ _).trans (swaps_up _ _ hi)

lemma swaps_exchange (hs : 0 < h.Len s) : Swaps h (h.Len s) s (exchange h lt s) :=
  .swap hs (by omega) ((swaps_down _ _ _).mono (by omega))

end Swaps

/-! ### The order of a heap -/

section Order

variable {α : Type v} {lt : α → α → Prop} {f : ℕ → α} {m n i j : ℕ}

/-- Among the first `n` values none is less than its parent, for the parents from `m` on. -/
def OrderedFrom (lt : α → α → Prop) (f : ℕ → α) (m n : ℕ) : Prop :=
  ∀ k, 0 < k → k < n → m ≤ parent k → ¬lt (f k) (f (parent k))

/-- Among the first `n` values none is less than its parent. -/
abbrev Ordered (lt : α → α → Prop) (f : ℕ → α) (n : ℕ) : Prop := OrderedFrom lt f 0 n

/-- All is in order but that the value at `j` may be less than its parent. -/
structure UpReady (lt : α → α → Prop) (f : ℕ → α) (n j : ℕ) : Prop where
  off : ∀ k, 0 < k → k < n → k ≠ j → ¬lt (f k) (f (parent k))
  grand : ∀ k, 0 < k → k < n → parent k = j → 0 < j → ¬lt (f k) (f (parent j))

/-- All is in order, for the parents from `m` on, but that children may be less than the value at
`i`. -/
structure DownReady (lt : α → α → Prop) (f : ℕ → α) (m n i : ℕ) : Prop where
  off : ∀ k, 0 < k → k < n → m ≤ parent k → parent k ≠ i → ¬lt (f k) (f (parent k))
  grand : ∀ k, 0 < k → k < n → parent k = i → 0 < i → m ≤ parent i → ¬lt (f k) (f (parent i))

lemma UpReady.finish (h : UpReady lt f n j)
    (hstop : parent j = j ∨ ¬lt (f j) (f (parent j))) : Ordered lt f n := by
  intro k hpos hk _
  by_cases hkj : k = j
  · subst hkj
    have := parent_lt hpos
    exact hstop.resolve_left (by omega)
  · exact h.off k hpos hk hkj

lemma DownReady.finish (h : DownReady lt f m n i)
    (hstop : ∀ k, 0 < k → k < n → parent k = i → ¬lt (f k) (f i)) : OrderedFrom lt f m n := by
  intro k hpos hk hm
  by_cases hki : parent k = i
  · rw [hki]
    exact hstop k hpos hk hki
  · exact h.off k hpos hk hm hki

variable [IsStrictWeakOrder α lt]

lemma not_lt_trans {a b c : α} (hab : ¬lt a b) (hbc : ¬lt b c) : ¬lt a c := by
  intro hac
  by_cases hba : lt b a
  · exact hbc (trans_of lt hba hac)
  by_cases hcb : lt c b
  · exact hab (trans_of lt hac hcb)
  exact (IsStrictWeakOrder.incomp_trans a b c ⟨hab, hba⟩ ⟨hbc, hcb⟩).1 hac

lemma not_lt_of_lt {a b : α} (hab : lt a b) : ¬lt b a := fun hba =>
  irrefl_of lt a (trans_of lt hab hba)

lemma Ordered.first (h : Ordered lt f n) (k : ℕ) (hk : k < n) : ¬lt (f k) (f 0) := by
  induction k using Nat.strong_induction_on with
  | _ k ih =>
    rcases Nat.eq_zero_or_pos k with rfl | hpos
    · exact irrefl_of lt _
    · have hparent := parent_lt hpos
      exact not_lt_trans (h k hpos hk (Nat.zero_le _)) (ih _ hparent (by omega))

lemma Ordered.upReady (h : Ordered lt f n) (hj : j < n) : UpReady lt f n j where
  off k hpos hk _ := h k hpos hk (Nat.zero_le _)
  grand k hpos hk hp hj0 := not_lt_trans (hp ▸ h k hpos hk (Nat.zero_le _))
    (h j hj0 hj (Nat.zero_le _))

lemma UpReady.move (h : UpReady lt f n j) (hj0 : 0 < j) (hj : j < n)
    (hless : lt (f j) (f (parent j))) :
    UpReady lt (fun k => f (Equiv.swap (parent j) j k)) n (parent j) := by
  have hp := parent_lt hj0
  have hleft : Equiv.swap (parent j) j (parent j) = j := Equiv.swap_apply_left _ _
  have hright : Equiv.swap (parent j) j j = parent j := Equiv.swap_apply_right _ _
  have hother (k : ℕ) (h1 : k ≠ parent j) (h2 : k ≠ j) : Equiv.swap (parent j) j k = k :=
    Equiv.swap_apply_of_ne_of_ne h1 h2
  constructor
  · intro k hpos hk hkp
    by_cases hkj : k = j
    · subst hkj
      rw [hright, hleft]
      exact not_lt_of_lt hless
    rw [hother k hkp hkj]
    by_cases hpp : parent k = parent j
    · -- a sibling: it is not less than the old parent, and the new one is
      rw [hpp, hleft]
      intro hlt
      exact h.off k hpos hk hkj (hpp ▸ trans_of lt hlt hless)
    by_cases hpj : parent k = j
    · rw [hpj, hright]
      exact h.grand k hpos hk hpj hj0
    · rw [hother _ hpp hpj]
      exact h.off k hpos hk hkj
  · intro k hpos hk hkp hp0
    have hpp := parent_lt hp0
    rw [hother (parent (parent j)) (by omega) (by omega)]
    have hup : ¬lt (f (parent j)) (f (parent (parent j))) :=
      h.off _ hp0 (by omega) (by omega)
    by_cases hkj : k = j
    · rw [hkj, hright]
      exact hup
    · have hk' := parent_lt hpos
      rw [hother k (by omega) hkj]
      exact not_lt_trans (hkp ▸ h.off k hpos hk hkj) hup

lemma DownReady.move (h : DownReady lt f m n i) (hmi : m ≤ i) (hj0 : 0 < j) (hj : j < n)
    (hji : parent j = i) (hless : lt (f j) (f i))
    (hfirst : ∀ k, 0 < k → k < n → parent k = i → ¬lt (f k) (f j)) :
    DownReady lt (fun k => f (Equiv.swap i j k)) m n j := by
  have hij : i < j := hji ▸ parent_lt hj0
  have hleft : Equiv.swap i j i = j := Equiv.swap_apply_left _ _
  have hright : Equiv.swap i j j = i := Equiv.swap_apply_right _ _
  have hother (k : ℕ) (h1 : k ≠ i) (h2 : k ≠ j) : Equiv.swap i j k = k :=
    Equiv.swap_apply_of_ne_of_ne h1 h2
  constructor
  · intro k hpos hk hm hkj
    have hk' := parent_lt hpos
    by_cases hki : parent k = i
    · rw [hki, hleft]
      by_cases hkj' : k = j
      · rw [hkj', hright]
        exact not_lt_of_lt hless
      · rw [hother k (by omega) hkj']
        exact hfirst k hpos hk hki
    rw [hother (parent k) hki hkj]
    by_cases hk0 : k = i
    · subst hk0
      rw [hleft]
      exact h.grand j hj0 hj hji hpos hm
    · rw [hother k hk0 (fun hkj' => hki (hkj' ▸ hji))]
      exact h.off k hpos hk hm hki
  · intro k hpos hk hkj _ _
    have hk' := parent_lt hpos
    rw [hji, hleft, hother k (by omega) (by omega)]
    exact hkj ▸ h.off k hpos hk (by omega) (by omega)

end Order

/-! ### The algorithms establish the order -/

section Established

variable {σ : Type u} {α : Type v} {h : Interface σ α} {lt : α → α → Prop} [DecidableRel lt]
  [IsStrictWeakOrder α lt] {m n i j : ℕ} {s : σ}

omit [DecidableRel lt] [IsStrictWeakOrder α lt] in
lemma value_swap_eq (hi : i < h.Len s) (hj : j < h.Len s) :
    h.value (h.Swap s i j) = fun k => h.value s (Equiv.swap i j k) :=
  funext fun k => h.value_swap s i j k hi hj

lemma ordered_up (s : σ) (hj : j < n) (hn : n ≤ h.Len s) (hs : UpReady lt (h.value s) n j) :
    Ordered lt (h.value (up h lt j s)) n := by
  fun_induction up h lt j s with
  | case1 j s hstop => exact hs.finish hstop
  | case2 j s hmove ih =>
    obtain ⟨hne, hless⟩ := not_or.mp hmove
    have hpos : 0 < j := by
      by_contra h0
      obtain rfl : j = 0 := by omega
      exact hne rfl
    have hp := parent_lt hpos
    refine ih (hp.trans hj) (by rwa [h.len_swap]) ?_
    rw [value_swap_eq (by omega) (by omega)]
    exact hs.move hpos hj (not_not.mp hless)

omit [IsStrictWeakOrder α lt] in
lemma parent_first (n : ℕ) (s : σ) (i : ℕ) : parent (first h lt n s i) = i := by
  unfold first parent
  split_ifs <;> omega

lemma first_le {k : ℕ} (hk0 : 0 < k) (hk : k < n) (hki : parent k = i) :
    ¬lt (h.value s k) (h.value s (first h lt n s i)) := by
  have hcases : k = 2 * i + 1 ∨ k = 2 * i + 2 := by
    unfold parent at hki
    omega
  unfold first
  split_ifs with hsecond
  · rcases hcases with rfl | rfl
    · exact not_lt_of_lt hsecond.2
    · exact irrefl_of lt _
  · rcases hcases with rfl | rfl
    · exact irrefl_of lt _
    · exact fun hlt => hsecond ⟨hk, hlt⟩

lemma not_lt_of_stop (hstop : n ≤ 2 * i + 1 ∨ ¬Less h lt s (first h lt n s i) i) (k : ℕ)
    (hk0 : 0 < k) (hk : k < n) (hki : parent k = i) : ¬lt (h.value s k) (h.value s i) := by
  rcases hstop with hn | hless
  · unfold parent at hki
    omega
  · exact not_lt_trans (first_le hk0 hk hki) hless

lemma ordered_down (i : ℕ) (s : σ) (hmi : m ≤ i) (hn : n ≤ h.Len s)
    (hs : DownReady lt (h.value s) m n i) :
    OrderedFrom lt (h.value (down h lt i n s).1) m n := by
  fun_induction down h lt i n s with
  | case1 i s hstop => exact hs.finish (not_lt_of_stop hstop)
  | case2 i s hmove ih =>
    obtain ⟨hchild, hless⟩ := not_or.mp hmove
    have hfirst : first h lt n s i < n := first_lt hchild
    have hlt := lt_first h lt n s i
    refine ih (by omega) (by rwa [h.len_swap]) ?_
    rw [value_swap_eq (by omega) (by omega)]
    exact hs.move hmi (by omega) hfirst (parent_first n s i) (not_not.mp hless)
      fun k hk0 hk hki => first_le hk0 hk hki

lemma ordered_initFrom (i : ℕ) (s : σ) (hn : n ≤ h.Len s)
    (hs : OrderedFrom lt (h.value s) i n) : Ordered lt (h.value (initFrom h lt n i s)) n := by
  induction i generalizing s with
  | zero => exact hs
  | succ i ih =>
    refine ih _ (by rwa [(swaps_down i n s).len_eq]) (ordered_down i s le_rfl hn ⟨?_, ?_⟩)
    · exact fun k hk0 hk hm hne => hs k hk0 hk (by omega)
    · intro k _ _ _ hpos hm
      have := parent_lt hpos
      omega

/-- **Any content becomes a heap.** -/
theorem ordered_init (s : σ) : Ordered lt (h.value (Init h lt s)) (h.Len s) := by
  refine ordered_initFrom _ s le_rfl fun k hk0 hk hm => ?_
  unfold parent at hm
  omega

/-- **A heap with one value changed becomes a heap again.** -/
theorem ordered_fix (hi : i < h.Len s)
    (hoff : ∀ k, 0 < k → k < h.Len s → k ≠ i → parent k ≠ i →
      ¬lt (h.value s k) (h.value s (parent k)))
    (hgrand : ∀ k, 0 < k → k < h.Len s → parent k = i → 0 < i →
      ¬lt (h.value s k) (h.value s (parent i))) :
    Ordered lt (h.value (Fix h lt i s)) (h.Len s) := by
  unfold Fix
  dsimp only
  by_cases hup : 0 < i ∧ lt (h.value s i) (h.value s (parent i))
  · -- the value goes up: no child can be less than it
    have hbelow (k : ℕ) (hk0 : 0 < k) (hk : k < h.Len s) (hki : parent k = i) :
        ¬lt (h.value s k) (h.value s i) := fun hlt =>
      hgrand k hk0 hk hki hup.1 (trans_of lt hlt hup.2)
    have hstop : down h lt i (h.Len s) s = (s, i) := by
      unfold down
      refine if_pos ?_
      rcases le_or_gt (h.Len s) (2 * i + 1) with hn | hn
      · exact .inl hn
      · have hlt := lt_first h lt (h.Len s) s i
        exact .inr (hbelow _ (by omega) (first_lt (not_le.mpr hn)) (parent_first _ s i))
    rw [hstop, if_neg (lt_irrefl i)]
    refine ordered_up s hi le_rfl ⟨fun k hk0 hk hne => ?_, hgrand⟩
    by_cases hki : parent k = i
    · rw [hki]
      exact hbelow k hk0 hk hki
    · exact hoff k hk0 hk hne hki
  · have hdown : Ordered lt (h.value (down h lt i (h.Len s) s).1) (h.Len s) := by
      refine ordered_down i s (Nat.zero_le i) le_rfl ⟨fun k hk0 hk _ hki => ?_, ?_⟩
      · by_cases hne : k = i
        · subst hne
          exact fun hlt => hup ⟨hk0, hlt⟩
        · exact hoff k hk0 hk hne hki
      · exact fun k hk0 hk hki hpos _ => hgrand k hk0 hk hki hpos
    split_ifs
    · exact hdown
    · exact ordered_up _ hi (by rw [(swaps_down i (h.Len s) s).len_eq]) (hdown.upReady hi)

/-- **The value behind a heap joins it.** -/
theorem ordered_push (hn : h.Len s = n + 1) (hs : Ordered lt (h.value s) n) :
    Ordered lt (h.value (up h lt n s)) (n + 1) := by
  refine ordered_up s (Nat.lt_succ_self n) hn.ge ⟨fun k hk0 hk hne => ?_, ?_⟩
  · exact hs k hk0 (by omega) (Nat.zero_le _)
  · intro k hk0 hk hkn _
    have := parent_lt hk0
    omega

/-- **The first value is brought to the end, and the others stay a heap.** -/
theorem ordered_exchange (hn : h.Len s = n + 1) (hs : Ordered lt (h.value s) (n + 1)) :
    Ordered lt (h.value (exchange h lt s)) n ∧
      h.value (exchange h lt s) n = h.value s 0 := by
  unfold exchange
  rw [hn, Nat.add_sub_cancel]
  have hval := value_swap_eq (h := h) (s := s) (i := 0) (j := n) (by omega) (by omega)
  constructor
  · refine ordered_down 0 _ le_rfl (by rw [h.len_swap]; omega) ⟨fun k hk0 hk _ hki => ?_, ?_⟩
    · have hp := parent_lt hk0
      rw [hval]
      dsimp only
      rw [Equiv.swap_apply_of_ne_of_ne (by omega) (by omega),
        Equiv.swap_apply_of_ne_of_ne hki (by omega)]
      exact hs k hk0 (by omega) (Nat.zero_le _)
    · exact fun k _ _ _ hpos => absurd hpos (lt_irrefl 0)
  · rw [(swaps_down 0 n _).value_of_le (by rw [h.len_swap]; omega) le_rfl, hval]
    exact congrArg (h.value s) (Equiv.swap_apply_right 0 n)

end Established

end Workforce.Heap
