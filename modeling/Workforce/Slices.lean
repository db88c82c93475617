import Mathlib.Tactic

/-!
Slices over shared backing arrays.

A slice is a window on an array that others may hold windows on as well. Appending writes
behind the window if there is room and moves to a new array if there is not; removing an
element shifts the rest of the window down in place and leaves what was in the last cell.
A window somebody took earlier sees these writes.
-/

namespace Workforce.Slices

/-- A window on the first cells of an array. -/
structure Slice where
  arr : ℕ
  len : ℕ
  cap : ℕ
  le : len ≤ cap

/-- The slice that has no array. -/
def Slice.nil : Slice := ⟨0, 0, 0, le_rfl⟩

/-- The cells of all arrays, by array and position. -/
abbrev Cells (α : Type) := ℕ → ℕ → Option α

variable {α : Type}

/-- The element is seen through the window, at position `i` or behind it. -/
def Slice.HasFrom (s : Slice) (m : Cells α) (i : ℕ) (x : α) : Prop :=
  ∃ j < s.len, i ≤ j ∧ m s.arr j = some x

def Slice.Has (s : Slice) (m : Cells α) (x : α) : Prop := s.HasFrom m 0 x

instance [DecidableEq α] (s : Slice) (m : Cells α) (i : ℕ) (x : α) :
    Decidable (s.HasFrom m i x) := by
  unfold Slice.HasFrom; infer_instance

def Slice.elems (s : Slice) (m : Cells α) : List α := (List.range s.len).filterMap (m s.arr)

/-- No element is seen at two positions. -/
def Slice.Distinct (s : Slice) (m : Cells α) : Prop :=
  ∀ i < s.len, ∀ j < s.len, ∀ x, m s.arr i = some x → m s.arr j = some x → i = j

variable {m m' : Cells α} {s s' r : Slice} {n n' i : ℕ} {x y : α}

lemma has_iff : s.Has m x ↔ ∃ j < s.len, m s.arr j = some x := by
  simp [Slice.Has, Slice.HasFrom]

lemma Slice.HasFrom.has (h : s.HasFrom m i x) : s.Has m x := by
  obtain ⟨j, hj, -, hx⟩ := h
  exact has_iff.mpr ⟨j, hj, hx⟩

lemma Slice.HasFrom.mono {k : ℕ} (h : s.HasFrom m k x) (hik : i ≤ k) : s.HasFrom m i x := by
  obtain ⟨j, hj, hk, hx⟩ := h
  exact ⟨j, hj, hik.trans hk, hx⟩

lemma mem_elems : x ∈ s.elems m ↔ s.Has m x := by
  rw [has_iff]
  simp [Slice.elems]

lemma nodup_elems (h : s.Distinct m) : (s.elems m).Nodup := by
  rw [Slice.elems, List.Nodup, List.pairwise_filterMap]
  refine List.Pairwise.imp_of_mem (fun {i j} hi hj hne x hx y hy hxy => hne ?_) List.nodup_range
  subst hxy
  exact h i (List.mem_range.mp hi) j (List.mem_range.mp hj) x hx hy

lemma not_has_nil : ¬Slice.nil.Has m x := by
  rintro ⟨j, hj, -⟩
  exact absurd hj (Nat.not_lt_zero j)

lemma has_congr (h : ∀ j, m' s.arr j = m s.arr j) : s.Has m' x ↔ s.Has m x := by
  simp only [has_iff, h]

lemma distinct_congr (h : ∀ j, m' s.arr j = m s.arr j) : s.Distinct m' ↔ s.Distinct m := by
  simp only [Slice.Distinct, h]

lemma not_has_of_cap (h : s.cap = 0) : ¬s.Has m x := by
  rintro ⟨j, hj, -⟩
  have := s.le
  omega

lemma has_other (h : 0 < s.cap → ∀ j, m' s.arr j = m s.arr j) : s.Has m' x ↔ s.Has m x := by
  rcases Nat.eq_zero_or_pos s.cap with hc | hc
  · exact iff_of_false (not_has_of_cap hc) (not_has_of_cap hc)
  · exact has_congr (h hc)

lemma distinct_other (h : 0 < s.cap → ∀ j, m' s.arr j = m s.arr j) (hd : s.Distinct m) :
    s.Distinct m' := by
  rcases Nat.eq_zero_or_pos s.cap with hc | hc
  · intro i hi
    have := s.le
    omega
  · exact (distinct_congr (h hc)).mpr hd

/-! ### Appending -/

def write (m : Cells α) (a i : ℕ) (x : α) : Cells α :=
  fun a' i' => if a' = a ∧ i' = i then some x else m a' i'

/-- The cells with a copy of the window in the array `n`, which is otherwise empty. -/
def copy (m : Cells α) (s : Slice) (n : ℕ) : Cells α :=
  fun a i => if a = n then (if i < s.len then m s.arr i else none) else m a i

/-- `append(s, x)`, where `n` is the first array that has not been allocated. -/
inductive Appends (m : Cells α) (n : ℕ) (s : Slice) (x : α) : Cells α → ℕ → Slice → Prop
  | inPlace (h : s.len < s.cap) :
      Appends m n s x (write m s.arr s.len x) n ⟨s.arr, s.len + 1, s.cap, h⟩
  | grow {cap : ℕ} (hfull : s.len = s.cap) (h : s.len < cap) :
      Appends m n s x (write (copy m s n) n s.len x) (n + 1) ⟨n, s.len + 1, cap, h⟩

lemma Appends.cells (h : Appends m n s x m' n' s') {a k : ℕ} (hy : m' a k = some y) :
    m a k = some y ∨ y = x ∨ s.Has m y := by
  cases h with
  | inPlace h =>
    unfold write at hy
    split_ifs at hy
    · cases hy
      exact .inr (.inl rfl)
    · exact .inl hy
  | grow hfull h =>
    unfold write copy at hy
    split_ifs at hy with h1 h2 h3
    · cases hy
      exact .inr (.inl rfl)
    · exact .inr (.inr (has_iff.mpr ⟨k, h3, hy⟩))
    · exact .inl hy

lemma Appends.view (h : Appends m n s x m' n' s') :
    s'.len = s.len + 1 ∧ m' s'.arr s.len = some x ∧ ∀ j < s.len, m' s'.arr j = m s.arr j := by
  cases h with
  | inPlace h =>
    refine ⟨rfl, by simp [write], fun j hj => ?_⟩
    simp only [write]
    rw [if_neg]
    omega
  | grow hfull h =>
    refine ⟨rfl, by simp [write], fun j hj => ?_⟩
    simp only [write, copy]
    rw [if_neg (by omega), if_pos trivial, if_pos hj]

lemma Appends.has_iff (h : Appends m n s x m' n' s') :
    s'.Has m' y ↔ s.Has m y ∨ y = x := by
  obtain ⟨hlen, hlast, hold⟩ := h.view
  rw [Slices.has_iff, Slices.has_iff, hlen]
  constructor
  · rintro ⟨j, hj, hy⟩
    by_cases hjs : j < s.len
    · rw [hold j hjs] at hy
      exact .inl ⟨j, hjs, hy⟩
    · obtain rfl : j = s.len := by omega
      rw [hlast] at hy
      cases hy
      exact .inr rfl
  · rintro (⟨j, hj, hy⟩ | rfl)
    · exact ⟨j, by omega, by rw [hold j hj, hy]⟩
    · exact ⟨s.len, by omega, hlast⟩

lemma Appends.distinct (h : Appends m n s x m' n' s') (hd : s.Distinct m) (hx : ¬s.Has m x) :
    s'.Distinct m' := by
  obtain ⟨hlen, hlast, hold⟩ := h.view
  have hnew : ∀ j < s.len, m' s'.arr j ≠ some x := by
    intro j hj hjx
    rw [hold j hj] at hjx
    exact hx (Slices.has_iff.mpr ⟨j, hj, hjx⟩)
  intro i hi j hj y hyi hyj
  by_cases his : i < s.len <;> by_cases hjs : j < s.len
  · rw [hold i his] at hyi
    rw [hold j hjs] at hyj
    exact hd i his j hjs y hyi hyj
  · obtain rfl : j = s.len := by omega
    rw [hlast] at hyj
    cases hyj
    exact absurd hyi (hnew i his)
  · obtain rfl : i = s.len := by omega
    rw [hlast] at hyi
    cases hyi
    exact absurd hyj (hnew j hjs)
  · omega

lemma Appends.other (h : Appends m n s x m' n' s') (hr : r.arr ≠ s.arr ∨ s.cap = 0)
    (hn : r.arr < n) (j : ℕ) : m' r.arr j = m r.arr j := by
  cases h with
  | inPlace h =>
    have hne : r.arr ≠ s.arr := hr.resolve_right (by omega)
    simp [write, hne]
  | grow hfull h =>
    have hne : r.arr ≠ n := by omega
    simp [write, copy, hne]

lemma Appends.arr (h : Appends m n s x m' n' s') :
    s'.arr = n ∧ n' = n + 1 ∨ s'.arr = s.arr ∧ 0 < s.cap ∧ n' = n := by
  cases h with
  | inPlace h => exact .inr ⟨rfl, by omega, rfl⟩
  | grow hfull h => exact .inl ⟨rfl, rfl⟩

/-! ### Removing -/

/-- The first position the element is seen at. -/
def Slice.find [DecidableEq α] (s : Slice) (m : Cells α) (x : α) : Option ℕ :=
  (List.range s.len).find? fun i => m s.arr i = some x

/-- The cells after `append(s[:i], s[i+1:]...)`: what is behind position `i` moves down. -/
def shift (m : Cells α) (s : Slice) (i : ℕ) : Cells α :=
  fun a k => if a = s.arr ∧ i ≤ k ∧ k + 1 < s.len then m a (k + 1) else m a k

def Slice.init (s : Slice) : Slice := ⟨s.arr, s.len - 1, s.cap, by have := s.le; omega⟩

/-- Take the first occurrence of an element out of the window, if there is one. -/
def remove [DecidableEq α] (m : Cells α) (s : Slice) (x : α) : Cells α × Slice :=
  match s.find m x with
  | some i => (shift m s i, s.init)
  | none => (m, s)

section Remove

variable [DecidableEq α]

lemma find_some (h : s.find m x = some i) : i < s.len ∧ m s.arr i = some x := by
  have hmem := List.mem_of_find?_eq_some h
  have hx := List.find?_some h
  exact ⟨List.mem_range.mp hmem, by simpa using hx⟩

lemma find_none (h : s.find m x = none) : ¬s.Has m x := by
  rintro ⟨j, hj, hx⟩
  have := List.find?_eq_none.mp h j (List.mem_range.mpr hj)
  simp [hx] at this

lemma remove_cells {a k : ℕ} (hy : (remove m s x).1 a k = some y) :
    m a k = some y ∨ s.Has m y := by
  unfold remove at hy
  split at hy
  · unfold shift at hy
    dsimp only at hy
    split_ifs at hy with h
    · obtain ⟨rfl, -, hk⟩ := h
      exact .inr (has_iff.mpr ⟨k + 1, hk, hy⟩)
    · exact .inl hy
  · exact .inl hy

lemma shift_view (hi : i < s.len) {j : ℕ} (hj : j < s.len - 1) :
    shift m s i s.arr j = m s.arr (if i ≤ j then j + 1 else j) := by
  unfold shift
  split_ifs with h1 h2 h3
  · rfl
  · omega
  · omega
  · rfl

lemma has_remove (hd : s.Distinct m) :
    (remove m s x).2.Has (remove m s x).1 y ↔ s.Has m y ∧ y ≠ x := by
  unfold remove
  split
  · next i hfind =>
    obtain ⟨hi, hx⟩ := find_some hfind
    rw [has_iff, has_iff]
    dsimp only [Slice.init]
    constructor
    · rintro ⟨j, hj, hy⟩
      rw [shift_view hi hj] at hy
      refine ⟨⟨_, by split_ifs <;> omega, hy⟩, ?_⟩
      -- the removed position is not among those that are left
      rintro rfl
      have := hd _ (by split_ifs <;> omega) i hi y hy hx
      split_ifs at this <;> omega
    · rintro ⟨⟨j, hj, hy⟩, hne⟩
      have hji : j ≠ i := by
        rintro rfl
        rw [hx] at hy
        cases hy
        exact hne rfl
      by_cases hlt : j < i
      · refine ⟨j, by omega, ?_⟩
        rw [shift_view hi (by omega), if_neg (by omega), hy]
      · refine ⟨j - 1, by omega, ?_⟩
        rw [shift_view hi (by omega), if_pos (by omega), Nat.sub_add_cancel (by omega), hy]
  · next hfind =>
    have hnot := find_none hfind
    refine ⟨fun h => ⟨h, ?_⟩, fun h => h.1⟩
    rintro rfl
    exact hnot h

lemma distinct_remove (hd : s.Distinct m) : (remove m s x).2.Distinct (remove m s x).1 := by
  unfold remove
  split
  · next i hfind =>
    obtain ⟨hi, -⟩ := find_some hfind
    intro j hj k hk y hyj hyk
    dsimp only [Slice.init] at hj hk hyj hyk
    rw [shift_view hi hj] at hyj
    rw [shift_view hi hk] at hyk
    have := hd _ (by split_ifs <;> omega) _ (by split_ifs <;> omega) y hyj hyk
    split_ifs at this <;> omega
  · exact hd

lemma remove_other (hr : r.arr ≠ s.arr ∨ s.cap = 0) (j : ℕ) :
    (remove m s x).1 r.arr j = m r.arr j := by
  unfold remove
  split
  · next i hfind =>
    obtain ⟨hi, -⟩ := find_some hfind
    have hle := s.le
    have hne : r.arr ≠ s.arr := hr.resolve_right (by omega)
    simp [shift, hne]
  · rfl

lemma remove_arr : (remove m s x).2.arr = s.arr ∧ (remove m s x).2.cap = s.cap := by
  unfold remove
  split <;> exact ⟨rfl, rfl⟩

end Remove

/-! ### Slices by key -/

section Layout

variable {κ : Type} {f : κ → Slice} {k : κ}

/-- Slices that share neither elements nor arrays, all on allocated arrays. -/
structure Layout (m : Cells α) (n : ℕ) (f : κ → Slice) : Prop where
  distinct : ∀ k, (f k).Distinct m
  apart : ∀ k k' x, (f k).Has m x → (f k').Has m x → k = k'
  separate : ∀ k k', 0 < (f k).cap → 0 < (f k').cap → (f k).arr = (f k').arr → k = k'
  allocated : ∀ k, 0 < (f k).cap → (f k).arr < n

lemma Layout.arr_ne (h : Layout m n f) {k' : κ} (hne : k' ≠ k) (hc : 0 < (f k').cap) :
    (f k').arr ≠ (f k).arr ∨ (f k).cap = 0 := by
  rcases Nat.eq_zero_or_pos (f k).cap with h0 | h0
  · exact .inr h0
  · exact .inl fun he => hne (h.separate k' k hc h0 he)

variable [DecidableEq κ]

/-- Replacing the slice at `k`, where the other arrays are left alone. -/
lemma Layout.replace (h : Layout m n f) (k : κ) (m' : Cells α) (n' : ℕ) (r : Slice) (hn : n ≤ n')
    (hcells : ∀ k', k' ≠ k → 0 < (f k').cap → ∀ j, m' (f k').arr j = m (f k').arr j)
    (hd : r.Distinct m') (hr : ∀ k', k' ≠ k → ∀ x, r.Has m' x → ¬(f k').Has m x)
    (harr : 0 < r.cap → r.arr < n' ∧ ∀ k', k' ≠ k → 0 < (f k').cap → (f k').arr ≠ r.arr) :
    Layout m' n' (Function.update f k r) ∧
      ∀ k', k' ≠ k → ∀ x, (Function.update f k r k').Has m' x ↔ (f k').Has m x := by
  have hself : Function.update f k r k = r := Function.update_self k r f
  have hother : ∀ {k'}, k' ≠ k → Function.update f k r k' = f k' := fun hne =>
    Function.update_of_ne hne r f
  have hhas : ∀ k', k' ≠ k → ∀ x, (Function.update f k r k').Has m' x ↔ (f k').Has m x := by
    intro k' hne x
    rw [hother hne]
    exact has_other (hcells k' hne)
  refine ⟨⟨fun k' => ?_, fun k' k'' x h1 h2 => ?_, fun k' k'' h1 h2 he => ?_, fun k' hc => ?_⟩,
    hhas⟩
  · by_cases hne : k' = k
    · rw [hne, hself]
      exact hd
    · rw [hother hne]
      exact distinct_other (hcells k' hne) (h.distinct k')
  · by_cases hne : k' = k <;> by_cases hne' : k'' = k
    · rw [hne, hne']
    · rw [hne, hself] at h1
      exact absurd ((hhas k'' hne' x).mp h2) (hr k'' hne' x h1)
    · rw [hne', hself] at h2
      exact absurd ((hhas k' hne x).mp h1) (hr k' hne x h2)
    · exact h.apart k' k'' x ((hhas k' hne x).mp h1) ((hhas k'' hne' x).mp h2)
  · by_cases hne : k' = k <;> by_cases hne' : k'' = k
    · rw [hne, hne']
    · rw [hne, hself] at h1 he
      rw [hother hne'] at h2 he
      exact absurd he.symm ((harr h1).2 k'' hne' h2)
    · rw [hne', hself] at h2 he
      rw [hother hne] at h1 he
      exact absurd he ((harr h2).2 k' hne h1)
    · rw [hother hne] at h1 he
      rw [hother hne'] at h2 he
      exact h.separate k' k'' h1 h2 he
  · by_cases hne : k' = k
    · rw [hne, hself] at hc ⊢
      exact (harr hc).1
    · rw [hother hne] at hc ⊢
      exact (h.allocated k' hc).trans_le hn

theorem Layout.append (h : Layout m n f) (ha : Appends m n (f k) x m' n' r)
    (hx : ∀ k', ¬(f k').Has m x) :
    Layout m' n' (Function.update f k r) ∧
      ∀ k' y, (Function.update f k r k').Has m' y → (f k').Has m y ∨ y = x := by
  have hmem : ∀ y, r.Has m' y → (f k).Has m y ∨ y = x := fun y => ha.has_iff.mp
  have harr := ha.arr
  have hrep := h.replace k m' n' r (by rcases harr with ⟨-, hn⟩ | ⟨-, -, hn⟩ <;> omega)
    (fun k' hne hc => ha.other (h.arr_ne hne hc) (h.allocated k' hc))
    (ha.distinct (h.distinct k) (hx k)) ?_ ?_
  · refine ⟨hrep.1, fun k' y hy => ?_⟩
    by_cases hne : k' = k
    · rw [hne, Function.update_self] at hy
      rw [hne]
      exact hmem y hy
    · exact .inl ((hrep.2 k' hne y).mp hy)
  · intro k' hne y hy hk'
    rcases hmem y hy with hk | rfl
    · exact hne (h.apart k' k y hk' hk)
    · exact hx k' hk'
  · intro hc
    rcases harr with ⟨hr, hn⟩ | ⟨hr, h0, hn⟩
    · refine ⟨by omega, fun k' hne hc' he => ?_⟩
      have := h.allocated k' hc'
      omega
    · refine ⟨by have := h.allocated k h0; omega, fun k' hne hc' he => ?_⟩
      exact hne (h.separate k' k hc' h0 (he.trans hr))

theorem Layout.remove [DecidableEq α] (h : Layout m n f) (x : α) :
    Layout (remove m (f k) x).1 n (Function.update f k (remove m (f k) x).2) ∧
      ∀ k' y, (Function.update f k (remove m (f k) x).2 k').Has (remove m (f k) x).1 y →
        (f k').Has m y ∧ (k' = k → y ≠ x) := by
  have hrep := h.replace k (Slices.remove m (f k) x).1 n (Slices.remove m (f k) x).2 le_rfl
    (fun k' hne hc => remove_other (h.arr_ne hne hc)) (distinct_remove (h.distinct k)) ?_ ?_
  · refine ⟨hrep.1, fun k' y hy => ?_⟩
    by_cases hne : k' = k
    · rw [hne, Function.update_self, has_remove (h.distinct k)] at hy
      rw [hne]
      exact ⟨hy.1, fun _ => hy.2⟩
    · exact ⟨(hrep.2 k' hne y).mp hy, fun he => absurd he hne⟩
  · intro k' hne y hy hk'
    rw [has_remove (h.distinct k)] at hy
    exact hne (h.apart k' k y hk' hy.1)
  · intro hc
    rw [remove_arr.2] at hc
    rw [remove_arr.1]
    exact ⟨h.allocated k hc, fun k' hne hc' he => hne (h.separate k' k hc' hc he)⟩

theorem Layout.clear (h : Layout m n f) (k : κ) :
    Layout m n (Function.update f k .nil) ∧
      ∀ k' y, (Function.update f k .nil k').Has m y → (f k').Has m y ∧ k' ≠ k := by
  have hrep := h.replace k m n .nil le_rfl
    (fun _ _ _ _ => rfl) (fun i hi => absurd hi (Nat.not_lt_zero i))
    (fun _ _ x hx => absurd hx not_has_nil) (fun hc => absurd hc (Nat.lt_irrefl 0))
  refine ⟨hrep.1, fun k' y hy => ?_⟩
  by_cases hne : k' = k
  · rw [hne, Function.update_self] at hy
    exact absurd hy not_has_nil
  · exact ⟨(hrep.2 k' hne y).mp hy, hne⟩

end Layout

end Workforce.Slices
