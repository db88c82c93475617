import Mathlib.Data.List.Perm.Basic
import Mathlib.Tactic

/-!
Sorting by a comparison that is only known to be a strict weak order on the elements at hand.
-/

namespace Workforce.WeakOrders

variable {α : Type} {less : α → α → Bool} {l : List α} {x y z : α}

def Incomparable (less : α → α → Bool) (x y : α) : Prop := ¬less x y ∧ ¬less y x

/-- A strict weak order on the elements of a list. -/
structure StrictWeakOn (less : α → α → Bool) (l : List α) : Prop where
  irrefl : ∀ x ∈ l, ¬less x x
  trans : ∀ x ∈ l, ∀ y ∈ l, ∀ z ∈ l, less x y → less y z → less x z
  incomparable : ∀ x ∈ l, ∀ y ∈ l, ∀ z ∈ l,
    Incomparable less x y → Incomparable less y z → Incomparable less x z

lemma StrictWeakOn.asymm (h : StrictWeakOn less l) (hx : x ∈ l) (hy : y ∈ l) (hxy : less x y) :
    ¬less y x := fun hyx => h.irrefl x hx (h.trans x hx y hy x hx hxy hyx)

lemma StrictWeakOn.not_less_trans (h : StrictWeakOn less l) (hx : x ∈ l) (hy : y ∈ l) (hz : z ∈ l)
    (hxy : ¬less x y) (hyz : ¬less y z) : ¬less x z := by
  intro hxz
  have hyx : ¬less y x := fun hyx => hyz (h.trans y hy x hx z hz hyx hxz)
  have hzy : ¬less z y := fun hzy => hxy (h.trans x hx z hz y hy hxz hzy)
  exact (h.incomparable x hx y hy z hz ⟨hxy, hyx⟩ ⟨hyz, hzy⟩).1 hxz

/-- A comparison that is a strict weak order since what is not less is so transitively. -/
lemma strictWeakOn_of_not_less_trans (hasymm : ∀ x ∈ l, ∀ y ∈ l, less x y → ¬less y x)
    (htrans : ∀ x ∈ l, ∀ y ∈ l, ∀ z ∈ l, ¬less x y → ¬less y z → ¬less x z) :
    StrictWeakOn less l where
  irrefl x hx h := hasymm x hx x hx h h
  trans x hx y hy z hz hxy hyz := by
    by_contra hxz
    exact htrans x hx z hz y hy hxz (hasymm y hy z hz hyz) hxy
  incomparable x hx y hy z hz hxy hyz :=
    ⟨htrans x hx y hy z hz hxy.1 hyz.1, htrans z hz y hy x hx hyz.2 hxy.2⟩

lemma StrictWeakOn.subset {l' : List α} (h : StrictWeakOn less l) (hsub : l' ⊆ l) :
    StrictWeakOn less l' where
  irrefl x hx := h.irrefl x (hsub hx)
  trans x hx y hy z hz := h.trans x (hsub hx) y (hsub hy) z (hsub hz)
  incomparable x hx y hy z hz := h.incomparable x (hsub hx) y (hsub hy) z (hsub hz)

/-- A sort that is right for strict weak orders, and promises nothing more. -/
structure Slice (α : Type) where
  sort : (α → α → Bool) → List α → List α
  perm : ∀ less l, (sort less l).Perm l
  sorted : ∀ less l, StrictWeakOn less l → (sort less l).Pairwise fun x y => ¬less y x

/-! ### Insertion sort -/

/-- Move an element to its place in the part that is sorted, which is given from its end. -/
def insert (less : α → α → Bool) (x : α) : List α → List α
  | [] => [x]
  | y :: ys => if less x y then y :: insert less x ys else x :: y :: ys

def insertionSort (less : α → α → Bool) (l : List α) : List α :=
  (l.foldl (fun done x => insert less x done) []).reverse

lemma perm_insert (less : α → α → Bool) (x : α) (l : List α) :
    (insert less x l).Perm (x :: l) := by
  induction l with
  | nil => rfl
  | cons y l ih =>
    rw [insert]
    split_ifs
    · exact (ih.cons y).trans (List.Perm.swap x y l)
    · rfl

lemma pairwise_insert (h : StrictWeakOn less (x :: l)) (hl : l.Pairwise fun x y => ¬less x y) :
    (insert less x l).Pairwise fun x y => ¬less x y := by
  induction l with
  | nil => exact List.pairwise_singleton _ x
  | cons y l ih =>
    obtain ⟨hy, hrest⟩ := List.pairwise_cons.mp hl
    have hxmem : x ∈ x :: y :: l := List.mem_cons_self
    have hymem : y ∈ x :: y :: l := by simp
    rw [insert]
    split_ifs with hxy
    · refine List.pairwise_cons.mpr ⟨fun z hz => ?_, ih (h.subset ?_) hrest⟩
      · rcases List.mem_cons.mp ((perm_insert less x l).mem_iff.mp hz) with rfl | hz
        · exact h.asymm hxmem hymem hxy
        · exact hy z hz
      · exact List.cons_subset_cons x (List.subset_cons_self y l)
    · refine List.pairwise_cons.mpr ⟨fun z hz => ?_, hl⟩
      rcases List.mem_cons.mp hz with rfl | hz
      · exact hxy
      · exact h.not_less_trans hxmem hymem (by simp [hz]) hxy (hy z hz)

lemma insertionSort_loop (less : α → α → Bool) (l done : List α) :
    (l.foldl (fun done x => insert less x done) done).Perm (l ++ done) ∧
      (StrictWeakOn less (l ++ done) → done.Pairwise (fun x y => ¬less x y) →
        (l.foldl (fun done x => insert less x done) done).Pairwise fun x y => ¬less x y) := by
  induction l generalizing done with
  | nil => exact ⟨List.Perm.refl _, fun _ hdone => hdone⟩
  | cons x l ih =>
    have hinsert := perm_insert less x done
    obtain ⟨hperm, hsorted⟩ := ih (insert less x done)
    have hall : (l ++ insert less x done).Perm (x :: l ++ done) :=
      (hinsert.append_left l).trans List.perm_middle
    refine ⟨hperm.trans hall, fun h hdone => hsorted (h.subset hall.subset) ?_⟩
    refine pairwise_insert (h.subset ?_) hdone
    exact List.cons_subset_cons x (List.subset_append_right l done)

/-- What short slices are sorted with. -/
def insertion (α : Type) : Slice α where
  sort := insertionSort
  perm less l := by
    have hperm := (insertionSort_loop less l []).1
    rw [List.append_nil] at hperm
    exact (List.reverse_perm _).trans hperm
  sorted less l h := by
    refine List.pairwise_reverse.mpr ((insertionSort_loop less l []).2 ?_ List.Pairwise.nil)
    rwa [List.append_nil]

end Workforce.WeakOrders
