import Mathlib.Data.List.Sort
import Mathlib.Tactic

/-!
Sorting by a key, with equal keys in any order.
-/

namespace Workforce.Sorting

variable {α : Type} {key : α → ℤ} {l : List α}

def Sorted (key : α → ℤ) (l : List α) : Prop := l.Pairwise fun a b => key a ≤ key b

lemma sorted_iff_map : Sorted key l ↔ (l.map key).Pairwise (· ≤ ·) := List.pairwise_map.symm

lemma Sorted.congr {l' : List α} (h : Sorted key l) (hkeys : l'.map key = l.map key) :
    Sorted key l' := by
  rw [sorted_iff_map, hkeys]
  exact sorted_iff_map.mp h

/-- A sort that promises nothing about the order of equal keys. -/
structure Sorter (key : α → ℤ) where
  sort : List α → List α
  perm : ∀ l, (sort l).Perm l
  sorted : ∀ l, Sorted key (sort l)

def insertion (key : α → ℤ) : Sorter key where
  sort := List.insertionSort fun a b => key a ≤ key b
  perm := List.perm_insertionSort _
  sorted l := by
    have : Std.Total fun a b : α => key a ≤ key b := ⟨fun a b => le_total (key a) (key b)⟩
    have : IsTrans α fun a b : α => key a ≤ key b := ⟨fun _ _ _ => le_trans⟩
    exact List.pairwise_insertionSort _ l

lemma insertion_sort_of_sorted (h : Sorted key l) : (insertion key).sort l = l :=
  List.Pairwise.insertionSort_eq h

/-- A sort that leaves one sorted list as it is. -/
def keeping [DecidableEq α] (h : Sorted key l) : Sorter key where
  sort x := if x = l then l else (insertion key).sort x
  perm x := by
    split_ifs with hx
    · rw [hx]
    · exact (insertion key).perm x
  sorted x := by
    split_ifs
    · exact h
    · exact (insertion key).sorted x

lemma keeping_sort [DecidableEq α] (h : Sorted key l) : (keeping h).sort l = l := if_pos rfl

/-- **One result only.** The lists that sorting may turn a list without duplicates into are all
the list itself exactly when its keys strictly increase. -/
theorem forall_sorted_eq_iff (hnodup : l.Nodup) :
    (∀ l', l'.Perm l → Sorted key l' → l' = l) ↔ l.Pairwise fun a b => key a < key b := by
  constructor
  · intro h
    have hsorted : Sorted key l := by
      rw [← h _ ((insertion key).perm l) ((insertion key).sorted l)]
      exact (insertion key).sorted l
    rw [List.pairwise_iff_forall_sublist]
    intro a b hsub
    refine lt_of_le_of_ne (List.pairwise_iff_forall_sublist.mp hsorted hsub) fun heq => ?_
    -- two equal keys can be exchanged, which gives another sorted list
    obtain ⟨r₁, r₂, hl, ha, hb⟩ := List.cons_sublist_iff.mp hsub
    obtain ⟨x, y, rfl⟩ := List.append_of_mem ha
    obtain ⟨z, w, rfl⟩ := List.append_of_mem (List.singleton_sublist.mp hb)
    have hne : b ≠ a := by
      rintro rfl
      have hpair := hsub.nodup hnodup
      simp at hpair
    have hperm : (x ++ b :: y ++ (z ++ a :: w)).Perm l := by
      classical
      rw [hl]
      refine List.perm_iff_count.mpr fun c => ?_
      simp only [List.count_append, List.count_cons]
      omega
    have hkeys : (x ++ b :: y ++ (z ++ a :: w)).map key = l.map key := by
      rw [hl]
      simp [heq]
    have hsame := (h _ hperm (hsorted.congr hkeys)).trans hl
    rw [List.append_assoc, List.append_assoc] at hsame
    exact hne (List.cons.inj (List.append_cancel_left hsame)).1
  · intro h l' hperm hsorted
    have hkeys : (l.map key).Nodup := List.pairwise_map.mpr (h.imp ne_of_lt)
    refine hperm.eq_of_pairwise (fun a b ha hb hab hba => ?_) hsorted (h.imp le_of_lt)
    exact List.inj_on_of_nodup_map hkeys (hperm.subset ha) hb (le_antisymm hab hba)

end Workforce.Sorting
