import Workforce.Sorting

/-!
Reading a sorted collection page by page, each page from where the last one ended.

A page ends with a cursor: the identifier of its last element, or a blank one if nothing follows.
Every call sorts the collection anew, so that elements with equal keys may change places from one
call to the next, and new elements may have come in front. The pages fit together for sure exactly
when every element that a page can end with is alone with its key and has an identifier.
-/

namespace Workforce.Paging

open Sorting

variable {α ι : Type} [DecidableEq ι]

/-! ### Pages -/

section Pages

variable (id : α → ι) (blank : ι)

/-- What follows the element with the identifier; everything if there is no such element. -/
def after (c : ι) (l : List α) : List α :=
  if c = blank then l
  else
    match l.findIdx? fun x => id x = c with
    | some i => l.drop (i + 1)
    | none => l

def page (limit : ℕ) (rest : List α) : List α × ι :=
  (rest.take limit,
    if limit < rest.length then ((rest.take limit).getLast?.map id).getD blank else blank)

/-- All pages together, from the `i`-th call on; the first number bounds the calls. -/
def collect (limit : ℕ) (lists : ℕ → List α) : ℕ → ℕ → ι → Option (List α)
  | 0, _, _ => none
  | fuel + 1, i, c =>
    let (items, next) := page id blank limit (after id blank c (lists i))
    if next = blank then some items
    else (collect limit lists fuel (i + 1) next).map (items ++ ·)

end Pages

variable {id : α → ι} {blank c : ι} {limit : ℕ} {lists : ℕ → List α} {fuel i : ℕ}
  {a b l p q rest out : List α} {x y : α}

@[simp] lemma after_blank : after id blank blank l = l := if_pos rfl

lemma after_middle (hx : id x ≠ blank) (ha : ∀ y ∈ a, id y ≠ id x) :
    after id blank (id x) (a ++ x :: b) = b := by
  have hindex : (a ++ x :: b).findIdx? (fun y => id y = id x) = some a.length := by
    rw [List.findIdx?_append, List.findIdx?_eq_none_iff.mpr (by simpa using ha), Option.none_or,
      List.findIdx?_cons, if_pos (by simp), Option.map_some, zero_add]
  rw [after, if_neg hx, hindex]
  dsimp only
  rw [← List.drop_drop, List.drop_left]
  rfl

lemma after_suffix (c : ι) (l : List α) : after id blank c l <:+ l := by
  unfold after
  split_ifs
  · exact List.suffix_refl l
  · split
    · exact List.drop_suffix _ l
    · exact List.suffix_refl l

/-- A page that is not the last one ends at an element that others follow. -/
lemma exists_cut (hlimit : 1 ≤ limit) (h : limit < rest.length) :
    ∃ p y q, rest = p ++ y :: q ∧ p.length + 1 = limit ∧ q ≠ [] := by
  obtain ⟨n, rfl⟩ : ∃ n, limit = n + 1 := ⟨limit - 1, by omega⟩
  have hn : n < rest.length := by omega
  refine ⟨rest.take n, rest[n], rest.drop (n + 1), ?_, ?_, ?_⟩
  · rw [List.getElem_cons_drop, List.take_append_drop]
  · rw [List.length_take, min_eq_left hn.le]
  · rw [ne_eq, List.drop_eq_nil_iff]
    omega

omit [DecidableEq ι] in
lemma page_last (h : rest.length ≤ limit) : page id blank limit rest = (rest, blank) := by
  rw [page, if_neg (by omega), List.take_of_length_le h]

omit [DecidableEq ι] in
lemma page_next (hp : p.length + 1 = limit) (hq : q ≠ []) :
    page id blank limit (p ++ y :: q) = (p ++ [y], id y) := by
  have hlength : limit < (p ++ y :: q).length := by
    have := List.length_pos_iff.mpr hq
    simp only [List.length_append, List.length_cons]
    omega
  have htake : (p ++ y :: q).take limit = p ++ [y] := by
    rw [List.take_append, List.take_of_length_le (by omega), ← hp, Nat.add_sub_cancel_left]
    rfl
  rw [page, if_pos hlength, htake, List.getLast?_concat]
  rfl

lemma collect_last (h : (after id blank c (lists i)).length ≤ limit) :
    collect id blank limit lists (fuel + 1) i c = some (after id blank c (lists i)) := by
  rw [collect, page_last h]
  exact if_pos rfl

lemma collect_next (h : after id blank c (lists i) = p ++ y :: q) (hp : p.length + 1 = limit)
    (hq : q ≠ []) :
    collect id blank limit lists (fuel + 1) i c =
      if id y = blank then some (p ++ [y])
      else (collect id blank limit lists fuel (i + 1) (id y)).map (p ++ [y] ++ ·) := by
  rw [collect, h, page_next hp hq]

/-! ### Pages that fit together -/

variable {key : α → ℤ} {R : List α} {m : ℤ} {k : ℕ}

/-- An element that a page can end with, others following: with equal keys in any order, it can
stand at the end of the `k`-th page. -/
def EndsAt (key : α → ℤ) (limit k : ℕ) (R : List α) (y : α) : Prop :=
  R.countP (fun x => key x < key y) < k * limit ∧ k * limit ≤ R.countP (fun x => key x ≤ key y) ∧
    k * limit < R.length

def Sole (key : α → ℤ) (R : List α) (y : α) : Prop := ∀ x ∈ R, key x = key y → x = y

/-- Pages end only with elements that have an identifier and are alone with their key. -/
def Divides (key : α → ℤ) (id : α → ι) (blank : ι) (limit : ℕ) (R : List α) : Prop :=
  ∀ k, ∀ y ∈ R, EndsAt key limit k R y → id y ≠ blank ∧ Sole key R y

/-- The elements, sorted, and new ones in front. -/
structure Extends (key : α → ℤ) (id : α → ι) (R l : List α) : Prop where
  sorted : Sorted key l
  nodup : (l.map id).Nodup
  perm : ∃ new, l.Perm (new ++ R) ∧ ∀ x ∈ new, ∀ y ∈ R, key x < key y

lemma sorted_append_cons (h : Sorted key (p ++ y :: q)) :
    (∀ x ∈ p, key x ≤ key y) ∧ ∀ x ∈ q, key y ≤ key x := by
  obtain ⟨-, hyq, hcross⟩ := List.pairwise_append.mp h
  exact ⟨fun x hx => hcross x hx y List.mem_cons_self, (List.pairwise_cons.mp hyq).1⟩

omit [DecidableEq ι] in
lemma ids_of_nodup (h : ((a ++ x :: b).map id).Nodup) : ∀ y ∈ a, id y ≠ id x := by
  rw [List.map_append, List.nodup_append] at h
  exact fun y hy => h.2.2 _ (List.mem_map_of_mem hy) _ (by simp)

lemma filter_of_sole (h : Sorted key (p ++ y :: q)) (hnodup : (p ++ y :: q).Nodup)
    (hsole : Sole key (p ++ y :: q) y) :
    (∀ x ∈ q, key y < key x) ∧ (p ++ y :: q).filter (fun x => key y < key x) = q := by
  obtain ⟨hp, hq⟩ := sorted_append_cons h
  have hlarger : ∀ x ∈ q, key y < key x := by
    intro x hx
    refine lt_of_le_of_ne (hq x hx) fun heq => ?_
    obtain rfl := hsole x (by simp [hx]) heq.symm
    have := (List.nodup_append.mp hnodup).2.1
    exact (List.nodup_cons.mp this).1 hx
  refine ⟨hlarger, ?_⟩
  have hnone : p.filter (fun x => key y < key x) = [] := by
    simpa using hp
  rw [List.filter_append, hnone, List.filter_cons_of_neg (by simp), List.nil_append,
    List.filter_eq_self.mpr (by simpa using hlarger)]

lemma Extends.after (h : Extends key id R l) (hy : y ∈ R) (hid : id y ≠ blank)
    (hsole : Sole key R y) :
    Sorted key (after id blank (id y) l) ∧
      (after id blank (id y) l).Perm (R.filter fun x => key y < key x) := by
  obtain ⟨new, hperm, hnew⟩ := h.perm
  obtain ⟨p, q, rfl⟩ := List.append_of_mem (hperm.mem_iff.mpr (List.mem_append_right _ hy))
  have hsole' : Sole key (p ++ y :: q) y := by
    intro x hx heq
    rcases List.mem_append.mp (hperm.mem_iff.mp hx) with hx | hx
    · exact absurd heq (hnew x hx y hy).ne
    · exact hsole x hx heq
  have hfilter := (filter_of_sole h.sorted h.nodup.of_map hsole').2
  rw [after_middle hid (ids_of_nodup h.nodup)]
  refine ⟨(List.pairwise_cons.mp (List.pairwise_append.mp h.sorted).2.1).2, ?_⟩
  have hnone : new.filter (fun x => key y < key x) = [] := by
    rw [List.filter_eq_nil_iff]
    intro x hx
    simpa using (hnew x hx y hy).le
  have hall := hperm.filter fun x => key y < key x
  rwa [hfilter, List.filter_append, hnone, List.nil_append] at hall

lemma countP_above (hrest : rest.Perm (R.filter fun x => m < key x)) {f : α → Bool}
    (hf : ∀ x, key x ≤ m → f x) :
    R.countP f = R.countP (fun x => key x ≤ m) + rest.countP f := by
  have hrest' : rest.Perm (R.filter fun x => !decide (key x ≤ m)) := by
    simpa only [← not_le, decide_not] using hrest
  rw [List.countP_eq_countP_filter_add R f fun x => key x ≤ m, ← hrest'.countP_eq,
    List.countP_eq_length_filter (p := fun x => decide (key x ≤ m))]
  congr 1
  rw [List.countP_eq_length]
  intro x hx
  exact hf x (by simpa using (List.mem_filter.mp hx).2)

lemma endsAt_of_cut (hsorted : Sorted key (p ++ y :: q))
    (hrest : (p ++ y :: q).Perm (R.filter fun x => m < key x))
    (hrank : R.countP (fun x => key x ≤ m) = i * limit) (hp : p.length + 1 = limit) (hq : q ≠ []) :
    EndsAt key limit (i + 1) R y := by
  obtain ⟨hbefore, hbehind⟩ := sorted_append_cons hsorted
  have hm : m < key y := by
    have hy := hrest.mem_iff.mp (List.mem_append_right p List.mem_cons_self)
    simpa using (List.mem_filter.mp hy).2
  have hless := countP_above (f := fun x => key x < key y) hrest
    fun x hx => by simpa using hx.trans_lt hm
  have hupto := countP_above (f := fun x => key x ≤ key y) hrest
    fun x hx => by simpa using hx.trans hm.le
  have hall := countP_above (f := fun _ => true) hrest fun _ _ => rfl
  have hlast : (y :: q).countP (fun x => key x < key y) = 0 := by
    rw [List.countP_eq_zero]
    intro x hx
    rcases List.mem_cons.mp hx with rfl | hx
    · simp
    · simpa using hbehind x hx
  have hfirst : p.countP (fun x => key x ≤ key y) = p.length :=
    List.countP_eq_length.mpr fun x hx => by simpa using hbefore x hx
  have hsome := List.length_pos_iff.mpr hq
  have hpart : p.countP (fun x => key x < key y) ≤ p.length := List.countP_le_length
  rw [List.countP_append, hlast] at hless
  rw [List.countP_append, hfirst, List.countP_cons_of_pos (by simp)] at hupto
  rw [List.countP_true, List.length_append, List.length_cons] at hall
  rw [EndsAt, Nat.succ_mul]
  omega

/-- **Complete pages.** What is left above a bound comes in pages that fit together, if pages end
only where they should. -/
theorem collect_above (hlimit : 1 ≤ limit) (hR : (R.map id).Nodup)
    (hlists : ∀ i, Extends key id R (lists i)) (hdivides : Divides key id blank limit R)
    (hsorted : Sorted key (after id blank c (lists i)))
    (hrest : (after id blank c (lists i)).Perm (R.filter fun x => m < key x))
    (hrank : R.countP (fun x => key x ≤ m) = i * limit) :
    ∃ fuel out, collect id blank limit lists fuel i c = some out ∧
      out.Perm (R.filter fun x => m < key x) ∧ Sorted key out := by
  induction hn : (after id blank c (lists i)).length using Nat.strong_induction_on
    generalizing i c m with
  | _ n ih =>
  subst hn
  rcases Nat.lt_or_ge limit (after id blank c (lists i)).length with hlong | hshort
  · obtain ⟨p, y, q, hcut, hp, hq⟩ := exists_cut hlimit hlong
    rw [hcut] at hsorted hrest
    obtain ⟨hyR, hmy⟩ : y ∈ R ∧ m < key y := by
      have hy := hrest.mem_iff.mp (List.mem_append_right p List.mem_cons_self)
      simpa using List.mem_filter.mp hy
    obtain ⟨hid, hsole⟩ := hdivides (i + 1) y hyR (endsAt_of_cut hsorted hrest hrank hp hq)
    have hnodup : (p ++ y :: q).Nodup := hrest.nodup_iff.mpr (hR.of_map.filter _)
    have hsole' : Sole key (p ++ y :: q) y := fun x hx =>
      hsole x (List.mem_of_mem_filter (hrest.mem_iff.mp hx))
    obtain ⟨hlarger, hfilter⟩ := filter_of_sole hsorted hnodup hsole'
    -- the rest of this list and of the next one are the same elements
    have hq' : q.Perm (R.filter fun x => key y < key x) := by
      have hall := hrest.filter fun x => key y < key x
      rw [hfilter, List.filter_filter] at hall
      refine hall.trans (List.Perm.of_eq (List.filter_congr fun x _ => ?_))
      rw [Bool.and_eq_left_iff_imp]
      intro hx
      simpa using hmy.trans (by simpa using hx)
    obtain ⟨hsorted', hrest'⟩ := (hlists (i + 1)).after hyR hid hsole
    have hrank' : R.countP (fun x => key x ≤ key y) = (i + 1) * limit := by
      have hupto := countP_above (f := fun x => key x ≤ key y) hrest
        fun x hx => by simpa using hx.trans hmy.le
      have hfirst : p.countP (fun x => key x ≤ key y) = p.length :=
        List.countP_eq_length.mpr fun x hx => by simpa using (sorted_append_cons hsorted).1 x hx
      have hlast : q.countP (fun x => key x ≤ key y) = 0 :=
        List.countP_eq_zero.mpr fun x hx => by simpa using hlarger x hx
      rw [List.countP_append, hfirst, List.countP_cons_of_pos (by simp), hlast] at hupto
      rw [hupto, hrank, Nat.succ_mul]
      omega
    have hless : (after id blank (id y) (lists (i + 1))).length <
        (after id blank c (lists i)).length := by
      rw [hcut, hrest'.length_eq, ← hq'.length_eq, List.length_append, List.length_cons]
      omega
    obtain ⟨fuel, out, hout, hperm, hsort⟩ := ih _ hless hsorted' hrest' hrank' rfl
    refine ⟨fuel + 1, p ++ [y] ++ out, ?_, ?_, ?_⟩
    · rw [collect_next hcut hp hq, if_neg hid, hout]
      rfl
    · rw [List.append_assoc, List.singleton_append]
      exact (((hperm.trans hq'.symm).cons y).append_left p).trans hrest
    · obtain ⟨hsp, -, hcross⟩ := List.pairwise_append.mp hsorted
      rw [List.append_assoc, List.singleton_append]
      have hout : ∀ x ∈ out, key y < key x := fun x hx => by
        simpa using (List.mem_filter.mp (hperm.mem_iff.mp hx)).2
      refine List.pairwise_append.mpr ⟨hsp, List.pairwise_cons.mpr
        ⟨fun x hx => (hout x hx).le, hsort⟩, fun x hx z hz => ?_⟩
      have hxy := hcross x hx y List.mem_cons_self
      rcases List.mem_cons.mp hz with rfl | hz
      · exact hxy
      · exact hxy.trans (hout z hz).le
  · exact ⟨1, _, collect_last hshort, hrest, hsorted⟩

/-- **Pages fit together** if they end only where they should. -/
theorem collect_complete (hlimit : 1 ≤ limit) (hR : (R.map id).Nodup)
    (hfirst : (lists 0).Perm R) (hlists : ∀ i, Extends key id R (lists i))
    (hdivides : Divides key id blank limit R) :
    ∃ fuel out, collect id blank limit lists fuel 0 blank = some out ∧ out.Perm R ∧
      Sorted key out := by
  -- a bound below all keys
  obtain ⟨m, hm⟩ : ∃ m, ∀ x ∈ R, m < key x := by
    refine ⟨-(R.map fun x => |key x|).sum - 1, fun x hx => ?_⟩
    have hle := List.single_le_sum (l := R.map fun x => |key x|)
      (fun n hn => by obtain ⟨x, -, rfl⟩ := List.mem_map.mp hn; exact abs_nonneg _) _
      (List.mem_map_of_mem hx)
    have := neg_abs_le (key x)
    omega
  have hall : R.filter (fun x => m < key x) = R :=
    List.filter_eq_self.mpr fun x hx => by simpa using hm x hx
  have hnone : R.countP (fun x => key x ≤ m) = 0 * limit := by
    rw [zero_mul, List.countP_eq_zero]
    exact fun x hx => by simpa using hm x hx
  have h := collect_above (c := blank) hlimit hR hlists hdivides
    (by rw [after_blank]; exact (hlists 0).sorted) (by rw [after_blank, hall]; exact hfirst) hnone
  rwa [hall] at h

/-! ### Pages that do not -/

lemma collect_cases (hlimit : 1 ≤ limit)
    (h : collect id blank limit lists fuel i c = some out) :
    (after id blank c (lists i)).length ≤ limit ∧ out = after id blank c (lists i) ∨
      ∃ p y q, after id blank c (lists i) = p ++ y :: q ∧ p.length + 1 = limit ∧ q ≠ [] ∧
        (id y = blank ∧ out = p ++ [y] ∨
          id y ≠ blank ∧ ∃ fuel' out', collect id blank limit lists fuel' (i + 1) (id y) =
            some out' ∧ out = p ++ [y] ++ out') := by
  rcases fuel with _ | fuel
  · cases h
  · rcases Nat.lt_or_ge limit (after id blank c (lists i)).length with hlong | hshort
    · obtain ⟨p, y, q, hcut, hp, hq⟩ := exists_cut hlimit hlong
      rw [collect_next hcut hp hq] at h
      refine .inr ⟨p, y, q, hcut, hp, hq, ?_⟩
      split_ifs at h with hy
      · exact .inl ⟨hy, (Option.some.inj h).symm⟩
      · obtain ⟨out', hout', rfl⟩ := Option.map_eq_some_iff.mp h
        exact .inr ⟨hy, fuel, out', hout', rfl⟩
    · rw [collect_last hshort] at h
      exact .inl ⟨hshort, (Option.some.inj h).symm⟩

/-- The first element that is left is always on the page. -/
lemma head_mem_collect (hlimit : 1 ≤ limit) (hafter : after id blank c (lists i) = x :: rest)
    (h : collect id blank limit lists fuel i c = some out) : x ∈ out := by
  rcases collect_cases hlimit h with ⟨-, rfl⟩ | ⟨p, y, q, hcut, -, -, hout⟩
  · rw [hafter]
    exact List.mem_cons_self
  · have hx : x ∈ p ++ [y] := by
      rw [hafter] at hcut
      cases p with
      | nil =>
        cases hcut
        exact List.mem_singleton_self _
      | cons z p =>
        cases hcut
        exact List.mem_cons_self
    rcases hout with ⟨-, rfl⟩ | ⟨-, -, out', -, rfl⟩
    · exact hx
    · exact List.mem_append_left _ hx

lemma collect_subset (hlimit : 1 ≤ limit) (hl : (l.map id).Nodup) (hsame : ∀ j, i ≤ j → lists j = l)
    (h : collect id blank limit lists fuel i c = some out) : out ⊆ after id blank c l := by
  induction fuel generalizing i c out with
  | zero => cases h
  | succ fuel ih =>
    rcases Nat.lt_or_ge limit (after id blank c l).length with hlong | hshort
    · obtain ⟨p, y, q, hcut, hp, hq⟩ := exists_cut hlimit hlong
      rw [collect_next (by rw [hsame i le_rfl, hcut]) hp hq] at h
      rw [hcut]
      split_ifs at h with hy
      · cases h
        exact List.append_subset.mpr ⟨by simp, by simp⟩
      · obtain ⟨out', hout', rfl⟩ := Option.map_eq_some_iff.mp h
        obtain ⟨u, hu⟩ : after id blank c l <:+ l := after_suffix c l
        have hafter : after id blank (id y) l = q := by
          rw [← hu, hcut, ← List.append_assoc] at hl ⊢
          exact after_middle hy (ids_of_nodup hl)
        have hsub := ih (fun j hj => hsame j (by omega)) hout'
        rw [hafter] at hsub
        rw [List.append_assoc, List.singleton_append]
        exact List.append_subset.mpr ⟨List.subset_append_left _ _,
          List.cons_subset.mpr ⟨by simp, List.Subset.trans hsub (by simp)⟩⟩
    · rw [collect_last (by rw [hsame i le_rfl]; exact hshort), hsame i le_rfl] at h
      cases h
      exact List.Subset.refl _

/-- The first pages of a list that does not change before the `k`-th of them ends. -/
lemma collect_until (hlimit : 1 ≤ limit) (hl : ((a ++ y :: b).map id).Nodup)
    (ha : a.length + 1 = k * limit) (hb : b ≠ []) (hsame : ∀ j < k, lists j = a ++ y :: b)
    (hid : ∀ u z v j, a = u ++ z :: v → j < k → u.length + 1 = j * limit → id z ≠ blank)
    {d : ℕ} (hd : i + d + 1 = k) (hrest : a ++ y :: b = l ++ rest) (hlength : l.length = i * limit)
    (hafter : after id blank c (a ++ y :: b) = rest)
    (h : collect id blank limit lists fuel i c = some out) :
    id y = blank ∧ l ++ out = a ++ [y] ∨
      id y ≠ blank ∧ ∃ fuel' out', collect id blank limit lists fuel' k (id y) = some out' ∧
        l ++ out = a ++ [y] ++ out' := by
  have hb' := List.length_pos_iff.mpr hb
  induction d generalizing i c l rest fuel out with
  | zero =>
    have hk : k * limit = i * limit + limit := by rw [← hd]; ring
    rcases collect_cases hlimit h with ⟨hshort, -⟩ | ⟨p, z, q, hcut, hp, -, hout⟩ <;>
      rw [hsame i (by omega), hafter] at *
    · have hlengths := congrArg List.length hrest
      simp only [List.length_append, List.length_cons] at hlengths
      omega
    · -- this page ends where the lists have been cut
      rw [hcut, ← List.append_assoc] at hrest
      obtain ⟨rfl, hyz⟩ := List.append_inj hrest (by rw [List.length_append]; omega)
      obtain ⟨rfl, rfl⟩ := List.cons.inj hyz
      rcases hout with ⟨hy, rfl⟩ | ⟨hy, fuel', out', hout', rfl⟩
      · exact .inl ⟨hy, (List.append_assoc _ _ _).symm⟩
      · refine .inr ⟨hy, fuel', out', ?_, by simp only [List.append_assoc]⟩
        rwa [← hd]
  | succ d ih =>
    have hk : k * limit = i * limit + limit + (d + 1) * limit := by rw [← hd]; ring
    have hpos : limit ≤ (d + 1) * limit := Nat.le_mul_of_pos_left _ (by omega)
    rcases collect_cases hlimit h with ⟨hshort, -⟩ | ⟨p, z, q, hcut, hp, -, hout⟩ <;>
      rw [hsame i (by omega), hafter] at *
    · have hlengths := congrArg List.length hrest
      simp only [List.length_append, List.length_cons] at hlengths
      omega
    · rw [hcut, ← List.append_assoc] at hrest
      -- this page ends before
      obtain ⟨v, hv⟩ : ∃ v, a = (l ++ p) ++ z :: v := by
        rcases List.append_eq_append_iff.mp hrest with ⟨u, hu, -⟩ | ⟨u, hu, hzq⟩
        · have hlengths := congrArg List.length hu
          simp only [List.length_append] at hlengths
          omega
        · cases u with
          | nil =>
            have hlengths := congrArg List.length hu
            simp only [List.length_append, List.length_nil] at hlengths
            omega
          | cons w v =>
            obtain ⟨rfl, -⟩ := List.cons.inj hzq
            exact ⟨v, hu⟩
      have hz : id z ≠ blank :=
        hid (l ++ p) z v (i + 1) hv (by omega) (by rw [List.length_append, Nat.succ_mul]; omega)
      rcases hout with ⟨hblank, -⟩ | ⟨-, fuel', out', hout', rfl⟩
      · exact absurd hblank hz
      · have hrest' : a ++ y :: b = (l ++ p ++ [z]) ++ q := by
          rw [hrest, List.append_assoc _ [z], List.singleton_append]
        have hafter' : after id blank (id z) (a ++ y :: b) = q := by
          rw [hrest] at hl ⊢
          exact after_middle hz (ids_of_nodup hl)
        have hlength' : (l ++ p ++ [z]).length = (i + 1) * limit := by
          simp only [List.length_append, List.length_singleton, Nat.succ_mul]
          omega
        have hnext := ih (by omega) hrest' hlength' hafter' hout'
        simpa only [List.append_assoc] using hnext

/-- In a sorted list a page ends with an element that stands at its end. -/
lemma endsAt_of_sorted (hsorted : Sorted key (a ++ y :: b)) (hperm : (a ++ y :: b).Perm R)
    (ha : a.length + 1 = k * limit) (hk : k * limit < R.length) : EndsAt key limit k R y := by
  obtain ⟨hbefore, hbehind⟩ := sorted_append_cons hsorted
  have hfirst : a.countP (fun x => key x ≤ key y) = a.length :=
    List.countP_eq_length.mpr fun x hx => by simpa using hbefore x hx
  have hlast : b.countP (fun x => key x < key y) = 0 :=
    List.countP_eq_zero.mpr fun x hx => by simpa using hbehind x hx
  have hpart : a.countP (fun x => key x < key y) ≤ a.length := List.countP_le_length
  refine ⟨?_, ?_, hk⟩
  · rw [← hperm.countP_eq, List.countP_append, List.countP_cons_of_neg (by simp), hlast]
    omega
  · rw [← hperm.countP_eq, List.countP_append, List.countP_cons_of_pos (by simp), hfirst]
    omega

/-- All elements that the `k`-th page can end with have one key. -/
lemma EndsAt.key_eq (h : EndsAt key limit k R x) (hsorted : Sorted key (a ++ y :: b))
    (hperm : (a ++ y :: b).Perm R) (ha : a.length + 1 = k * limit) : key x = key y := by
  obtain ⟨hless, hupto, -⟩ := h
  obtain ⟨hbefore, hbehind⟩ := sorted_append_cons hsorted
  rw [← hperm.countP_eq, List.countP_append] at hless hupto
  refine le_antisymm (not_lt.mp fun hlt => ?_) (not_lt.mp fun hlt => ?_)
  · -- all up to the end of the page would be smaller
    have hfirst : a.countP (fun z => key z < key x) = a.length :=
      List.countP_eq_length.mpr fun z hz => by simpa using (hbefore z hz).trans_lt hlt
    rw [hfirst, List.countP_cons_of_pos (by simpa using hlt)] at hless
    omega
  · -- all from the end of the page on would be larger
    have hlast : (y :: b).countP (fun z => key z ≤ key x) = 0 := by
      rw [List.countP_eq_zero]
      intro z hz
      rcases List.mem_cons.mp hz with rfl | hz
      · simpa using hlt
      · simpa using hlt.trans_le (hbehind z hz)
    have hpart : a.countP (fun z => key z ≤ key x) ≤ a.length := List.countP_le_length
    omega

/-- Calls that see one list before the `k`-th and another one from then on. -/
def switch (k : ℕ) (l l' : List α) (i : ℕ) : List α := if i < k then l else l'

lemma switch_of_lt {l' : List α} {i : ℕ} (h : i < k) : switch k l l' i = l := if_pos h

lemma switch_of_le {l' : List α} {i : ℕ} (h : k ≤ i) : switch k l l' i = l' := if_neg (by omega)

/-- The pages are complete, whatever order equal keys have in each call. -/
def AlwaysComplete (key : α → ℤ) (id : α → ι) (blank : ι) (limit : ℕ) (R : List α) : Prop :=
  ∀ lists : ℕ → List α, (∀ i, (lists i).Perm R ∧ Sorted key (lists i)) →
    ∃ fuel out, collect id blank limit lists fuel 0 blank = some out ∧ out.Perm R

/-- What the calls give if equal keys change places after the `k`-th page. -/
lemma AlwaysComplete.switched {l' : List α} (h : AlwaysComplete key id blank limit R)
    (hlimit : 1 ≤ limit) (hR : (R.map id).Nodup) (hsorted : Sorted key (a ++ y :: b))
    (hperm : (a ++ y :: b).Perm R) (hsorted' : Sorted key l') (hperm' : l'.Perm R)
    (ha : a.length + 1 = k * limit) (hb : b ≠ [])
    (hid : ∀ u z v j, a = u ++ z :: v → j < k → u.length + 1 = j * limit → id z ≠ blank) :
    id y ≠ blank ∧ ∃ fuel out, collect id blank limit (switch k (a ++ y :: b) l') fuel k (id y) =
      some out ∧ (a ++ [y] ++ out).Perm R := by
  have hl : ((a ++ y :: b).map id).Nodup := (hperm.map id).nodup_iff.mpr hR
  have hk : 0 < k := by
    rcases Nat.eq_zero_or_pos k with rfl | hk
    · omega
    · exact hk
  obtain ⟨fuel, out, hout, houtR⟩ := h (switch k (a ++ y :: b) l') fun i => by
    unfold switch
    split_ifs
    · exact ⟨hperm, hsorted⟩
    · exact ⟨hperm', hsorted'⟩
  rcases collect_until hlimit hl ha hb (fun j hj => switch_of_lt hj) hid (d := k - 1) (l := [])
    (by omega) rfl (by simp) after_blank hout with ⟨-, hends⟩ | ⟨hy, fuel', out', hout', hends⟩
  · -- a page that ends with a blank cursor is taken for the last one
    rw [List.nil_append] at hends
    have hlengths := hperm.length_eq.trans houtR.length_eq.symm
    have := List.length_pos_iff.mpr hb
    rw [hends] at hlengths
    simp only [List.length_append, List.length_cons, List.length_nil] at hlengths
    omega
  · rw [List.nil_append] at hends
    rw [hends] at houtR
    exact ⟨hy, fuel', out', hout', houtR⟩

/-- An element with the key of the next one could be read twice. -/
lemma AlwaysComplete.key_ne_before (h : AlwaysComplete key id blank limit R) (hlimit : 1 ≤ limit)
    (hR : (R.map id).Nodup) (hsorted : Sorted key (a ++ x :: y :: b))
    (hperm : (a ++ x :: y :: b).Perm R) (ha : a.length + 2 = k * limit) (hb : b ≠ [])
    (hid : ∀ u z v j, a ++ [x] = u ++ z :: v → j < k → u.length + 1 = j * limit → id z ≠ blank) :
    key x ≠ key y := by
  intro heq
  have hsplit : a ++ x :: y :: b = (a ++ [x]) ++ y :: b := by simp
  rw [hsplit] at hsorted hperm
  have hswap : (a ++ y :: x :: b).Perm ((a ++ [x]) ++ y :: b) := by
    rw [← hsplit]
    exact (List.Perm.swap x y b).append_left a
  have hsorted' : Sorted key (a ++ y :: x :: b) := hsorted.congr (by simp [heq])
  obtain ⟨hy, fuel, out, hout, houtR⟩ := h.switched hlimit hR hsorted hperm hsorted'
    (hswap.trans hperm) (by simpa using ha) hb hid
  have hl : ((a ++ y :: x :: b).map id).Nodup := ((hswap.trans hperm).map id).nodup_iff.mpr hR
  have hafter : after id blank (id y) (switch k (a ++ [x] ++ y :: b) (a ++ y :: x :: b) k) =
      x :: b := by
    rw [switch_of_le le_rfl, after_middle hy (ids_of_nodup hl)]
  have hx : x ∈ out := head_mem_collect hlimit hafter hout
  have hnodup := houtR.nodup_iff.mpr hR.of_map
  exact (List.nodup_append.mp hnodup).2.2 x (by simp) x hx rfl

/-- An element with the key of the one before could be left out. -/
lemma AlwaysComplete.key_ne_behind (h : AlwaysComplete key id blank limit R) (hlimit : 1 ≤ limit)
    (hR : (R.map id).Nodup) (hsorted : Sorted key (a ++ y :: x :: b))
    (hperm : (a ++ y :: x :: b).Perm R) (ha : a.length + 1 = k * limit)
    (hid : ∀ u z v j, a = u ++ z :: v → j < k → u.length + 1 = j * limit → id z ≠ blank) :
    key x ≠ key y := by
  intro heq
  have hswap : (a ++ x :: y :: b).Perm (a ++ y :: x :: b) :=
    (List.Perm.swap y x b).append_left a
  have hsorted' : Sorted key (a ++ x :: y :: b) := hsorted.congr (by simp [heq])
  obtain ⟨hy, fuel, out, hout, houtR⟩ := h.switched hlimit hR hsorted hperm hsorted'
    (hswap.trans hperm) ha (List.cons_ne_nil _ _) hid
  have hl : (((a ++ [x]) ++ y :: b).map id).Nodup := by
    rw [List.append_assoc, List.singleton_append]
    exact ((hswap.trans hperm).map id).nodup_iff.mpr hR
  have hafter : after id blank (id y) (a ++ x :: y :: b) = b := by
    have hsplit : a ++ x :: y :: b = (a ++ [x]) ++ y :: b := by simp
    rw [hsplit, after_middle hy (ids_of_nodup hl)]
  have hsub : out ⊆ b := by
    rw [← hafter]
    refine collect_subset hlimit ?_ (fun j hj => switch_of_le hj) hout
    simpa using hl
  have hx : x ∈ a ++ [y] ++ out := houtR.mem_iff.mpr (hperm.mem_iff.mp (by simp))
  have hnodup : (a ++ y :: x :: b).Nodup := hperm.nodup_iff.mpr hR.of_map
  simp only [List.mem_append, List.mem_singleton] at hx
  rw [List.nodup_append, List.nodup_cons, List.nodup_cons] at hnodup
  rcases hx with (hx | rfl) | hx
  · exact hnodup.2.2 x hx x (by simp) rfl
  · exact hnodup.2.1.1 List.mem_cons_self
  · exact hnodup.2.1.2.1 (hsub hx)

/-- **Pages that always fit together** end only where they should. -/
theorem divides_of_alwaysComplete (hlimit : 1 ≤ limit) (hR : (R.map id).Nodup)
    (h : AlwaysComplete key id blank limit R) : Divides key id blank limit R := by
  intro k
  induction k using Nat.strong_induction_on with
  | _ k ih =>
  intro x hx hends
  have hsorted := (insertion key).sorted R
  have hperm := (insertion key).perm R
  have hpos : 1 ≤ k * limit := Nat.one_le_of_lt hends.1
  obtain ⟨a, y, b, hcut, ha, hb⟩ := exists_cut hpos (hends.2.2.trans_eq hperm.length_eq.symm)
  rw [hcut] at hsorted hperm
  -- the pages before end with elements that have an identifier
  have hid : ∀ u z v j, a = u ++ z :: v → j < k → u.length + 1 = j * limit → id z ≠ blank := by
    rintro u z v j rfl hj hu
    rw [List.append_assoc, List.cons_append] at hsorted hperm
    have hz := endsAt_of_sorted hsorted hperm hu (by
      have := Nat.mul_le_mul_right limit hj.le
      exact this.trans_lt hends.2.2)
    exact (ih j hj z (hperm.mem_iff.mp (by simp)) hz).1
  have hy := (h.switched hlimit hR hsorted hperm hsorted hperm ha hb hid).1
  have hsole : Sole key R y := by
    intro z hz heq
    rcases List.mem_append.mp (hperm.mem_iff.mpr hz) with hza | hzb
    · -- then so has the element right before
      obtain ⟨a', w, rfl⟩ := (List.eq_nil_or_concat' a).resolve_left (List.ne_nil_of_mem hza)
      have hlast : key z ≤ key w := by
        have hinit := (List.pairwise_append.mp hsorted).1
        rcases List.mem_append.mp hza with hz' | hz'
        · exact (sorted_append_cons hinit).1 z hz'
        · rw [List.mem_singleton.mp hz']
      have hw := (sorted_append_cons hsorted).1 w (by simp)
      have hjoin : a' ++ [w] ++ y :: b = a' ++ w :: y :: b := by simp
      refine absurd (le_antisymm hw (heq ▸ hlast)) (h.key_ne_before hlimit hR
        (hjoin ▸ hsorted) (hjoin ▸ hperm) (by simpa using ha) hb hid)
    · rcases List.mem_cons.mp hzb with rfl | hzb
      · rfl
      · -- then so has the element right behind
        obtain ⟨w, b', rfl⟩ := List.exists_cons_of_ne_nil hb
        have hfirst : key w ≤ key z := by
          have htail := (List.pairwise_cons.mp (List.pairwise_append.mp hsorted).2.1).2
          rcases List.mem_cons.mp hzb with rfl | hz'
          · exact le_rfl
          · exact (List.pairwise_cons.mp htail).1 z hz'
        have hw := (sorted_append_cons hsorted).2 w (by simp)
        exact absurd (le_antisymm (heq ▸ hfirst) hw)
          (h.key_ne_behind hlimit hR hsorted hperm ha hid)
  obtain rfl := hsole x hx (hends.key_eq hsorted hperm ha)
  exact ⟨hy, hsole⟩

end Workforce.Paging
