import Mathlib.Data.List.AList
import Mathlib.Tactic

/-!
Tables: finite maps whose values know their own key.

A table stores every value under the key the value itself carries, so writing a value
needs no key and reading the table back value by value loses nothing. The order of the
entries is the order one enumeration of the map happens to give.
-/

namespace Workforce.Tables

variable {K V : Type} [DecidableEq K]

/-- A finite map that keeps each value under the key `key` reads off it. -/
structure Table (key : V → K) where
  map : AList (fun _ : K => V)
  own : ∀ k v, map.lookup k = some v → key v = k

namespace Table

variable {key : V → K}

def empty (key : V → K) : Table key := ⟨∅, by simp⟩

def get (t : Table key) (k : K) : Option V := t.map.lookup k

end Table

open Table

variable {key : V → K}

variable {t : Table key} {k : K} {v : V}

lemma key_of_get (h : t.get k = some v) : key v = k :=
  t.own k v h

def Table.put (t : Table key) (v : V) : Table key where
  map := t.map.insert (key v) v
  own := by
    intro k w h
    by_cases hk : k = key v
    · subst hk
      rw [AList.lookup_insert] at h
      cases h; rfl
    · rw [AList.lookup_insert_ne hk] at h
      exact t.own k w h

def Table.erase (t : Table key) (k : K) : Table key where
  map := t.map.erase k
  own := by
    intro k' w h
    by_cases hk : k' = k
    · subst hk
      rw [AList.lookup_erase] at h
      cases h
    · rw [AList.lookup_erase_ne hk] at h
      exact t.own k' w h

/-- Change the value under `k` in place; nothing happens when there is none. -/
def Table.modify (t : Table key) (k : K) (f : V → V) : Table key :=
  match t.get k with
  | some v => t.put (f v)
  | none => t

/-- The values, in the order of one enumeration. -/
def Table.values (t : Table key) : List V := t.map.entries.map Sigma.snd

@[simp] lemma get_empty (k : K) : (empty key).get k = none := rfl

lemma get_put (t : Table key) (v : V) (k : K) :
    (t.put v).get k = if k = key v then some v else t.get k := by
  split_ifs with h
  · subst h; exact AList.lookup_insert _
  · exact AList.lookup_insert_ne h

@[simp] lemma get_put_self (t : Table key) (v : V) : (t.put v).get (key v) = some v := by
  simp [get_put]

lemma get_put_of_new {t : Table key} {v w : V} {k : K} (hnew : t.get (key v) = none)
    (h : t.get k = some w) : (t.put v).get k = some w := by
  rw [get_put, if_neg, h]
  rintro rfl
  cases hnew.symm.trans h

lemma get_erase (t : Table key) (k k' : K) :
    (t.erase k).get k' = if k' = k then none else t.get k' := by
  split_ifs with h
  · subst h; exact AList.lookup_erase _ _
  · exact AList.lookup_erase_ne h

lemma modify_of_none {f : V → V} (h : t.get k = none) : t.modify k f = t := by
  unfold Table.modify
  rw [h]

lemma get_modify (t : Table key) (k k' : K) {f : V → V} (hf : ∀ v, key (f v) = key v) :
    (t.modify k f).get k' = if k' = k then (t.get k).map f else t.get k' := by
  unfold Table.modify
  rcases h : t.get k with _ | v
  · split_ifs with hk
    · subst hk; simp [h]
    · rfl
  · have hv : key v = k := key_of_get h
    simp only [get_put, hf, hv, Option.map_some]

lemma mem_values : v ∈ t.values ↔ t.get (key v) = some v := by
  unfold Table.values Table.get
  simp only [List.mem_map]
  constructor
  · rintro ⟨⟨k, w⟩, hm, rfl⟩
    have hl : t.map.lookup k = some w := AList.mem_lookup_iff.mpr hm
    rw [t.own k w hl]
    exact hl
  · intro h
    exact ⟨⟨key v, v⟩, AList.mem_lookup_iff.mp h, rfl⟩

lemma mem_values_of_get (h : t.get k = some v) : v ∈ t.values :=
  mem_values.mpr ((key_of_get h).symm ▸ h)

lemma get_eq_none_iff : t.get k = none ↔ k ∉ t.values.map key := by
  rw [← not_iff_not, not_not, ← ne_eq, Option.ne_none_iff_exists', List.mem_map]
  constructor
  · rintro ⟨v, hv⟩
    exact ⟨v, mem_values_of_get hv, key_of_get hv⟩
  · rintro ⟨v, hv, rfl⟩
    exact ⟨v, mem_values.mp hv⟩

lemma forall_get_ne_none {P : K → Prop} :
    (∀ k, t.get k ≠ none → P k) ↔ ∀ v ∈ t.values, P (key v) := by
  refine ⟨fun h v hv => h _ (by rw [mem_values.mp hv]; simp), fun h k hk => ?_⟩
  obtain ⟨v, hv⟩ := Option.ne_none_iff_exists'.mp hk
  exact key_of_get hv ▸ h v (mem_values_of_get hv)

lemma nodup_values (t : Table key) : t.values.Nodup := by
  refine List.Nodup.map_on ?_ (List.NodupKeys.nodup t.map.nodupKeys)
  rintro ⟨k, v⟩ hk ⟨k', v'⟩ hk' (h : v = v')
  subst h
  have h1 := t.own k v (AList.mem_lookup_iff.mpr hk)
  have h2 := t.own k' v (AList.mem_lookup_iff.mpr hk')
  subst h1
  subst h2
  rfl

lemma nodup_keys (t : Table key) : (t.values.map key).Nodup := by
  refine List.Nodup.map_on (fun v hv w hw h => ?_) (nodup_values t)
  rw [mem_values] at hv hw
  rw [h, hw] at hv
  exact (Option.some.inj hv).symm

/-- Take out the values under all these keys. -/
def Table.eraseAll (t : Table key) (l : List K) : Table key := l.foldl erase t

lemma get_eraseAll (l : List K) (t : Table key) (k : K) :
    (t.eraseAll l).get k = if k ∈ l then none else t.get k := by
  induction l generalizing t with
  | nil => simp [eraseAll]
  | cons a l ih =>
    have hcons : t.eraseAll (a :: l) = (t.erase a).eraseAll l := rfl
    rw [hcons, ih, get_erase]
    by_cases hl : k ∈ l
    · simp [hl]
    · by_cases ha : k = a <;> simp [hl, ha]

lemma perm_values_erase (h : t.get k = some v) : (v :: (t.erase k).values).Perm t.values := by
  have hv : key v = k := key_of_get h
  have hnew : v ∉ (t.erase k).values := by
    rw [mem_values, get_erase, if_pos hv]
    exact fun h => nomatch h
  refine (List.perm_ext_iff_of_nodup (List.nodup_cons.mpr ⟨hnew, nodup_values _⟩)
    (nodup_values t)).mpr fun u => ?_
  rw [List.mem_cons, mem_values, mem_values, get_erase]
  by_cases hu : key u = k
  · rw [if_pos hu, hu, h]
    simp [eq_comm]
  · rw [if_neg hu]
    exact or_iff_right fun heq => hu (heq ▸ hv)

def Table.total (f : V → ℤ) (t : Table key) : ℤ := (t.values.map f).sum

variable {f : V → ℤ}

lemma total_erase (h : t.get k = some v) : (t.erase k).total f = t.total f - f v := by
  have hsum := ((perm_values_erase h).map f).sum_eq
  rw [List.map_cons, List.sum_cons] at hsum
  unfold total
  omega

lemma values_erase_of_none (h : t.get k = none) : (t.erase k).values = t.values := by
  have hkeys : t.map.entries.kerase k = t.map.entries :=
    List.kerase_of_notMem_keys (AList.lookup_eq_none.mp h)
  change (t.map.entries.kerase k).map Sigma.snd = t.map.entries.map Sigma.snd
  rw [hkeys]

lemma total_put (t : Table key) (v : V) :
    (t.put v).total f = t.total f + f v - ((t.get (key v)).map f).getD 0 := by
  have hput : (t.put v).total f = f v + (t.erase (key v)).total f := List.sum_cons
  rw [hput]
  rcases h : t.get (key v) with _ | w
  · rw [Option.map_none, Option.getD_none, total, values_erase_of_none h, total]
    omega
  · rw [Option.map_some, Option.getD_some, total_erase h]
    omega

lemma total_modify {g : V → V} (hkey : ∀ v, key (g v) = key v) (hf : ∀ v, f (g v) = f v)
    (t : Table key) (k : K) : (t.modify k g).total f = t.total f := by
  unfold Table.modify
  rcases h : t.get k with _ | v
  · rfl
  · have hold : t.get (key (g v)) = some v := by rw [hkey, key_of_get h, h]
    rw [total_put, hold, hf, Option.map_some, Option.getD_some]
    omega

lemma total_nonneg (h : ∀ v ∈ t.values, 0 ≤ f v) : 0 ≤ t.total f :=
  List.sum_nonneg fun _ hn => by
    obtain ⟨v, hv, rfl⟩ := List.mem_map.mp hn
    exact h v hv

lemma mem_values_of_mem_erase (h : v ∈ (t.erase k).values) : v ∈ t.values := by
  rw [mem_values, get_erase] at h
  split_ifs at h
  exact mem_values.mpr h

lemma mem_values_of_mem_put {u : V} (h : u ∈ (t.put v).values) : u = v ∨ u ∈ t.values := by
  rcases List.mem_cons.mp h with rfl | h
  · exact .inl rfl
  · exact .inr (mem_values_of_mem_erase h)

def Table.putAll (t : Table key) (l : List V) : Table key := l.foldl put t

lemma get_putAll_of_notMem (l : List V) (t : Table key) (h : ∀ v ∈ l, key v ≠ k) :
    (t.putAll l).get k = t.get k := by
  induction l generalizing t with
  | nil => rfl
  | cons v l ih =>
    have hv : k ≠ key v := fun e => h v (by simp) e.symm
    show ((t.put v).putAll l).get k = t.get k
    rw [ih _ (fun w hw => h w (by simp [hw])), get_put, if_neg hv]

variable {l : List V}

lemma get_putAll_of_mem (hl : (l.map key).Nodup) (t : Table key) (hv : v ∈ l) :
    (t.putAll l).get (key v) = some v := by
  induction l generalizing t with
  | nil => cases hv
  | cons w l ih =>
    rw [List.map_cons, List.nodup_cons] at hl
    show ((t.put w).putAll l).get (key v) = some v
    rcases List.mem_cons.mp hv with rfl | hv
    · have hrest : ∀ w ∈ l, key w ≠ key v := fun w hw e => hl.1 (List.mem_map.mpr ⟨w, hw, e⟩)
      rw [get_putAll_of_notMem l _ hrest, get_put_self]
    · exact ih hl.2 _ hv

lemma mem_of_get_putAll (h : (t.putAll l).get k = some v) : v ∈ l ∨ t.get k = some v := by
  induction l generalizing t with
  | nil => exact .inr h
  | cons w l ih =>
    rcases ih (t := t.put w) h with hmem | hget
    · exact .inl (List.mem_cons_of_mem _ hmem)
    · rw [get_put] at hget
      split_ifs at hget
      · cases hget
        exact .inl List.mem_cons_self
      · exact .inr hget

/-- Writing the images of values gives the images of what writing the values gives. -/
lemma get_putAll_bind {f : V → Option V} (hf : ∀ v w, f v = some w → key w = key v) {l' : List V}
    (hl : List.Forall₂ (fun v w => f v = some w) l l') {t' : Table key}
    (ht : ∀ k, t'.get k = (t.get k).bind f) (k : K) :
    (t'.putAll l').get k = ((t.putAll l).get k).bind f := by
  induction hl generalizing t t' with
  | nil => exact ht k
  | @cons v w l l' hv _ ih =>
    refine ih fun k => ?_
    rw [get_put, get_put, hf v w hv]
    split_ifs
    · exact hv.symm
    · exact ht k

/-- Reading a table back value by value, in any order, gives the same table. -/
theorem get_putAll_perm (h : l.Perm t.values) (k : K) : ((empty key).putAll l).get k = t.get k := by
  have hkeys : (l.map key).Nodup := (h.map key).nodup_iff.mpr (nodup_keys t)
  rcases hk : t.get k with _ | v
  · rw [get_putAll_of_notMem, get_empty]
    intro v hv hkey
    rw [h.mem_iff, mem_values, hkey, hk] at hv
    cases hv
  · obtain rfl : key v = k := key_of_get hk
    exact get_putAll_of_mem hkeys _ (h.mem_iff.mpr (mem_values.mpr hk))

end Workforce.Tables
