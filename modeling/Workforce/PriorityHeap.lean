import Mathlib.Data.List.GetD
import Workforce.Heap
import Workforce.Runs

/-!
The priority queue of the dispatcher.

The queue is an array of pointers to items, kept as a heap; every item knows its position, so that
it can be updated in place. Popped items have the position `-1`.
-/

namespace Workforce.PriorityHeap

open Runs

abbrev Handle := ℕ

structure Item (T : Type) where
  Value : T
  Index : ℤ := 0

/-- The array of pointers, and the items they point to. -/
structure PriorityQueue (T : Type) where
  items : List Handle
  item : Handle → Item T
  /-- How many items have been made. -/
  made : ℕ

section Model

variable {T : Type}

def NewPriorityQueue [Inhabited T] : PriorityQueue T where
  items := []
  item _ := ⟨default, 0⟩
  made := 0

def setIndex (pq : PriorityQueue T) (id : Handle) (i : ℤ) : PriorityQueue T :=
  { pq with item := Function.update pq.item id { pq.item id with Index := i } }

/-- The pointer at a position of the array. -/
def pointer (pq : PriorityQueue T) (k : ℕ) : Handle := pq.items.getD k 0

def Swap (pq : PriorityQueue T) (i j : ℕ) : PriorityQueue T :=
  let swapped :=
    { pq with items := (pq.items.set i (pointer pq j)).set j (pointer pq i) }
  setIndex (setIndex swapped (pointer swapped i) i) (pointer swapped j) j

def Push (pq : PriorityQueue T) (id : Handle) : PriorityQueue T :=
  let marked := setIndex pq id pq.items.length
  { marked with items := marked.items ++ [id] }

def Pop (pq : PriorityQueue T) : Handle × PriorityQueue T :=
  let id := pointer pq (pq.items.length - 1)
  let marked := setIndex pq id (-1)
  (id, { marked with items := marked.items.dropLast })

@[simp] lemma setIndex_items (pq : PriorityQueue T) (id : Handle) (i : ℤ) :
    (setIndex pq id i).items = pq.items := rfl

@[simp] lemma setIndex_value (pq : PriorityQueue T) (id : Handle) (i : ℤ) (id' : Handle) :
    ((setIndex pq id i).item id').Value = (pq.item id').Value := by
  unfold setIndex
  by_cases h : id' = id
  · subst h
    simp
  · simp [h]

lemma setIndex_index (pq : PriorityQueue T) (id : Handle) (i : ℤ) (id' : Handle) :
    ((setIndex pq id i).item id').Index = if id' = id then i else (pq.item id').Index := by
  unfold setIndex
  by_cases h : id' = id
  · subst h
    simp
  · simp [h]

variable {i j : ℕ}

lemma getD_set_set {l : List Handle} (hi : i < l.length) (hj : j < l.length) (k : ℕ) :
    ((l.set i (l.getD j 0)).set j (l.getD i 0)).getD k 0 = l.getD (Equiv.swap i j k) 0 := by
  simp only [List.getD_eq_getElem?_getD, List.getElem?_set, List.length_set]
  by_cases hkj : j = k
  · subst hkj
    rw [if_pos rfl, if_pos hj, Equiv.swap_apply_right]
    rfl
  rw [if_neg hkj]
  by_cases hki : i = k
  · subst hki
    rw [if_pos rfl, if_pos hi, Equiv.swap_apply_left]
    rfl
  · rw [if_neg hki, Equiv.swap_apply_of_ne_of_ne (Ne.symm hki) (Ne.symm hkj)]

lemma pointer_swap {pq : PriorityQueue T} (hi : i < pq.items.length) (hj : j < pq.items.length)
    (k : ℕ) : pointer (Swap pq i j) k = pointer pq (Equiv.swap i j k) :=
  getD_set_set hi hj k

lemma swap_index {pq : PriorityQueue T} (hi : i < pq.items.length) (hj : j < pq.items.length)
    (id : Handle) :
    ((Swap pq i j).item id).Index =
      if id = pointer pq i then (j : ℤ) else if id = pointer pq j then i
      else (pq.item id).Index := by
  have hleft := getD_set_set hi hj i
  have hright := getD_set_set hi hj j
  rw [Equiv.swap_apply_left] at hleft
  rw [Equiv.swap_apply_right] at hright
  unfold Swap
  simp only [setIndex_index]
  simp only [pointer, hleft, hright]
  rfl

/-- The queue as `heap.Interface`. -/
def interface (T : Type) : Heap.Interface (PriorityQueue T) T where
  Len pq := pq.items.length
  value pq k := (pq.item (pointer pq k)).Value
  Swap := Swap
  len_swap _ _ _ := by simp [Swap]
  value_swap pq i j k hi hj := by
    rw [pointer_swap hi hj]
    simp [Swap]

variable (isHigherPriority : T → T → Prop) [DecidableRel isHigherPriority]

def PushItem (pq : PriorityQueue T) (value : T) : Handle × PriorityQueue T :=
  let id := pq.made
  let pushed :=
    Push { pq with item := Function.update pq.item id { Value := value }, made := id + 1 } id
  (id, Heap.up (interface T) isHigherPriority (pushed.items.length - 1) pushed)

def PopItem (pq : PriorityQueue T) : Option T × PriorityQueue T :=
  if pq.items = [] then (none, pq)
  else
    let (id, popped) := Pop (Heap.exchange (interface T) isHigherPriority pq)
    (some (popped.item id).Value, popped)

def Update (pq : PriorityQueue T) (id : Handle) (newValue : T) : PriorityQueue T :=
  let index := (pq.item id).Index
  if index < 0 ∨ pq.items.length ≤ index ∨ pointer pq index.toNat ≠ id then pq
  else
    let updated := { pq with item := Function.update pq.item id { pq.item id with Value := newValue } }
    Heap.Fix (interface T) isHigherPriority index.toNat updated

def Reheapify (pq : PriorityQueue T) : PriorityQueue T :=
  Heap.Init (interface T) isHigherPriority pq

/-- The values of queued items are changed in place. -/
def change (f : Handle → T → T) (pq : PriorityQueue T) : PriorityQueue T :=
  { pq with item := fun id =>
      if id ∈ pq.items then { pq.item id with Value := f id (pq.item id).Value } else pq.item id }

end Model

/-! ### What swaps keep -/

section Kept

variable {T : Type} {s t pq : PriorityQueue T} {i j : ℕ}

/-- Every item in the array knows its position. -/
def Indexed (pq : PriorityQueue T) : Prop :=
  ∀ k < pq.items.length, (pq.item (pointer pq k)).Index = k

lemma pointer_mem {k : ℕ} (hk : k < pq.items.length) : pointer pq k ∈ pq.items := by
  rw [pointer, List.getD_eq_getElem _ _ hk]
  exact List.getElem_mem hk

lemma Indexed.injective (h : Indexed pq) (hi : i < pq.items.length) (hj : j < pq.items.length)
    (heq : pointer pq i = pointer pq j) : i = j := by
  have hij := (h i hi).symm.trans (heq ▸ h j hj)
  exact_mod_cast hij

/-- Only the places of items that are in the array change, and all know their new ones. -/
structure Kept (s t : PriorityQueue T) : Prop where
  items : t.items.Perm s.items
  value : ∀ id, (t.item id).Value = (s.item id).Value
  made : t.made = s.made
  other : ∀ id, id ∉ s.items → (t.item id).Index = (s.item id).Index
  indexed : Indexed t

lemma Kept.refl (h : Indexed s) : Kept s s :=
  ⟨.refl _, fun _ => rfl, rfl, fun _ _ => rfl, h⟩

lemma Kept.swap (h : Kept s t) (hi : i < t.items.length) (hj : j < t.items.length) :
    Kept s (Swap t i j) where
  items := by
    refine List.Perm.trans ?_ h.items
    show ((t.items.set i (pointer t j)).set j (pointer t i)).Perm t.items
    rw [pointer, pointer, List.getD_eq_getElem _ _ hi, List.getD_eq_getElem _ _ hj]
    exact List.set_set_perm hi hj
  value id := by
    rw [← h.value id]
    simp [Swap]
  made := h.made
  other id hid := by
    have hid' : id ∉ t.items := fun hmem => hid (h.items.mem_iff.mp hmem)
    have hne {k : ℕ} (hk : k < t.items.length) : id ≠ pointer t k :=
      fun heq => hid' (heq ▸ pointer_mem hk)
    rw [swap_index hi hj, if_neg (hne hi), if_neg (hne hj), h.other id hid]
  indexed k hk := by
    replace hk : k < t.items.length := by simpa [Swap] using hk
    rw [pointer_swap hi hj, swap_index hi hj]
    by_cases hkj : k = j
    · rw [hkj, Equiv.swap_apply_right, if_pos rfl]
    by_cases hki : k = i
    · rw [hki, Equiv.swap_apply_left, if_neg, if_pos rfl]
      exact fun heq => hkj (hki.trans (h.indexed.injective hj hi heq).symm)
    · rw [Equiv.swap_apply_of_ne_of_ne hki hkj, if_neg, if_neg, h.indexed k hk]
      · exact fun heq => hkj (h.indexed.injective hk hj heq)
      · exact fun heq => hki (h.indexed.injective hk hi heq)

lemma kept_of_swaps {n : ℕ} (h : Heap.Swaps (interface T) n s t) (hn : n ≤ s.items.length)
    (hs : Indexed s) : Kept s t := by
  refine (h.invariant (I := fun u => Kept s u) (fun u i j hi hj hu => ?_) (.refl hs))
  have hlen := hu.items.length_eq
  exact hu.swap (by omega) (by omega)

end Kept

/-! ### The invariant -/

section Valid

variable {T : Type} (isHigherPriority : T → T → Prop)

/-- The heap order, positions and all. -/
structure Valid (pq : PriorityQueue T) : Prop where
  indexed : Indexed pq
  popped : ∀ id < pq.made, id ∉ pq.items → (pq.item id).Index = -1
  known : ∀ id ∈ pq.items, id < pq.made
  ordered : Heap.Ordered isHigherPriority ((interface T).value pq) pq.items.length

def content (pq : PriorityQueue T) : Multiset (Handle × T) :=
  (pq.items : Multiset Handle).map fun id => (id, (pq.item id).Value)

variable {isHigherPriority} {s t : PriorityQueue T}

lemma Kept.content_eq (h : Kept s t) : content t = content s := by
  unfold content
  rw [Multiset.coe_eq_coe.mpr h.items]
  exact Multiset.map_congr rfl fun id _ => by rw [h.value id]

lemma Kept.valid (h : Kept s t)
    (ht : Heap.Ordered isHigherPriority ((interface T).value t) t.items.length)
    (hpopped : ∀ id < s.made, id ∉ s.items → (s.item id).Index = -1)
    (hknown : ∀ id ∈ s.items, id < s.made) : Valid isHigherPriority t where
  indexed := h.indexed
  popped id hid hmem := by
    have hmem' : id ∉ s.items := fun hs => hmem (h.items.mem_iff.mpr hs)
    rw [h.other id hmem', hpopped id (h.made ▸ hid) hmem']
  known id hid := h.made ▸ hknown id (h.items.mem_iff.mp hid)
  ordered := ht

lemma valid_new [Inhabited T] : Valid isHigherPriority (NewPriorityQueue : PriorityQueue T) where
  indexed k hk := absurd hk (Nat.not_lt_zero k)
  popped id hid := absurd hid (Nat.not_lt_zero id)
  known _ hid := absurd hid List.not_mem_nil
  ordered k _ hk := absurd hk (Nat.not_lt_zero k)

lemma Valid.made_notMem (h : Valid isHigherPriority s) : s.made ∉ s.items :=
  fun hmem => lt_irrefl _ (h.known _ hmem)

/-! ### Pushing -/

def behind (s : PriorityQueue T) (value : T) : PriorityQueue T :=
  Push { s with
    item := Function.update s.item s.made { Value := value }, made := s.made + 1 } s.made

variable {value : T}

lemma behind_length : (behind s value).items.length = s.items.length + 1 := by
  simp [behind, Push]

lemma behind_item : (behind s value).item =
    Function.update s.item s.made ⟨value, s.items.length⟩ := by
  simp [behind, Push, setIndex]

variable {id : Handle}

lemma behind_item_old (h : Valid isHigherPriority s) (hid : id ∈ s.items) :
    (behind s value).item id = s.item id := by
  have hne : id ≠ s.made := fun heq => h.made_notMem (heq ▸ hid)
  rw [behind_item, Function.update_of_ne hne]

lemma behind_pointer {k : ℕ} (hk : k < s.items.length) :
    pointer (behind s value) k = pointer s k := List.getD_append _ _ _ _ hk

lemma behind_pointer_new : pointer (behind s value) s.items.length = s.made := by
  refine (List.getD_append_right _ _ _ _ le_rfl).trans ?_
  rw [Nat.sub_self]
  rfl

lemma indexed_behind (h : Valid isHigherPriority s) : Indexed (behind s value) := by
  intro k hk
  rw [behind_length] at hk
  rcases Nat.lt_succ_iff_lt_or_eq.mp hk with hk | rfl
  · rw [behind_pointer hk, behind_item_old h (pointer_mem hk)]
    exact h.indexed k hk
  · rw [behind_pointer_new, behind_item, Function.update_self]

lemma ordered_behind (h : Valid isHigherPriority s) :
    Heap.Ordered isHigherPriority ((interface T).value (behind s value)) s.items.length := by
  have hval (k : ℕ) (hk : k < s.items.length) :
      (interface T).value (behind s value) k = (interface T).value s k := by
    show ((behind s value).item (pointer (behind s value) k)).Value = (s.item (pointer s k)).Value
    rw [behind_pointer hk, behind_item_old h (pointer_mem hk)]
  intro k hk0 hk hm
  rw [hval k hk, hval _ ((Heap.parent_lt hk0).trans hk)]
  exact h.ordered k hk0 hk hm

lemma content_behind (h : Valid isHigherPriority s) :
    content (behind s value) = (s.made, value) ::ₘ content s := by
  have hitems : (behind s value).items = s.items ++ [s.made] := rfl
  unfold content
  rw [hitems, ← Multiset.coe_add, Multiset.map_add, add_comm, Multiset.coe_singleton,
    Multiset.map_singleton, Multiset.singleton_add]
  congr 1
  · rw [behind_item, Function.update_self]
  · refine Multiset.map_congr rfl fun id hid => ?_
    rw [behind_item_old h hid]

/-! ### Popping -/

/-- What `Pop` makes of a queue of `n + 1` items. -/
structure Taken (t : PriorityQueue T) (n : ℕ) (u : PriorityQueue T) : Prop where
  items : t.items = u.items ++ [pointer t n]
  item : u.item = (setIndex t (pointer t n) (-1)).item
  made : u.made = t.made

lemma taken_pop {n : ℕ} (hn : t.items.length = n + 1) : (Pop t).1 = pointer t n ∧
    Taken t n (Pop t).2 := by
  have hid : pointer t (t.items.length - 1) = pointer t n := by rw [hn, Nat.add_sub_cancel]
  have hne : t.items ≠ [] := fun h0 => by rw [h0] at hn; cases hn
  refine ⟨hid, ⟨?_, ?_, rfl⟩⟩
  · have hlast : t.items.getLast hne = pointer t (t.items.length - 1) := by
      rw [List.getLast_eq_getElem, pointer, List.getD_eq_getElem]
    rw [← hid, ← hlast]
    exact (List.dropLast_append_getLast hne).symm
  · show (setIndex t (pointer t (t.items.length - 1)) (-1)).item = _
    rw [hid]

variable {u : PriorityQueue T} {n : ℕ}

lemma Taken.length (h : Taken t n u) (hn : t.items.length = n + 1) : u.items.length = n := by
  rw [h.items, List.length_append] at hn
  exact Nat.succ.inj hn

lemma Taken.pointer_eq (h : Taken t n u) {k : ℕ} (hk : k < u.items.length) :
    pointer u k = pointer t k := by
  unfold pointer
  rw [h.items, List.getD_append _ _ _ _ hk]

lemma Taken.value_eq (h : Taken t n u) (id : Handle) : (u.item id).Value = (t.item id).Value := by
  rw [h.item, setIndex_value]

lemma Taken.content_eq (h : Taken t n u) :
    content t = (pointer t n, (t.item (pointer t n)).Value) ::ₘ content u := by
  unfold content
  rw [h.items, ← Multiset.coe_add, Multiset.map_add, add_comm, Multiset.coe_singleton,
    Multiset.map_singleton, Multiset.singleton_add]
  congr 1
  exact Multiset.map_congr rfl fun id _ => by rw [h.value_eq id]

lemma Taken.valid (h : Taken t n u) (hs : Valid isHigherPriority s) (hst : Kept s t)
    (hn : t.items.length = n + 1)
    (ht : Heap.Ordered isHigherPriority ((interface T).value t) n) :
    Valid isHigherPriority u where
  indexed k hk := by
    have hlen := h.length hn
    have hne : pointer t k ≠ pointer t n := fun heq => by
      have := hst.indexed.injective (by omega) (by omega) heq
      omega
    rw [h.pointer_eq hk, h.item, setIndex_index, if_neg hne]
    exact hst.indexed k (by omega)
  popped id hid hmem := by
    rw [h.item, setIndex_index]
    split_ifs with heq
    · rfl
    · have hmem' : id ∉ s.items := by
        rw [← hst.items.mem_iff, h.items, List.mem_append, List.mem_singleton, not_or]
        exact ⟨hmem, heq⟩
      rw [hst.other id hmem']
      exact hs.popped id (by rwa [h.made, hst.made] at hid) hmem'
  known id hid := by
    rw [h.made, hst.made]
    exact hs.known id (hst.items.mem_iff.mp (h.items ▸ List.mem_append_left _ hid))
  ordered := by
    have hval (k : ℕ) (hk : k < u.items.length) :
        (interface T).value u k = (interface T).value t k := by
      show (u.item (pointer u k)).Value = (t.item (pointer t k)).Value
      rw [h.pointer_eq hk, h.value_eq]
    intro k hk0 hk hm
    rw [hval k hk, hval _ ((Heap.parent_lt hk0).trans hk)]
    exact ht k hk0 (by rwa [h.length hn] at hk) hm

/-! ### Updating -/

def assign (s : PriorityQueue T) (id : Handle) (value : T) : PriorityQueue T :=
  { s with item := Function.update s.item id { s.item id with Value := value } }

lemma assign_index (id id' : Handle) :
    ((assign s id value).item id').Index = (s.item id').Index := by
  unfold assign
  by_cases h : id' = id
  · subst h
    simp
  · simp [h]

lemma assign_value_of_ne {id' : Handle} (h : id' ≠ id) :
    ((assign s id value).item id').Value = (s.item id').Value := by
  simp [assign, h]

lemma exists_pointer (h : id ∈ s.items) : ∃ k < s.items.length, pointer s k = id := by
  obtain ⟨k, hk, rfl⟩ := List.mem_iff_getElem.mp h
  exact ⟨k, hk, List.getD_eq_getElem _ _ hk⟩

lemma Valid.nodup (h : Valid isHigherPriority s) : s.items.Nodup := by
  rw [List.nodup_iff_injective_get]
  intro i j hij
  refine Fin.ext (h.indexed.injective i.isLt j.isLt ?_)
  rw [pointer, pointer, List.getD_eq_getElem _ _ i.isLt, List.getD_eq_getElem _ _ j.isLt]
  exact hij

lemma content_assign (h : Valid isHigherPriority s) (hid : id ∈ s.items) :
    ∃ rest, content s = (id, (s.item id).Value) ::ₘ rest ∧
      content (assign s id value) = (id, value) ::ₘ rest := by
  have hsplit : (s.items : Multiset Handle) = id ::ₘ (s.items.erase id : List Handle) :=
    Multiset.coe_eq_coe.mpr (List.perm_cons_erase hid)
  refine ⟨Multiset.map (fun id => (id, (s.item id).Value)) (s.items.erase id : List Handle),
    ?_, ?_⟩
  · unfold content
    rw [hsplit, Multiset.map_cons]
  · show Multiset.map (fun id' => (id', ((assign s id value).item id').Value))
      (s.items : Multiset Handle) = _
    rw [hsplit, Multiset.map_cons]
    congr 1
    · simp [assign]
    · refine Multiset.map_congr rfl fun id' hid' => ?_
      have hne : id' ≠ id := by
        rintro rfl
        exact h.nodup.not_mem_erase hid'
      rw [assign_value_of_ne hne]

lemma mem_content {v : T} : (id, v) ∈ content s ↔ id ∈ s.items ∧ v = (s.item id).Value := by
  simp only [content, Multiset.mem_map, Multiset.mem_coe, Prod.mk.injEq]
  constructor
  · rintro ⟨_, hid, rfl, rfl⟩
    exact ⟨hid, rfl⟩
  · rintro ⟨hid, rfl⟩
    exact ⟨id, hid, rfl, rfl⟩

/-! ### The operations -/

variable [DecidableRel isHigherPriority] [IsStrictWeakOrder T isHigherPriority]

/-- Whatever values are changed, a rebuilt queue is valid again. -/
lemma valid_reheapify_change (h : Valid isHigherPriority s) (f : Handle → T → T) :
    Valid isHigherPriority (Reheapify isHigherPriority (change f s)) ∧
      content (Reheapify isHigherPriority (change f s)) =
        ((content s).map fun p => (p.1, f p.1 p.2)) ∧
      (Reheapify isHigherPriority (change f s)).made = s.made := by
  have hindex (id : Handle) : ((change f s).item id).Index = (s.item id).Index := by
    unfold change
    dsimp only
    split_ifs <;> rfl
  have hkept : Kept (change f s) (Reheapify isHigherPriority (change f s)) :=
    kept_of_swaps (Heap.swaps_initFrom _ _ _) le_rfl fun k hk => (hindex _).trans (h.indexed k hk)
  refine ⟨hkept.valid ?_ (fun id hid hmem => (hindex id).trans (h.popped id hid hmem)) h.known, ?_,
    hkept.made⟩
  · rw [hkept.items.length_eq]
    exact Heap.ordered_init _
  · rw [hkept.content_eq]
    unfold content
    rw [Multiset.map_map]
    refine Multiset.map_congr rfl fun id hid => ?_
    have hmem : id ∈ s.items := hid
    simp [change, hmem]

omit [IsStrictWeakOrder T isHigherPriority] in
lemma pushItem_eq : (PushItem isHigherPriority s value).2 =
    Heap.up (interface T) isHigherPriority s.items.length (behind s value) := by
  show Heap.up (interface T) isHigherPriority ((behind s value).items.length - 1)
    (behind s value) = _
  rw [behind_length, Nat.add_sub_cancel]

omit [IsStrictWeakOrder T isHigherPriority] in
lemma kept_pushItem (h : Valid isHigherPriority s) :
    Kept (behind s value) (PushItem isHigherPriority s value).2 := by
  rw [pushItem_eq]
  exact kept_of_swaps (Heap.swaps_up _ _ (Nat.lt_succ_self _)) behind_length.ge (indexed_behind h)

lemma valid_pushItem (h : Valid isHigherPriority s) (value : T) :
    Valid isHigherPriority (PushItem isHigherPriority s value).2 ∧
      content (PushItem isHigherPriority s value).2 = (s.made, value) ::ₘ content s ∧
      (PushItem isHigherPriority s value).2.made = s.made + 1 := by
  have hkept : Kept (behind s value) (PushItem isHigherPriority s value).2 := kept_pushItem h
  refine ⟨hkept.valid ?_ (fun id hid hmem => ?_) (fun id hid => ?_), ?_, hkept.made⟩
  · rw [hkept.items.length_eq, behind_length, pushItem_eq]
    exact Heap.ordered_push behind_length (ordered_behind h)
  · obtain ⟨hold, hne⟩ := not_or.mp fun hor => hmem (List.mem_append.mpr hor)
    rw [List.mem_singleton] at hne
    rw [behind_item, Function.update_of_ne hne]
    exact h.popped id (Nat.lt_of_le_of_ne (Nat.lt_succ_iff.mp hid) hne) hold
  · rcases List.mem_append.mp hid with hid | hid
    · exact (h.known id hid).trans (Nat.lt_succ_self _)
    · rw [List.mem_singleton.mp hid]
      exact Nat.lt_succ_self _
  · rw [hkept.content_eq, content_behind h]

lemma valid_popItem (h : Valid isHigherPriority s) (hne : s.items ≠ []) :
    ∃ id v, (PopItem isHigherPriority s).1 = some v ∧
      Valid isHigherPriority (PopItem isHigherPriority s).2 ∧
      content s = (id, v) ::ₘ content (PopItem isHigherPriority s).2 ∧
      (∀ p ∈ content s, ¬isHigherPriority p.2 v) ∧
      (PopItem isHigherPriority s).2.made = s.made := by
  obtain ⟨n, hn⟩ : ∃ n, s.items.length = n + 1 :=
    Nat.exists_eq_succ_of_ne_zero (mt List.length_eq_zero_iff.mp hne)
  let t := Heap.exchange (interface T) isHigherPriority s
  have hkept : Kept s t :=
    kept_of_swaps (Heap.swaps_exchange (show 0 < s.items.length by omega)) le_rfl h.indexed
  have hlen : t.items.length = n + 1 := hkept.items.length_eq.trans hn
  obtain ⟨hordered, hfirst⟩ : Heap.Ordered isHigherPriority ((interface T).value t) n ∧
      (interface T).value t n = (interface T).value s 0 :=
    Heap.ordered_exchange hn (by rw [← hn]; exact h.ordered)
  obtain ⟨hid, htaken⟩ := taken_pop hlen
  have hpop : PopItem isHigherPriority s =
      (some ((Pop t).2.item (Pop t).1).Value, (Pop t).2) := if_neg hne
  rw [hpop]
  refine ⟨pointer t n, (t.item (pointer t n)).Value, ?_, htaken.valid h hkept hlen hordered,
    ?_, fun p hp => ?_, htaken.made.trans hkept.made⟩
  · rw [hid, htaken.value_eq]
  · rw [← hkept.content_eq, htaken.content_eq]
  · obtain ⟨id, hmem, rfl⟩ := Multiset.mem_map.mp hp
    obtain ⟨k, hk, rfl⟩ := exists_pointer hmem
    have hvalue : (t.item (pointer t n)).Value = (s.item (pointer s 0)).Value := hfirst
    rw [hvalue]
    exact h.ordered.first k hk

lemma valid_update (h : Valid isHigherPriority s) (hid : id ∈ s.items) (v : T) :
    Valid isHigherPriority (Update isHigherPriority s id v) ∧
      ∃ old rest, content s = (id, old) ::ₘ rest ∧
        content (Update isHigherPriority s id v) = (id, v) ::ₘ rest := by
  obtain ⟨k, hk, rfl⟩ := exists_pointer hid
  have hindex := h.indexed k hk
  let u := assign s (pointer s k) v
  have hupdate : Update isHigherPriority s (pointer s k) v =
      Heap.Fix (interface T) isHigherPriority k u := by
    have htoNat : (s.item (pointer s k)).Index.toNat = k := by rw [hindex, Int.toNat_natCast]
    unfold Update
    dsimp only
    rw [htoNat, if_neg]
    · rfl
    · rw [hindex]
      simp
      omega
  have hkept : Kept u (Update isHigherPriority s (pointer s k) v) := by
    rw [hupdate]
    exact kept_of_swaps (Heap.swaps_fix hk) le_rfl fun l hl => (assign_index _ _).trans
      (h.indexed l hl)
  have hval (l : ℕ) (hl : l < s.items.length) (hlk : l ≠ k) :
      (interface T).value u l = (interface T).value s l :=
    assign_value_of_ne fun heq => hlk (h.indexed.injective hl hk heq)
  refine ⟨hkept.valid ?_ (fun id hid hmem => (assign_index _ id).trans (h.popped id hid hmem))
    h.known, ?_⟩
  · rw [hkept.items.length_eq, hupdate]
    refine Heap.ordered_fix hk (fun l hl0 hl hlk hpk => ?_) fun l hl0 hl hlk hk0 => ?_
    · rw [hval l hl hlk, hval _ ((Heap.parent_lt hl0).trans hl) hpk]
      exact h.ordered l hl0 hl (Nat.zero_le _)
    · have hp := Heap.parent_lt hl0
      have hpk := Heap.parent_lt hk0
      rw [hval l hl (by omega), hval _ (hpk.trans hk) (by omega)]
      -- the child was not before the old value, nor the old value before its parent
      exact Heap.not_lt_trans (hlk ▸ h.ordered l hl0 hl (Nat.zero_le _))
        (h.ordered k hk0 hk (Nat.zero_le _))
  · obtain ⟨rest, hcontent, hassigned⟩ := @content_assign T _ s v _ h hid
    exact ⟨_, rest, hcontent, hkept.content_eq.trans hassigned⟩

omit [IsStrictWeakOrder T isHigherPriority] in
lemma update_of_notMem (hid : id ∉ s.items) (v : T) : Update isHigherPriority s id v = s := by
  unfold Update
  refine if_pos ?_
  by_contra hqueued
  obtain ⟨hneg, hlen, hpointer⟩ := not_or.mp hqueued |>.imp_right not_or.mp
  refine hid (not_not.mp hpointer ▸ pointer_mem ?_)
  omega

end Valid

/-! ### Sequences of operations -/

inductive Op (T : Type)
  | push (value : T)
  | pop
  | update (id : Handle) (value : T)
  /-- Queued values are changed in place, and the queue is rebuilt. -/
  | change (f : Handle → T → T)

/-- What an operation returns. -/
inductive Out (T : Type)
  | pushed (id : Handle)
  | popped (value : Option T)
  | none

section Sequences

variable {T : Type} (isHigherPriority : T → T → Prop)

/-- What the queue is for, in terms of a bag of items: a push adds a new one, a pop takes out one
that no other comes before, and changes are made to what is there. -/
def bagStep (bag : Multiset (Handle × T)) : Op T × Out T → Multiset (Handle × T) → Prop
  | (.push v, .pushed id), bag' => (∀ w, (id, w) ∉ bag) ∧ bag' = (id, v) ::ₘ bag
  | (.pop, .popped none), bag' => bag = 0 ∧ bag' = bag
  | (.pop, .popped (some v)), bag' =>
    ∃ id, bag = (id, v) ::ₘ bag' ∧ ∀ p ∈ bag', ¬isHigherPriority p.2 v
  | (.update id v, .none), bag' =>
    (∃ old rest, bag = (id, old) ::ₘ rest ∧ bag' = (id, v) ::ₘ rest) ∨
      (∀ w, (id, w) ∉ bag) ∧ bag' = bag
  | (.change f, .none), bag' => bag' = bag.map fun p => (p.1, f p.1 p.2)
  | _, _ => False

variable [DecidableRel isHigherPriority]

def perform (pq : PriorityQueue T) : Op T → Out T × PriorityQueue T
  | .push v =>
    let (id, pq) := PushItem isHigherPriority pq v
    (.pushed id, pq)
  | .pop =>
    let (v, pq) := PopItem isHigherPriority pq
    (.popped v, pq)
  | .update id v => (.none, Update isHigherPriority pq id v)
  | .change f => (.none, Reheapify isHigherPriority (change f pq))

/-- The operations in turn, with what they return, and the queue after them. -/
def exec (pq : PriorityQueue T) : List (Op T) → List (Op T × Out T) × PriorityQueue T
  | [] => ([], pq)
  | op :: ops =>
    let (out, next) := perform isHigherPriority pq op
    let (log, last) := exec next ops
    ((op, out) :: log, last)

/-- Pop until nothing comes, at most so many times. -/
def drain : ℕ → PriorityQueue T → List T
  | 0, _ => []
  | n + 1, pq =>
    match PopItem isHigherPriority pq with
    | (none, _) => []
    | (some v, next) => v :: drain n next

def popAll (pq : PriorityQueue T) : List T := drain isHigherPriority pq.items.length pq

variable {isHigherPriority} [IsStrictWeakOrder T isHigherPriority] {s : PriorityQueue T}

/-- **One operation.** It keeps the queue valid and does to its items what it should. -/
lemma valid_perform (h : Valid isHigherPriority s) (op : Op T) :
    Valid isHigherPriority (perform isHigherPriority s op).2 ∧
      bagStep isHigherPriority (content s) (op, (perform isHigherPriority s op).1)
        (content (perform isHigherPriority s op).2) := by
  cases op with
  | push v =>
    obtain ⟨hvalid, hcontent, -⟩ := valid_pushItem h v
    refine ⟨hvalid, fun w hw => ?_, hcontent⟩
    exact h.made_notMem (mem_content.mp hw).1
  | pop =>
    by_cases hempty : s.items = []
    · have hpop : PopItem isHigherPriority s = (none, s) := if_pos hempty
      have hzero : content s = 0 := by
        unfold content
        rw [hempty]
        rfl
      unfold perform
      rw [hpop]
      exact ⟨h, hzero, rfl⟩
    · obtain ⟨id, v, hout, hvalid, hcontent, hfirst, -⟩ := valid_popItem h hempty
      unfold perform
      dsimp only
      rw [hout]
      refine ⟨hvalid, id, hcontent, fun p hp => hfirst p ?_⟩
      rw [hcontent]
      exact Multiset.mem_cons_of_mem hp
  | update id v =>
    by_cases hid : id ∈ s.items
    · obtain ⟨hvalid, hcontent⟩ := valid_update h hid v
      exact ⟨hvalid, .inl hcontent⟩
    · have hsame : (perform isHigherPriority s (.update id v)).2 = s := update_of_notMem hid v
      rw [hsame]
      exact ⟨h, .inr ⟨fun w hw => hid (mem_content.mp hw).1, rfl⟩⟩
  | change f =>
    obtain ⟨hvalid, hcontent, -⟩ := valid_reheapify_change h f
    exact ⟨hvalid, hcontent⟩

lemma valid_exec (h : Valid isHigherPriority s) (ops : List (Op T)) :
    Valid isHigherPriority (exec isHigherPriority s ops).2 ∧
      ∃ tr, Run (bagStep isHigherPriority) (content s) tr
        (content (exec isHigherPriority s ops).2) ∧
        tr.map Prod.snd = (exec isHigherPriority s ops).1 := by
  induction ops generalizing s with
  | nil => exact ⟨h, [], .nil _, rfl⟩
  | cons op ops ih =>
    obtain ⟨hvalid, hstep⟩ := valid_perform h op
    obtain ⟨hlast, tr, hrun, hlog⟩ := ih hvalid
    exact ⟨hlast, _, .cons hstep hrun, congrArg (List.cons _) hlog⟩

/-- Popping to the end gives all values, in order. -/
lemma drain_sorted (n : ℕ) (h : Valid isHigherPriority s) (hn : s.items.length = n) :
    (drain isHigherPriority n s : Multiset T) = (content s).map Prod.snd ∧
      (drain isHigherPriority n s).Pairwise fun a b => ¬isHigherPriority b a := by
  induction n generalizing s with
  | zero =>
    have hempty : s.items = [] := List.length_eq_zero_iff.mp hn
    unfold content drain
    rw [hempty]
    exact ⟨rfl, .nil⟩
  | succ n ih =>
    have hne : s.items ≠ [] := fun h0 => by rw [h0] at hn; cases hn
    obtain ⟨id, v, hout, hvalid, hcontent, hfirst, -⟩ := valid_popItem h hne
    have hlen : (PopItem isHigherPriority s).2.items.length = n := by
      have hcard := congrArg Multiset.card hcontent
      simp only [content, Multiset.card_map, Multiset.coe_card, Multiset.card_cons] at hcard
      omega
    obtain ⟨hall, hsorted⟩ := ih hvalid hlen
    have hdrain : drain isHigherPriority (n + 1) s =
        v :: drain isHigherPriority n (PopItem isHigherPriority s).2 := by
      rw [drain]
      split
      next hnone => rw [hnone] at hout; cases hout
      next w next hsome =>
        rw [hsome] at hout
        cases hout
        rw [hsome]
    rw [hdrain]
    constructor
    · rw [hcontent, Multiset.map_cons, ← hall]
      rfl
    · refine List.pairwise_cons.mpr ⟨fun w hw => ?_, hsorted⟩
      have hmem : w ∈ (drain isHigherPriority n (PopItem isHigherPriority s).2 : Multiset T) := hw
      rw [hall] at hmem
      obtain ⟨p, hp, rfl⟩ := Multiset.mem_map.mp hmem
      refine hfirst p ?_
      rw [hcontent]
      exact Multiset.mem_cons_of_mem hp

end Sequences

/-- **The priority queue.** After any operations every item knows its position, the array is a
heap, and the operations have done to the bag of items what they should: in particular a pop fails
only on the empty queue and gives a value that no other comes before. An update through the pointer
to an item that is not queued does nothing, and popping to the end gives the values in order. -/
theorem priorityQueue_correct {T : Type} [Inhabited T] (isHigherPriority : T → T → Prop)
    [DecidableRel isHigherPriority] [IsStrictWeakOrder T isHigherPriority] (ops : List (Op T))
    (pq : PriorityQueue T) (log : List (Op T × Out T))
    (hexec : exec isHigherPriority NewPriorityQueue ops = (log, pq)) :
    (∀ k < pq.items.length, (pq.item (pointer pq k)).Index = k) ∧
    (∀ id < pq.made, id ∉ pq.items → (pq.item id).Index = -1) ∧
    (∀ k, 0 < k → k < pq.items.length → ¬isHigherPriority (pq.item (pointer pq k)).Value
      (pq.item (pointer pq ((k - 1) / 2))).Value) ∧
    (∃ tr, Run (bagStep isHigherPriority) 0 tr (content pq) ∧ tr.map Prod.snd = log) ∧
    (∀ id v, id ∉ pq.items → Update isHigherPriority pq id v = pq) ∧
    ((popAll isHigherPriority pq : Multiset T) = (content pq).map Prod.snd ∧
      (popAll isHigherPriority pq).Pairwise fun a b => ¬isHigherPriority b a) := by
  have hnew : Valid isHigherPriority NewPriorityQueue := valid_new
  obtain ⟨hvalid, htr⟩ := valid_exec hnew ops
  rw [hexec] at hvalid htr
  exact ⟨hvalid.indexed, hvalid.popped, fun k hk0 hk => hvalid.ordered k hk0 hk (Nat.zero_le _),
    htr, fun id v hid => update_of_notMem hid v, drain_sorted _ hvalid rfl⟩

/-- Two pushes, a pop, and updates through both pointers. -/
def session : List (Op ℤ) := [.push 1, .push 2, .pop, .update 1 7, .update 0 5]

theorem session_sorted :
    (popAll (· > ·) (exec (· > ·) NewPriorityQueue session).2).Pairwise fun a b => ¬b > a := by
  have horder : IsStrictWeakOrder ℤ (· > ·) := isStrictWeakOrder_of_isOrderConnected
  exact (priorityQueue_correct (· > ·) session _ _ rfl).2.2.2.2.2.2

end Workforce.PriorityHeap
