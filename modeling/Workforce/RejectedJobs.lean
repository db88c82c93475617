import Mathlib.Data.List.MinMax
import Workforce.RejectionCache

/-!
The cache of rejected jobs against what it is for: a store of slots that carry the time they were
last refreshed and a stamp of their last use.

Cache and reference take the same operations at the same times. The cache keeps its entries in the
order of the stamps, so both evict alike; but a rejection of a job that the cache still has does not
start its time to live anew. The two answer alike exactly as long as there is no such rejection.
-/

namespace Workforce.RejectedJobs

open Contract Recency RejectionCache Runs Tables

variable {K V : Type} [DecidableEq K]

/-! ### The reference -/

structure Slot (K V : Type) where
  key : K
  value : V
  /-- The last time the key was put or its time to live increased. -/
  refreshed : Time
  /-- The number of uses before the last one of this slot. -/
  used : ℕ

structure Reference (K V : Type) [DecidableEq K] where
  slots : Table (Slot.key (K := K) (V := V)) := Table.empty _
  uses : ℕ := 0

namespace Reference

def oldest (r : Reference K V) : Option (Slot K V) := r.slots.values.argmin Slot.used

def evict (r : Reference K V) : Reference K V :=
  match r.oldest with
  | some x => { r with slots := r.slots.erase x.key }
  | none => r

def use (r : Reference K V) (x : Slot K V) : Reference K V :=
  ⟨r.slots.put { x with used := r.uses }, r.uses + 1⟩

def put (capacity : ℤ) (r : Reference K V) (key : K) (value : V) (now : Time) : Reference K V :=
  let full := (r.slots.get key).isNone ∧ capacity ≤ r.slots.values.length
  (if full then r.evict else r).use ⟨key, value, now, r.uses⟩

def get (ttl : Duration) (r : Reference K V) (key : K) (now : Time) :
    Reference K V × Option V :=
  match r.slots.get key with
  | none => (r, none)
  | some x => if now - x.refreshed ≤ ttl then (r.use x, some x.value) else (r, none)

def increaseTTL (r : Reference K V) (key : K) (now : Time) : Reference K V :=
  { r with slots := r.slots.modify key fun x => { x with refreshed := now } }

end Reference

/-! ### Slots in the order of their stamps -/

/-- The slots, the last used first. -/
structure Listing (r : Reference K V) (l : List (Slot K V)) : Prop where
  perm : l.Perm r.slots.values
  order : l.Pairwise fun x y => y.used < x.used
  bound : ∀ x ∈ l, x.used < r.uses

variable {r : Reference K V} {l : List (Slot K V)} {key : K} {x : Slot K V}

lemma Listing.split (h : Listing r l) (hget : r.slots.get key = some x) :
    ∃ l₁ l₂, l = l₁ ++ x :: l₂ ∧ (l₁ ++ l₂).Perm (r.slots.erase key).values ∧
      (∀ y ∈ l₁, y.key ≠ key) ∧ ∀ y ∈ l₂, y.key ≠ key := by
  have hxk := key_of_get hget
  have hmem : x ∈ l := h.perm.mem_iff.mpr (mem_values.mpr (by rw [hxk, hget]))
  obtain ⟨l₁, l₂, rfl⟩ := List.append_of_mem hmem
  have hperm : (l₁ ++ l₂).Perm (r.slots.erase key).values :=
    ((List.perm_middle.symm.trans h.perm).trans (perm_values_erase hget).symm).cons_inv
  have hother : ∀ y ∈ l₁ ++ l₂, y.key ≠ key := by
    intro y hy hyk
    rw [hperm.mem_iff, mem_values, get_erase, if_pos hyk] at hy
    cases hy
  exact ⟨l₁, l₂, rfl, hperm, fun y hy => hother y (List.mem_append_left _ hy),
    fun y hy => hother y (List.mem_append_right _ hy)⟩

lemma Listing.notMem (h : Listing r l) (hget : r.slots.get key = none) :
    ∀ y ∈ l, y.key ≠ key := by
  rintro y hy rfl
  rw [h.perm.mem_iff, mem_values, hget] at hy
  cases hy

lemma Listing.find (h : Listing r l) (key : K) :
    l.find? (fun y => y.key = key) = r.slots.get key := by
  rcases hget : r.slots.get key with _ | x
  · simpa using h.notMem hget
  · obtain ⟨l₁, l₂, rfl, -, h₁, -⟩ := h.split hget
    exact find?_middle h₁ (key_of_get hget)

lemma Listing.cons (hperm : l.Perm (r.slots.erase x.key).values)
    (horder : l.Pairwise fun x y => y.used < x.used) (hbound : ∀ y ∈ l, y.used < r.uses) :
    Listing (r.use x) ({ x with used := r.uses } :: l) := by
  refine ⟨hperm.cons _, List.pairwise_cons.mpr ⟨hbound, horder⟩, fun y hy => ?_⟩
  rcases List.mem_cons.mp hy with rfl | hy
  · exact Nat.lt_succ_self _
  · exact (hbound y hy).trans (Nat.lt_succ_self _)

lemma Listing.use_absent (h : Listing r l) (hget : r.slots.get x.key = none) :
    Listing (r.use x) ({ x with used := r.uses } :: l) :=
  .cons (by rw [values_erase_of_none hget]; exact h.perm) h.order h.bound

lemma Listing.use_present (h : Listing r l) {f : Slot K V → Slot K V}
    (hget : r.slots.get key = some x) (hf : (f x).key = key) :
    Listing (r.use (f x)) (promote Slot.key key (fun x => { f x with used := r.uses }) l) := by
  obtain ⟨l₁, l₂, rfl, hperm, h₁, -⟩ := h.split hget
  rw [promote_middle h₁ (key_of_get hget)]
  have hsub : (l₁ ++ l₂).Sublist (l₁ ++ x :: l₂) :=
    List.Sublist.append_left (List.sublist_cons_self _ _) _
  exact .cons (by rw [hf]; exact hperm) (h.order.sublist hsub)
    fun y hy => h.bound y (hsub.subset hy)

lemma Listing.modify (h : Listing r l) (key : K) {f : Slot K V → Slot K V}
    (hkey : ∀ x, (f x).key = x.key) (hused : ∀ x, (f x).used = x.used) :
    Listing { r with slots := r.slots.modify key f } (adjust Slot.key key f l) := by
  have hsame : ∀ x : Slot K V, (if x.key = key then f x else x).used = x.used := by
    intro x
    split_ifs
    · exact hused x
    · rfl
  refine ⟨?_, ?_, ?_⟩
  · rcases hget : r.slots.get key with _ | x
    · rw [adjust_of_notMem (h.notMem hget), modify_of_none hget]
      exact h.perm
    · obtain ⟨l₁, l₂, rfl, hperm, h₁, h₂⟩ := h.split hget
      have hxk := key_of_get hget
      rw [adjust_middle h₁ hxk h₂, Table.modify, hget]
      show (l₁ ++ f x :: l₂).Perm (f x :: (r.slots.erase (f x).key).values)
      rw [hkey, hxk]
      exact List.perm_middle.trans (hperm.cons _)
  · rw [adjust, List.pairwise_map]
    exact h.order.imp fun hlt => by rw [hsame, hsame]; exact hlt
  · intro y hy
    obtain ⟨x, hx, rfl⟩ := List.mem_map.mp hy
    rw [hsame]
    exact h.bound x hx

lemma Listing.oldest (h : Listing r (l ++ [x])) : r.oldest = some x := by
  have hx : x ∈ r.slots.values := h.perm.mem_iff.mp (by simp)
  rw [Reference.oldest]
  rcases hmin : r.slots.values.argmin Slot.used with _ | y
  · rw [List.argmin_eq_none.mp hmin] at hx
    cases hx
  · have hle : y.used ≤ x.used := List.le_of_mem_argmin hx hmin
    have hy : y ∈ l ++ [x] := h.perm.mem_iff.mpr (List.argmin_mem hmin)
    rcases List.mem_append.mp hy with hy | hy
    · have hlt := (List.pairwise_append.mp h.order).2.2 y hy x (List.mem_singleton_self x)
      omega
    · rw [List.mem_singleton.mp hy]

lemma Listing.evict (h : Listing r l) : Listing r.evict l.dropLast := by
  rcases List.eq_nil_or_concat' l with rfl | ⟨l, x, rfl⟩
  · have hnone : r.oldest = none := by
      rw [Reference.oldest, ← h.perm.nil_eq]
      rfl
    rw [Reference.evict, hnone]
    exact h
  · rw [Reference.evict, h.oldest, List.dropLast_concat]
    have hget : r.slots.get x.key = some x :=
      mem_values.mp (h.perm.mem_iff.mp (by simp))
    have hperm : (x :: l).Perm (x :: (r.slots.erase x.key).values) :=
      ((List.perm_append_singleton x l).symm.trans h.perm).trans
        (perm_values_erase hget).symm
    exact ⟨hperm.cons_inv, (List.pairwise_append.mp h.order).1,
      fun y hy => h.bound y (List.mem_append_left _ hy)⟩

lemma uses_evict (r : Reference K V) : r.evict.uses = r.uses := by
  unfold Reference.evict
  split <;> rfl

lemma get_evict (hget : r.slots.get key = none) : r.evict.slots.get key = none := by
  unfold Reference.evict
  split
  · rw [get_erase, hget, ite_self]
  · exact hget

/-! ### Both side by side -/

inductive Op (K V : Type) where
  | put (key : K) (value : V)
  | get (key : K)
  | increaseTTL (key : K)

structure Joint (K V : Type) [DecidableEq K] where
  cache : Cache K V
  reference : Reference K V := {}
  /-- The time of the last operation. -/
  clock : Time

section System

variable (capacity : ℤ) (ttl : Duration)

def perform (c : Cache K V) (op : Op K V) (now : Time) : Cache K V :=
  match op with
  | .put key value => Put c key value now
  | .get key => (Get c key now).1
  | .increaseTTL key => (IncreaseTTL c key now).1

def Reference.perform (r : Reference K V) (op : Op K V) (now : Time) : Reference K V :=
  match op with
  | .put key value => r.put capacity key value now
  | .get key => (r.get ttl key now).1
  | .increaseTTL key => r.increaseTTL key now

def Joint.after (s : Joint K V) (l : Op K V × Time) : Joint K V :=
  ⟨perform s.cache l.1 l.2, s.reference.perform capacity ttl l.1 l.2, l.2⟩

/-- Both take an operation, no earlier than the one before. -/
def step (s : Joint K V) (l : Op K V × Time) (t : Joint K V) : Prop :=
  s.clock ≤ l.2 ∧ t = s.after capacity ttl l

def start (clock : Time) : Joint K V := { cache := NewCache capacity ttl, clock := clock }

/-- From now on a search for a key is answered with the last value put for it exactly as long as
the key was refreshed no more than the time to live ago and has not been evicted. -/
def Agrees (s : Joint K V) : Prop :=
  ∀ key now, s.clock ≤ now → (Get s.cache key now).2 = (s.reference.get ttl key now).2

/-- A key that the cache still has is put at no other time than the one that its time to live
already counts from. -/
def Fresh (s : Joint K V) (l : Op K V × Time) : Prop :=
  match l.1 with
  | .put key _ => ∀ e, s.cache.held key = some e → ttl < 0 ∨ e.expiry = l.2 + ttl
  | _ => True

/-- An entry and a slot that searches cannot tell apart from now on. -/
structure Match (clock : Time) (e : Entry K V) (x : Slot K V) : Prop where
  key : e.key = x.key
  value : e.value = x.value
  early : e.expiry ≤ clock + ttl
  live : ∀ now, clock ≤ now → (now ≤ e.expiry ↔ now ≤ x.refreshed + ttl)

/-- The cache has the slots of the reference, the last used first. -/
structure Sim (s : Joint K V) : Prop where
  wellformed : Wellformed s.cache
  capacity_eq : s.cache.capacity = capacity
  ttl_eq : s.cache.ttl = ttl
  entries : ∃ l, Listing s.reference l ∧ List.Forall₂ (Match ttl s.clock) s.cache.recent l

/-- The slots of the reference, the last used first, match the entries. -/
def Lists (clock : Time) (entries : List (Entry K V)) (r : Reference K V) : Prop :=
  ∃ l, Listing r l ∧ List.Forall₂ (Match ttl clock) entries l

end System

variable {capacity : ℤ} {ttl : Duration} {s t : Joint K V} {e : Entry K V} {clock now : Time}

omit [DecidableEq K] in
lemma Match.later (h : Match ttl clock e x) (hle : clock ≤ now) : Match ttl now e x :=
  ⟨h.key, h.value, h.early.trans (add_le_add_left hle ttl),
    fun _ hnow => h.live _ (hle.trans hnow)⟩

omit [DecidableEq K] in
lemma match_refreshed (hkey : e.key = x.key) (hvalue : e.value = x.value)
    (hexpiry : e.expiry = now + ttl) (hx : x.refreshed = now) : Match ttl now e x :=
  ⟨hkey, hvalue, hexpiry.le, fun _ _ => by rw [hexpiry, hx]⟩

omit [DecidableEq K] in
lemma Match.answer (h : Match ttl clock e x) (hle : clock ≤ now) :
    e.answer now = if now - x.refreshed ≤ ttl then some x.value else none := by
  have hlive := h.live now hle
  rw [Entry.answer, h.value]
  by_cases hnow : now ≤ e.expiry
  · have hx : now - x.refreshed ≤ ttl := by linarith [hlive.mp hnow]
    rw [if_neg (not_lt.mpr hnow), if_pos hx]
  · have hx : ¬ now - x.refreshed ≤ ttl := fun hx => hnow (hlive.mpr (by linarith))
    rw [if_pos (not_le.mp hnow), if_neg hx]

lemma reference_answer (r : Reference K V) (key : K) (now : Time) :
    (r.get ttl key now).2 = (r.slots.get key).bind fun x =>
      if now - x.refreshed ≤ ttl then some x.value else none := by
  unfold Reference.get
  rcases r.slots.get key with _ | x
  · rfl
  · dsimp only [Option.bind_some]
    split_ifs <;> rfl

lemma get_put (r : Reference K V) (key : K) (value : V) (now : Time) :
    (r.put capacity key value now).slots.get key =
      some ⟨key, value, now, (r.put capacity key value now).uses - 1⟩ :=
  get_put_self _ _

lemma reference_of_none (hget : (r.get ttl key now).2 = none) : (r.get ttl key now).1 = r := by
  unfold Reference.get at hget ⊢
  rcases hslot : r.slots.get key with _ | x
  · rfl
  · rw [hslot] at hget
    dsimp only at hget ⊢
    split_ifs at hget ⊢
    rfl

lemma reference_of_some {value : V} (hget : (r.get ttl key now).2 = some value) :
    ∃ x, r.slots.get key = some x ∧ (r.get ttl key now).1 = r.use x := by
  unfold Reference.get at hget ⊢
  rcases hslot : r.slots.get key with _ | x <;> rw [hslot] at hget
  · cases hget
  · dsimp only at hget ⊢
    split_ifs at hget ⊢
    exact ⟨x, rfl, rfl⟩

/-- Cache and reference have a key or not, and then have it alike. -/
lemma Sim.corresponding (h : Sim capacity ttl s) (key : K) :
    (s.cache.held key = none ∧ s.reference.slots.get key = none) ∨
      ∃ e x, s.cache.held key = some e ∧ s.reference.slots.get key = some x ∧
        Match ttl s.clock e x := by
  obtain ⟨l, hl, hmatch⟩ := h.entries
  rw [← find_recent h.wellformed, ← hl.find]
  rcases find?_corresponding (k := key) (fun _ _ hm => hm.key) hmatch with
    ⟨hnone, hnone'⟩ | ⟨e, x, he, hx, hm, -⟩
  · exact .inl ⟨hnone, hnone'⟩
  · exact .inr ⟨e, x, he, hx, hm⟩

lemma Sim.agrees (h : Sim capacity ttl s) : Agrees ttl s := by
  intro key now hle
  rw [get_answer h.wellformed, find_recent h.wellformed, reference_answer]
  rcases h.corresponding key with ⟨hnone, hnone'⟩ | ⟨e, x, he, hx, hm⟩
  · rw [hnone, hnone', Option.bind_none, Option.bind_none]
  · rw [he, hx, Option.bind_some, Option.bind_some, hm.answer hle]

lemma sim_start (hcap : 1 ≤ capacity) (clock : Time) :
    Sim capacity ttl (start capacity ttl clock : Joint K V) := by
  refine ⟨⟨List.nodup_nil, fun key elem => ?_, nofun, nofun, ?_⟩, rfl, rfl, [],
    ⟨List.Perm.refl _, List.Pairwise.nil, nofun⟩, .nil⟩
  · show (∅ : AList fun _ : K => ℕ).lookup key = some elem ↔ elem ∈ [] ∧ _
    simp
  · show ((0 : ℕ) : ℤ) ≤ capacity
    omega

/-! ### One operation -/

section Operation

variable (op : Op K V) (now : Time)

lemma perform_limits (c : Cache K V) :
    (perform c op now).capacity = c.capacity ∧ (perform c op now).ttl = c.ttl := by
  cases op with
  | put key value =>
    rw [perform, Put]
    split
    · exact ⟨rfl, rfl⟩
    · split_ifs
      · exact evict_limits c
      · exact ⟨rfl, rfl⟩
  | get key =>
    rw [perform, Get]
    repeat' split
    all_goals exact ⟨rfl, rfl⟩
  | increaseTTL key =>
    rw [perform, IncreaseTTL]
    split <;> exact ⟨rfl, rfl⟩

lemma wellformed_perform {c : Cache K V} (h : Wellformed c) (hcap : 1 ≤ c.capacity) :
    Wellformed (perform c op now) := by
  cases op with
  | put key value =>
    rcases hkey : c.cache.lookup key with _ | elem
    · exact (put_absent h hcap hkey value now).1
    · exact (put_present h hkey value now).1
  | get key => exact (get_state h key now).1
  | increaseTTL key => exact (increaseTTL_state h key now).1

lemma Sim.perform (hcap : 1 ≤ capacity) (h : Sim capacity ttl s)
    (hlists : Lists ttl now (perform s.cache op now).recent
      (s.reference.perform capacity ttl op now)) :
    Sim capacity ttl (s.after capacity ttl (op, now)) :=
  ⟨wellformed_perform op now h.wellformed (h.capacity_eq ▸ hcap),
    (perform_limits op now s.cache).1.trans h.capacity_eq,
    (perform_limits op now s.cache).2.trans h.ttl_eq, hlists⟩

end Operation

lemma lists_put_present (h : Sim capacity ttl s) (hle : s.clock ≤ now) {value : V}
    (he : s.cache.held key = some e) (hfresh : ttl < 0 ∨ e.expiry = now + ttl) :
    Lists ttl now (Put s.cache key value now).recent
      (s.reference.put capacity key value now) := by
  obtain ⟨elem, helem, -⟩ := Option.bind_eq_some_iff.mp he
  obtain ⟨l, hl, hmatch⟩ := h.entries
  obtain ⟨x, hx⟩ : ∃ x, s.reference.slots.get key = some x := by
    rcases h.corresponding key with ⟨hnone, -⟩ | ⟨-, x, -, hx, -⟩
    · rw [he] at hnone
      cases hnone
    · exact ⟨x, hx⟩
  have huse : s.reference.put capacity key value now =
      s.reference.use ⟨key, value, now, s.reference.uses⟩ := by
    rw [Reference.put, if_neg (by rw [hx]; exact fun hfull => nomatch hfull.1)]
  rw [(put_present h.wellformed helem value now).2, huse]
  refine ⟨_, hl.use_present (f := fun _ => ⟨key, value, now, s.reference.uses⟩) hx rfl,
    forall₂_promote (fun _ _ hm => hm.key) (fun _ _ hm => hm.later hle) ?_ hmatch⟩
  intro e' x' hfind hm
  have hsame : e' = e := by
    rw [find_recent h.wellformed, he] at hfind
    exact (Option.some.inj hfind).symm
  have hkey : e'.key = key := by simpa using List.find?_some hfind
  subst hsame
  rcases hfresh with hneg | hexpiry
  · -- with a negative time to live both have expired at once
    have hearly := hm.early
    have hpast : e'.expiry < now := by linarith
    refine ⟨hkey, rfl, by linarith, fun now' hnow' => iff_of_false ?_ ?_⟩
    · exact not_le.mpr (hpast.trans_le hnow')
    · exact not_le.mpr (lt_of_lt_of_le (add_lt_of_neg_right now hneg) hnow')
  · exact match_refreshed hkey rfl hexpiry rfl

lemma lists_put_absent (hcap : 1 ≤ capacity) (h : Sim capacity ttl s) (hle : s.clock ≤ now)
    {value : V} (hnone : s.cache.cache.lookup key = none) :
    Lists ttl now (Put s.cache key value now).recent
      (s.reference.put capacity key value now) := by
  obtain ⟨l, hl, hmatch⟩ := h.entries
  have hget : s.reference.slots.get key = none := by
    rcases h.corresponding key with ⟨-, hget⟩ | ⟨e, -, he, -⟩
    · exact hget
    · rw [Cache.held, hnone] at he
      cases he
  have hlength : s.reference.slots.values.length = s.cache.recent.length := by
    rw [← hl.perm.length_eq, hmatch.length_eq]
  have hnew : Match ttl now { key := key, value := value, expiry := now + ttl }
      { key := key, value := value, refreshed := now, used := s.reference.uses } :=
    match_refreshed rfl rfl rfl rfl
  have hmatch' := hmatch.imp fun _ _ hm => hm.later hle
  rw [(put_absent h.wellformed (h.capacity_eq ▸ hcap) hnone value now).2, h.ttl_eq, h.capacity_eq,
    Reference.put, hlength, hget]
  by_cases hfull : capacity ≤ s.cache.recent.length
  · rw [if_pos hfull, if_pos ⟨rfl, hfull⟩]
    refine ⟨_, hl.evict.use_absent (get_evict hget), .cons ?_ ?_⟩
    · rw [uses_evict]
      exact hnew
    · rw [List.dropLast_eq_take, List.dropLast_eq_take, hmatch.length_eq]
      exact List.forall₂_take _ hmatch'
  · rw [if_neg hfull, if_neg fun hfull' => hfull hfull'.2]
    exact ⟨_, hl.use_absent hget, .cons hnew hmatch'⟩

lemma lists_get (h : Sim capacity ttl s) (hle : s.clock ≤ now) (key : K) :
    Lists ttl now (Get s.cache key now).1.recent (s.reference.get ttl key now).1 := by
  obtain ⟨l, hl, hmatch⟩ := h.entries
  rw [(get_state h.wellformed key now).2, h.agrees key now hle]
  rcases hget : (s.reference.get ttl key now).2 with _ | value
  · -- nothing is found: the mark on an expired entry is not seen
    refine ⟨l, ?_, ?_⟩
    · rw [reference_of_none hget]
      exact hl
    · have hid : l = adjust Slot.key key id l := by rw [adjust]; simp
      rw [hid]
      exact forall₂_adjust (fun _ _ hm => hm.key) (fun _ _ hm => hm.later hle)
        (fun _ _ hm _ => ⟨hm.key, hm.value, (hm.later hle).early, (hm.later hle).live⟩) hmatch
  · obtain ⟨x, hx, hr⟩ := reference_of_some hget
    rw [hr]
    exact ⟨_, hl.use_present (f := id) hx (key_of_get hx),
      forall₂_promote (fun _ _ hm => hm.key) (fun _ _ hm => hm.later hle)
        (fun _ _ _ hm => ⟨hm.key, hm.value, (hm.later hle).early, (hm.later hle).live⟩) hmatch⟩

lemma lists_increaseTTL (h : Sim capacity ttl s) (hle : s.clock ≤ now) (key : K) :
    Lists ttl now (IncreaseTTL s.cache key now).1.recent (s.reference.increaseTTL key now) := by
  obtain ⟨l, hl, hmatch⟩ := h.entries
  refine ⟨_, hl.modify key (fun _ => rfl) (fun _ => rfl), ?_⟩
  rw [(increaseTTL_state h.wellformed key now).2, h.ttl_eq]
  exact forall₂_adjust (fun _ _ hm => hm.key) (fun _ _ hm => hm.later hle)
    (fun _ _ hm _ => match_refreshed hm.key hm.value rfl rfl) hmatch

lemma sim_step (hcap : 1 ≤ capacity) {l : Op K V × Time} (h : Sim capacity ttl s)
    (hfresh : Fresh ttl s l) (hstep : step capacity ttl s l t) : Sim capacity ttl t := by
  obtain ⟨op, now⟩ := l
  obtain ⟨hle, rfl⟩ := hstep
  refine h.perform op now hcap ?_
  cases op with
  | put key value =>
    rcases hkey : s.cache.cache.lookup key with _ | elem
    · exact lists_put_absent hcap h hle hkey
    · obtain ⟨e, l₁, l₂, ha⟩ := h.wellformed.around hkey
      have he : s.cache.held key = some e := by rw [Cache.held, hkey, Option.bind_some, ha.entry]
      exact lists_put_present h hle he (hfresh e he)
  | get key => exact lists_get h hle key
  | increaseTTL key => exact lists_increaseTTL h hle key

/-- After a key was put that the cache had, agreement on it means that it did not have to be
refreshed. -/
lemma fresh_of_agrees {l : Op K V × Time} (h : Sim capacity ttl s)
    (hstep : step capacity ttl s l t) (hagrees : Agrees ttl t) : Fresh ttl s l := by
  obtain ⟨op, now⟩ := l
  obtain ⟨hle, rfl⟩ := hstep
  cases op with
  | get key => exact trivial
  | increaseTTL key => exact trivial
  | put key value =>
    intro e he
    obtain ⟨elem, helem, -⟩ := Option.bind_eq_some_iff.mp he
    obtain ⟨hwell, hrecent⟩ := put_present h.wellformed helem value now
    have hfind : s.cache.recent.find? (fun e => e.key = key) = some e :=
      (find_recent h.wellformed key).trans he
    have hkey : e.key = key := by simpa using List.find?_some hfind
    have hsame : ∀ now', now ≤ now' → (now' ≤ e.expiry ↔ now' - now ≤ ttl) := by
      intro now' hle'
      have hanswer := hagrees key now' hle'
      change (Get (Put s.cache key value now) key now').2 =
        ((s.reference.put capacity key value now).get ttl key now').2 at hanswer
      rw [get_answer hwell, hrecent, find?_promote hfind hkey, reference_answer, get_put,
        Option.bind_some, Option.bind_some, Entry.answer] at hanswer
      rw [← not_lt]
      split_ifs at hanswer with hpast hlive hlive
      · exact iff_of_false (not_not.mpr hpast) hlive
      · exact iff_of_true hpast hlive
    by_cases hneg : ttl < 0
    · exact .inl hneg
    · have hend : now + ttl ≤ e.expiry :=
        (hsame _ (by linarith)).mpr (by linarith)
      have hbegin := (hsame e.expiry (by linarith)).mp le_rfl
      exact .inr (le_antisymm (by linarith) hend)

/-! ### Whole runs -/

/-- Map and list of the cache hold the same keys, each once, and no more than its capacity. -/
structure SameKeys (c : Cache K V) : Prop where
  keys : c.cache.keys.Perm (c.recent.map Entry.key)
  nodup : (c.recent.map Entry.key).Nodup
  whole : c.recent.length = c.lruList.length
  room : (c.cache.keys.length : ℤ) ≤ c.capacity

lemma sameKeys {c : Cache K V} (h : Wellformed c) : SameKeys c := by
  refine ⟨perm_keys h, nodup_recent h, length_recent h, ?_⟩
  rw [length_keys h]
  exact h.room

lemma kept_step (hcap : 1 ≤ capacity) {l : Op K V × Time}
    (h : Wellformed s.cache ∧ s.cache.capacity = capacity)
    (hstep : step capacity ttl s l t) : Wellformed t.cache ∧ t.cache.capacity = capacity := by
  obtain ⟨-, rfl⟩ := hstep
  obtain ⟨hwell, rfl⟩ := h
  exact ⟨wellformed_perform _ _ hwell hcap, (perform_limits _ _ _).1⟩

/-- **The cache is the store of stamped slots** as long as no key is put again that it still has:
its map and its list always hold the same keys, each once and no more than its capacity, and in all
states of a run it answers every later search as the reference does exactly if every such `Put`
comes when the time to live of the key had just been started. -/
theorem rejections_remembered_iff (hcap : 1 ≤ capacity) (ttl : Duration) (clock : Time)
    {tr : List (Joint K V × (Op K V × Time))} {t : Joint K V}
    (hrun : Run (step capacity ttl) (start capacity ttl clock) tr t) :
    (∀ s ∈ states tr t, SameKeys s.cache ∧ s.cache.capacity = capacity) ∧
      ((∀ s ∈ states tr t, Agrees ttl s) ↔ Meets (Fresh ttl) tr) := by
  have hstart : Sim capacity ttl (start capacity ttl clock : Joint K V) := sim_start hcap clock
  constructor
  · intro s hs
    have hkept := hrun.invariant (G := fun _ (_ : Op K V × Time) => True)
      (I := fun s : Joint K V => Wellformed s.cache ∧ s.cache.capacity = capacity)
      (fun _ _ _ h _ hstep => kept_step hcap h hstep) (fun _ _ => trivial)
      ⟨hstart.wellformed, hstart.capacity_eq⟩ s hs
    exact ⟨sameKeys hkept.1, hkept.2⟩
  · exact hrun.observed_iff (I := Sim capacity ttl) (fun _ h => h.agrees)
      (fun _ _ _ h hfresh hstep => sim_step hcap h hfresh hstep)
      (fun _ _ _ h hstep => ⟨fun hfresh => (sim_step hcap h hfresh hstep).agrees,
        fresh_of_agrees h hstep⟩) hstart

/-! ### The cache of a worker -/

/-- The cache of a worker's connection: a hundred jobs, a minute each. -/
def connected : Joint String Unit := start 100 60000000000 0

def rejectedOnce : Joint String Unit := connected.after 100 60000000000 (.put "j" (), 0)

/-- It rejects the job again, ten seconds after the first rejection has expired. -/
def rejectedTwice : Joint String Unit :=
  rejectedOnce.after 100 60000000000 (.put "j" (), 70000000000)

/-- Its time to live is renewed before the second rejection. -/
theorem rejections_remembered_renewed :
    ∃ tr t, Run (step 100 60000000000) connected tr t ∧
      tr.map (fun x => x.2.1) = [.put "j" (), .increaseTTL "j", .put "j" ()] ∧
      (∀ s ∈ states tr t, Agrees 60000000000 s) ∧ SameKeys t.cache := by
  have hrun : Run (step 100 60000000000) connected _ _ :=
    .cons (l := (.put "j" (), 0)) ⟨le_rfl, rfl⟩ <|
    .cons (l := (.increaseTTL "j", 70000000000)) ⟨by decide, rfl⟩ <|
    .cons (l := (.put "j" (), 70000000000)) ⟨le_rfl, rfl⟩ (.nil _)
  obtain ⟨hkeys, hagrees⟩ := rejections_remembered_iff (by decide) 60000000000 0 hrun
  refine ⟨_, _, hrun, rfl, hagrees.mpr ?_, (hkeys _ Run.last_mem).1⟩
  simp only [meets_cons, meets_nil, and_true]
  refine ⟨fun e he => ?_, trivial, fun e he => ?_⟩
  · cases he
  · obtain rfl := Option.some.inj (show some _ = some e from he)
    exact .inr rfl

/-- One second after the second rejection the worker may get the job again. -/
theorem second_rejection_forgotten :
    Run (step 100 60000000000) connected
        [(connected, (.put "j" (), 0)), (rejectedOnce, (.put "j" (), 70000000000))] rejectedTwice ∧
      (Get rejectedTwice.cache "j" 71000000000).2 = none ∧
      (rejectedTwice.reference.get 60000000000 "j" 71000000000).2 = some () ∧
      ¬ Agrees 60000000000 rejectedTwice := by
  have hcache : (Get rejectedTwice.cache "j" 71000000000).2 = none := by decide
  have href : (rejectedTwice.reference.get 60000000000 "j" 71000000000).2 = some () := by decide
  refine ⟨.cons ⟨le_rfl, rfl⟩ (.cons ⟨by decide, rfl⟩ (.nil _)), hcache, href, fun hagrees => ?_⟩
  have hsame := hagrees "j" 71000000000 (by decide)
  rw [hcache, href] at hsame
  cases hsame

end Workforce.RejectedJobs
