import Workforce.Contract
import Workforce.Recency
import Workforce.Runs

/-!
The cache of `locksmith`, which remembers the jobs that a worker has rejected.

A map leads from the keys to the elements of a list that is kept in the order of last use. The
elements are on a heap, so that map and list can disagree; that they never do is part of what is
proved. Expired entries stay until they are the least recently used ones of a full cache.
-/

namespace Workforce.RejectionCache

open Contract Recency

variable {K V : Type} [DecidableEq K]

/-! ### The cache -/

structure Entry (K V : Type) where
  key : K
  value : V
  expiry : Time
  quarantine : Bool := false

structure Cache (K V : Type) where
  capacity : ℤ
  ttl : Duration
  /-- The address of the list element of a key. -/
  cache : AList fun _ : K => ℕ
  lruList : List ℕ := []
  elems : ℕ → Option (Entry K V) := fun _ => none
  /-- The next free address. -/
  free : ℕ := 0
  quarantine : AList fun _ : K => Time
  quarantineList : List K := []

def NewCache (capacity : ℤ) (ttl : Duration) : Cache K V :=
  { capacity := capacity, ttl := ttl, cache := ∅, quarantine := ∅ }

def MoveToFront (l : List ℕ) (elem : ℕ) : List ℕ := if elem ∈ l then elem :: l.erase elem else l

def Cache.write (c : Cache K V) (elem : ℕ) (f : Entry K V → Entry K V) : Cache K V :=
  { c with elems := fun i => if i = elem then (c.elems i).map f else c.elems i }

def evict (c : Cache K V) : Cache K V :=
  match c.lruList.getLast? with
  | none => c
  | some elem =>
    match c.elems elem with
    | none => { c with lruList := c.lruList.erase elem }
    | some e =>
      { c with lruList := c.lruList.erase elem, cache := c.cache.erase e.key }

def Cache.push (c : Cache K V) (e : Entry K V) : Cache K V :=
  { c with
    elems := fun i => if i = c.free then some e else c.elems i
    lruList := c.free :: c.lruList
    cache := c.cache.insert e.key c.free
    free := c.free + 1 }

def Put (c : Cache K V) (key : K) (value : V) (now : Time) : Cache K V :=
  match c.cache.lookup key with
  | some elem =>
    { c.write elem fun e => { e with value := value } with lruList := MoveToFront c.lruList elem }
  | none =>
    let c := if c.capacity ≤ c.cache.keys.length then evict c else c
    c.push { key := key, value := value, expiry := now + c.ttl }

def quarantineItem (c : Cache K V) (key : K) (elem : ℕ) (now : Time) : Cache K V :=
  { c.write elem fun e => { e with quarantine := true } with
    quarantine := c.quarantine.insert key now
    quarantineList := key :: c.quarantineList }

def Get (c : Cache K V) (key : K) (now : Time) : Cache K V × Option V :=
  match c.cache.lookup key with
  | none => (c, none)
  | some elem =>
    match c.elems elem with
    | none => (c, none)
    | some e =>
      if e.expiry < now then (if e.quarantine then c else quarantineItem c key elem now, none)
      else ({ c with lruList := MoveToFront c.lruList elem }, some e.value)

/-- Start the time to live anew; the answer is whether the key is known. -/
def IncreaseTTL (c : Cache K V) (key : K) (now : Time) : Cache K V × Bool :=
  match c.cache.lookup key with
  | none => (c, false)
  | some elem => (c.write elem fun e => { e with expiry := now + c.ttl }, true)

/-! ### Map and list -/

def Cache.recent (c : Cache K V) : List (Entry K V) := c.lruList.filterMap c.elems

/-- The map and the list have the same elements, and there is room for them. -/
structure Wellformed (c : Cache K V) : Prop where
  nodup : c.lruList.Nodup
  lookup : ∀ key elem, c.cache.lookup key = some elem ↔
    elem ∈ c.lruList ∧ ∃ e, c.elems elem = some e ∧ e.key = key
  below : ∀ elem ∈ c.lruList, elem < c.free
  live : ∀ elem ∈ c.lruList, ∃ e, c.elems elem = some e
  room : (c.lruList.length : ℤ) ≤ c.capacity

variable {c : Cache K V} {key : K} {elem : ℕ} {e : Entry K V} {now : Time}

/-- The list around the element of a key. -/
structure Around (c : Cache K V) (key : K) (elem : ℕ) (e : Entry K V) (l₁ l₂ : List ℕ) :
    Prop where
  list : c.lruList = l₁ ++ elem :: l₂
  left : elem ∉ l₁
  right : elem ∉ l₂
  entry : c.elems elem = some e
  ofKey : e.key = key
  leftKeys : ∀ x ∈ l₁.filterMap c.elems, x.key ≠ key
  rightKeys : ∀ x ∈ l₂.filterMap c.elems, x.key ≠ key

lemma Wellformed.around (h : Wellformed c) (hkey : c.cache.lookup key = some elem) :
    ∃ e l₁ l₂, Around c key elem e l₁ l₂ := by
  obtain ⟨hmem, e, he, hek⟩ := (h.lookup key elem).mp hkey
  obtain ⟨l₁, l₂, hl⟩ := List.append_of_mem hmem
  have hnodup := h.nodup
  rw [hl, List.nodup_append, List.nodup_cons] at hnodup
  have hleft : elem ∉ l₁ := fun hin => hnodup.2.2 elem hin elem List.mem_cons_self rfl
  -- another element with the key would be the one in the map
  have hother : ∀ i ∈ c.lruList, i ≠ elem → ∀ x, c.elems i = some x → x.key ≠ key := by
    intro i hi hne x hx hxk
    have hlookup := (h.lookup key i).mpr ⟨hi, x, hx, hxk⟩
    rw [hkey] at hlookup
    exact hne (Option.some.inj hlookup).symm
  have hkeys : ∀ l ⊆ c.lruList, elem ∉ l → ∀ x ∈ l.filterMap c.elems, x.key ≠ key := by
    intro l hsub hnot x hx
    obtain ⟨i, hi, hxi⟩ := List.mem_filterMap.mp hx
    exact hother i (hsub hi) (fun heq => hnot (heq ▸ hi)) x hxi
  exact ⟨e, l₁, l₂, hl, hleft, hnodup.2.1.1, he, hek, hkeys l₁ (by simp [hl]) hleft,
    hkeys l₂ (by simp [hl]) hnodup.2.1.1⟩

section Around

variable {l₁ l₂ : List ℕ} (h : Around c key elem e l₁ l₂)
include h

omit [DecidableEq K] in
lemma Around.recent : c.recent = l₁.filterMap c.elems ++ e :: l₂.filterMap c.elems := by
  rw [Cache.recent, h.list, List.filterMap_append, List.filterMap_cons_some h.entry]

omit [DecidableEq K] in
lemma Around.moveToFront : MoveToFront c.lruList elem = elem :: (l₁ ++ l₂) := by
  rw [MoveToFront, h.list, if_pos (by simp), List.erase_append_right _ h.left,
    List.erase_cons_head]

lemma Around.find : c.recent.find? (fun x => x.key = key) = some e := by
  rw [h.recent]
  exact find?_middle h.leftKeys h.ofKey

end Around

omit [DecidableEq K] in
lemma filterMap_write {l : List ℕ} (hl : elem ∉ l) (f : Entry K V → Entry K V) :
    l.filterMap (c.write elem f).elems = l.filterMap c.elems := by
  refine List.filterMap_congr fun i hi => if_neg ?_
  rintro rfl
  exact hl hi

omit [DecidableEq K] in
lemma write_self (f : Entry K V → Entry K V) (he : c.elems elem = some e) :
    (c.write elem f).elems elem = some (f e) := by
  show (if elem = elem then _ else _) = _
  rw [if_pos rfl, he]
  rfl

lemma recent_write (h : Wellformed c) (hkey : c.cache.lookup key = some elem)
    (f : Entry K V → Entry K V) :
    (c.write elem f).recent = adjust Entry.key key f c.recent := by
  obtain ⟨e, l₁, l₂, ha⟩ := h.around hkey
  rw [ha.recent, adjust_middle ha.leftKeys ha.ofKey ha.rightKeys, Cache.recent]
  show c.lruList.filterMap _ = _
  rw [ha.list, List.filterMap_append, List.filterMap_cons_some (write_self f ha.entry),
    filterMap_write ha.left, filterMap_write ha.right]

lemma recent_moveToFront (h : Wellformed c) (hkey : c.cache.lookup key = some elem)
    (f : Entry K V → Entry K V) :
    (MoveToFront c.lruList elem).filterMap (c.write elem f).elems =
      promote Entry.key key f c.recent := by
  obtain ⟨e, l₁, l₂, ha⟩ := h.around hkey
  rw [ha.recent, promote_middle ha.leftKeys ha.ofKey, ha.moveToFront,
    List.filterMap_cons_some (write_self f ha.entry), List.filterMap_append,
    filterMap_write ha.left, filterMap_write ha.right]

/-- A write that keeps the key, and a reordering of the list, keep map and list in step. -/
lemma Wellformed.write (h : Wellformed c) {f : Entry K V → Entry K V}
    (hf : ∀ e, (f e).key = e.key) {c' : Cache K V} (hcapacity : c'.capacity = c.capacity)
    (hcache : c'.cache = c.cache) (hlist : c'.lruList.Perm c.lruList)
    (helems : c'.elems = (c.write elem f).elems) (hfree : c'.free = c.free) : Wellformed c' := by
  have hread (i : ℕ) (key : K) :
      (∃ e, c'.elems i = some e ∧ e.key = key) ↔ ∃ e, c.elems i = some e ∧ e.key = key := by
    rw [helems]
    show (∃ e, (if i = elem then (c.elems i).map f else c.elems i) = some e ∧ _) ↔ _
    split_ifs
    · constructor
      · rintro ⟨e, he, hk⟩
        obtain ⟨e₀, he₀, rfl⟩ := Option.map_eq_some_iff.mp he
        exact ⟨e₀, he₀, by rw [← hk, hf]⟩
      · rintro ⟨e, he, hk⟩
        exact ⟨f e, by rw [he]; rfl, by rw [hf, hk]⟩
    · rfl
  refine ⟨hlist.nodup_iff.mpr h.nodup, fun key i => ?_, fun i hi => ?_, fun i hi => ?_, ?_⟩
  · rw [hcache, h.lookup, hlist.mem_iff, hread]
  · rw [hfree]
    exact h.below i (hlist.mem_iff.mp hi)
  · obtain ⟨e, he⟩ := h.live i (hlist.mem_iff.mp hi)
    obtain ⟨e', he', -⟩ := (hread i e.key).mpr ⟨e, he, rfl⟩
    exact ⟨e', he'⟩
  · rw [hlist.length_eq, hcapacity]
    exact h.room

lemma perm_moveToFront (l : List ℕ) (elem : ℕ) : (MoveToFront l elem).Perm l := by
  unfold MoveToFront
  split_ifs with hmem
  · exact (List.perm_cons_erase hmem).symm
  · rfl

lemma Wellformed.push (h : Wellformed c) (hkey : c.cache.lookup e.key = none)
    (hroom : (c.lruList.length : ℤ) < c.capacity) : Wellformed (c.push e) := by
  have hold : ∀ i ∈ c.lruList, (c.push e).elems i = c.elems i := fun i hi =>
    if_neg (h.below i hi).ne
  have hnew : (c.push e).elems c.free = some e := if_pos rfl
  refine ⟨List.nodup_cons.mpr ⟨fun hmem => (h.below _ hmem).false, h.nodup⟩, fun key i => ?_,
    fun i hi => ?_, fun i hi => ?_, ?_⟩
  · show (c.cache.insert e.key c.free).lookup key = some i ↔ i ∈ c.free :: c.lruList ∧ _
    by_cases hk : key = e.key
    · subst hk
      rw [AList.lookup_insert]
      constructor
      · rintro ⟨rfl⟩
        exact ⟨List.mem_cons_self, e, hnew, rfl⟩
      · rintro ⟨hi, x, hx, hxk⟩
        rcases List.mem_cons.mp hi with rfl | hi
        · rfl
        · rw [hold i hi] at hx
          rw [(h.lookup e.key i).mpr ⟨hi, x, hx, hxk⟩] at hkey
          cases hkey
    · rw [AList.lookup_insert_ne hk, h.lookup]
      constructor
      · rintro ⟨hi, x, hx, hxk⟩
        exact ⟨List.mem_cons_of_mem _ hi, x, by rw [hold i hi, hx], hxk⟩
      · rintro ⟨hi, x, hx, hxk⟩
        rcases List.mem_cons.mp hi with rfl | hi
        · rw [hnew] at hx
          cases hx
          exact absurd hxk.symm hk
        · exact ⟨hi, x, by rw [← hold i hi, hx], hxk⟩
  · rcases List.mem_cons.mp hi with rfl | hi
    · exact Nat.lt_succ_self _
    · exact (h.below i hi).trans (Nat.lt_succ_self _)
  · rcases List.mem_cons.mp hi with rfl | hi
    · exact ⟨e, hnew⟩
    · rw [hold i hi]
      exact h.live i hi
  · show ((c.free :: c.lruList).length : ℤ) ≤ c.capacity
    rw [List.length_cons]
    omega

lemma recent_push (h : Wellformed c) (e : Entry K V) : (c.push e).recent = e :: c.recent := by
  have hnew : (c.push e).elems c.free = some e := if_pos rfl
  show (c.free :: c.lruList).filterMap _ = _
  rw [List.filterMap_cons_some hnew]
  exact congrArg _ (List.filterMap_congr fun i hi => if_neg (h.below i hi).ne)

lemma length_recent (h : Wellformed c) : c.recent.length = c.lruList.length := by
  have hall : ∀ l : List ℕ, (∀ i ∈ l, ∃ e, c.elems i = some e) →
      (l.filterMap c.elems).length = l.length := by
    intro l hl
    induction l with
    | nil => rfl
    | cons i l ih =>
      obtain ⟨e, he⟩ := hl i List.mem_cons_self
      rw [List.filterMap_cons_some he, List.length_cons, List.length_cons,
        ih fun j hj => hl j (List.mem_cons_of_mem _ hj)]
  exact hall c.lruList h.live

lemma mem_recent (h : Wellformed c) :
    e ∈ c.recent ↔ ∃ elem, c.cache.lookup e.key = some elem ∧ c.elems elem = some e := by
  rw [Cache.recent, List.mem_filterMap]
  constructor
  · rintro ⟨elem, hmem, he⟩
    exact ⟨elem, (h.lookup e.key elem).mpr ⟨hmem, e, he, rfl⟩, he⟩
  · rintro ⟨elem, hlookup, he⟩
    exact ⟨elem, ((h.lookup e.key elem).mp hlookup).1, he⟩

lemma nodup_recent (h : Wellformed c) : (c.recent.map Entry.key).Nodup := by
  rw [List.Nodup, List.pairwise_map, Cache.recent, List.pairwise_filterMap]
  refine h.nodup.imp_of_mem fun hi hj hne e he e' he' hkey => hne ?_
  have hlookup := (h.lookup e.key _).mpr ⟨hi, e, he, rfl⟩
  rw [(h.lookup e.key _).mpr ⟨hj, e', he', hkey.symm⟩] at hlookup
  exact (Option.some.inj hlookup).symm

/-- **Map and list** have the same keys, each once. -/
lemma perm_keys (h : Wellformed c) : c.cache.keys.Perm (c.recent.map Entry.key) := by
  refine (List.perm_ext_iff_of_nodup c.cache.nodupKeys (nodup_recent h)).mpr fun key => ?_
  change key ∈ c.cache ↔ _
  rw [← AList.lookup_isSome, Option.isSome_iff_exists, List.mem_map]
  constructor
  · rintro ⟨elem, hlookup⟩
    obtain ⟨-, e, he, rfl⟩ := (h.lookup key elem).mp hlookup
    exact ⟨e, (mem_recent h).mpr ⟨elem, hlookup, he⟩, rfl⟩
  · rintro ⟨e, he, rfl⟩
    obtain ⟨elem, hlookup, -⟩ := (mem_recent h).mp he
    exact ⟨elem, hlookup⟩

lemma length_keys (h : Wellformed c) : c.cache.keys.length = c.lruList.length := by
  rw [(perm_keys h).length_eq, List.length_map, length_recent h]

lemma evict_spec (h : Wellformed c) (hne : c.lruList ≠ []) :
    Wellformed (evict c) ∧ (evict c).recent = c.recent.dropLast ∧
      (evict c).lruList.length + 1 = c.lruList.length := by
  obtain ⟨l, elem, hl⟩ := (List.eq_nil_or_concat' c.lruList).resolve_left hne
  have hmem : elem ∈ c.lruList := by simp [hl]
  obtain ⟨e, he⟩ := h.live elem hmem
  have hnot : elem ∉ l := by
    have hnodup := h.nodup
    rw [hl] at hnodup
    exact (List.nodup_concat l elem).mp (by simpa using hnodup) |>.1
  have hevict : evict c = { c with lruList := l, cache := c.cache.erase e.key } := by
    have hlast : c.lruList.getLast? = some elem := by rw [hl, List.getLast?_concat]
    have herase : c.lruList.erase elem = l := by
      rw [hl, List.erase_append_right _ hnot, List.erase_cons_head, List.append_nil]
    rw [evict, hlast]
    dsimp only
    rw [he]
    rw [herase]
  have hsub : ∀ i ∈ l, i ∈ c.lruList := fun i hi => by simp [hl, hi]
  rw [hevict]
  refine ⟨⟨?_, fun key i => ?_, fun i hi => h.below i (hsub i hi),
    fun i hi => h.live i (hsub i hi), ?_⟩, ?_, ?_⟩
  · have hnodup := h.nodup
    rw [hl] at hnodup
    exact hnodup.of_append_left
  · by_cases hk : key = e.key
    · subst hk
      rw [AList.lookup_erase]
      refine ⟨(fun hnone => nomatch hnone), fun ⟨hi, x, hx, hxk⟩ => ?_⟩
      -- the key belongs to the last element
      have hlookup := (h.lookup e.key i).mpr ⟨hsub i hi, x, hx, hxk⟩
      rw [(h.lookup e.key elem).mpr ⟨hmem, e, he, rfl⟩] at hlookup
      cases hlookup
      exact absurd hi hnot
    · rw [AList.lookup_erase_ne hk, h.lookup]
      constructor
      · rintro ⟨hi, x, hx, hxk⟩
        rw [hl, List.mem_append, List.mem_singleton] at hi
        rcases hi with hi | rfl
        · exact ⟨hi, x, hx, hxk⟩
        · rw [he] at hx
          cases hx
          exact absurd hxk.symm hk
      · rintro ⟨hi, hx⟩
        exact ⟨hsub i hi, hx⟩
  · have hroom := h.room
    rw [hl, List.length_append] at hroom
    show (l.length : ℤ) ≤ c.capacity
    omega
  · show l.filterMap c.elems = c.recent.dropLast
    rw [Cache.recent, hl, List.filterMap_append, List.filterMap_cons_some he, List.filterMap_nil,
      List.dropLast_concat]
  · rw [hl, List.length_append, List.length_singleton]

def Cache.held (c : Cache K V) (key : K) : Option (Entry K V) :=
  (c.cache.lookup key).bind c.elems

lemma notMem_recent (h : Wellformed c) (hkey : c.cache.lookup key = none) :
    ∀ e ∈ c.recent, e.key ≠ key := by
  rintro e he rfl
  obtain ⟨elem, hlookup, -⟩ := (mem_recent h).mp he
  rw [hkey] at hlookup
  cases hlookup

lemma find_recent (h : Wellformed c) (key : K) :
    c.recent.find? (fun e => e.key = key) = c.held key := by
  rcases hkey : c.cache.lookup key with _ | elem
  · rw [Cache.held, hkey, Option.bind_none, List.find?_eq_none]
    simpa using notMem_recent h hkey
  · obtain ⟨e, l₁, l₂, ha⟩ := h.around hkey
    rw [Cache.held, hkey, Option.bind_some, ha.entry, ha.find]

/-! ### What the operations do to the entries -/

lemma put_present (h : Wellformed c) (hkey : c.cache.lookup key = some elem) (value : V)
    (now : Time) :
    Wellformed (Put c key value now) ∧ (Put c key value now).recent =
      promote Entry.key key (fun e => { e with value := value }) c.recent := by
  rw [Put, hkey]
  exact ⟨h.write (f := fun e => { e with value := value }) (fun _ => rfl) rfl rfl
    (perm_moveToFront _ _) rfl rfl, recent_moveToFront h hkey _⟩

lemma lookup_evict (hkey : c.cache.lookup key = none) : (evict c).cache.lookup key = none := by
  unfold evict
  split
  · exact hkey
  · split
    · exact hkey
    · rename_i e _
      by_cases hk : key = e.key
      · rw [hk, AList.lookup_erase]
      · rw [AList.lookup_erase_ne hk, hkey]

lemma evict_limits (c : Cache K V) :
    (evict c).capacity = c.capacity ∧ (evict c).ttl = c.ttl := by
  unfold evict
  split
  · exact ⟨rfl, rfl⟩
  · split <;> exact ⟨rfl, rfl⟩

/-- A new entry goes in front; in a full cache the last one goes. -/
lemma put_absent (h : Wellformed c) (hcap : 1 ≤ c.capacity) (hkey : c.cache.lookup key = none)
    (value : V) (now : Time) :
    Wellformed (Put c key value now) ∧ (Put c key value now).recent =
      { key := key, value := value, expiry := now + c.ttl } ::
        if c.capacity ≤ c.recent.length then c.recent.dropLast else c.recent := by
  rw [Put, hkey, length_recent h, length_keys h]
  dsimp only
  split_ifs with hfull
  · have hne : c.lruList ≠ [] := by
      intro hnil
      rw [hnil, List.length_nil] at hfull
      omega
    obtain ⟨hw, hrecent, hlength⟩ := evict_spec h hne
    have hroom := h.room
    rw [(evict_limits c).2, ← hrecent]
    refine ⟨hw.push (lookup_evict hkey) ?_, recent_push hw _⟩
    rw [(evict_limits c).1]
    omega
  · exact ⟨h.push hkey (not_le.mp hfull), recent_push h _⟩

/-- What a search answers at a time. -/
def Entry.answer (now : Time) (e : Entry K V) : Option V :=
  if e.expiry < now then none else some e.value

/-- An entry after a search that has found it expired. -/
def Entry.mark (now : Time) (e : Entry K V) : Entry K V :=
  { e with quarantine := e.quarantine || decide (e.expiry < now) }

lemma get_answer (h : Wellformed c) (key : K) (now : Time) :
    (Get c key now).2 = (c.recent.find? fun e => e.key = key).bind (Entry.answer now) := by
  rw [find_recent h, Cache.held, Get]
  rcases hkey : c.cache.lookup key with _ | elem
  · rfl
  · obtain ⟨e, l₁, l₂, ha⟩ := h.around hkey
    simp only [Option.bind_some, ha.entry, Entry.answer]
    split_ifs <;> rfl

/-- A search brings the entry it finds to the front and marks the one that has expired. -/
lemma get_state (h : Wellformed c) (key : K) (now : Time) :
    Wellformed (Get c key now).1 ∧ (Get c key now).1.recent =
      if (Get c key now).2.isSome then promote Entry.key key id c.recent
      else adjust Entry.key key (Entry.mark now) c.recent := by
  rw [Get]
  rcases hkey : c.cache.lookup key with _ | elem
  · exact ⟨h, (adjust_of_notMem (notMem_recent h hkey)).symm⟩
  · obtain ⟨e, l₁, l₂, ha⟩ := h.around hkey
    simp only [ha.entry]
    by_cases hexpired : e.expiry < now
    · rw [if_pos hexpired, ha.recent]
      simp only [Option.isSome_none, Bool.false_eq_true, if_false]
      rw [adjust_middle ha.leftKeys ha.ofKey ha.rightKeys, Entry.mark]
      by_cases hq : e.quarantine
      · rw [if_pos hq]
        refine ⟨h, ?_⟩
        rw [ha.recent, hq, Bool.true_or, ← hq]
      · rw [if_neg hq]
        refine ⟨h.write (f := fun e => { e with quarantine := true }) (fun _ => rfl) rfl rfl
          (List.Perm.refl _) rfl rfl, ?_⟩
        have hwrite := recent_write h hkey fun e => { e with quarantine := true }
        rw [ha.recent, adjust_middle ha.leftKeys ha.ofKey ha.rightKeys] at hwrite
        rw [decide_eq_true hexpired, Bool.or_true]
        exact hwrite
    · rw [if_neg hexpired]
      have hid : (c.write elem id).elems = c.elems := by
        funext i
        show (if i = elem then (c.elems i).map id else c.elems i) = c.elems i
        rw [Option.map_id, id, ite_self]
      have hmove := recent_moveToFront h hkey id
      rw [hid] at hmove
      exact ⟨h.write (f := id) (fun _ => rfl) rfl rfl (perm_moveToFront _ _) hid.symm rfl, hmove⟩

lemma increaseTTL_state (h : Wellformed c) (key : K) (now : Time) :
    Wellformed (IncreaseTTL c key now).1 ∧ (IncreaseTTL c key now).1.recent =
      adjust Entry.key key (fun e => { e with expiry := now + c.ttl }) c.recent := by
  rw [IncreaseTTL]
  rcases hkey : c.cache.lookup key with _ | elem
  · exact ⟨h, (adjust_of_notMem (notMem_recent h hkey)).symm⟩
  · exact ⟨h.write (f := fun e => { e with expiry := now + c.ttl }) (fun _ => rfl) rfl rfl
      (List.Perm.refl _) rfl rfl, recent_write h hkey _⟩

end Workforce.RejectionCache
