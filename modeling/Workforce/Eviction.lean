import Workforce.ArtifactCache

/-!
What an insertion evicts.

The loop of `evictLocked` removes entries in the order of their last use until the total is within
the limit. The entry just inserted is among them: it stays if the limit is reached by the time
the entries that were used strictly before it are gone.
-/

namespace Workforce.Eviction

open Contract Runs Tables ArtifactCache

variable {cfg : Config} {c : Cache} {s t : State} {hash : String} {size : ℕ} {now : Time}
  {items : List Entry} {maxSize : ℤ}

/-- The size of an entry that was last used before the time. -/
def sizeBefore (now : Time) (e : Entry) : ℤ := if e.lastUsed < now then e.size else 0

lemma sizeBefore_nonneg (now : Time) (e : Entry) : 0 ≤ sizeBefore now e := by
  unfold sizeBefore
  split_ifs
  · exact Int.natCast_nonneg _
  · rfl

/-- The items are entries of the cache, each once. -/
structure Held (c : Cache) (items : List Entry) : Prop where
  get : ∀ e ∈ items, c.entries.get e.hash = some e
  nodup : (items.map Entry.hash).Nodup

lemma Order.held (h : Order c items) : Held c items where
  get _ he := mem_values.mp (h.perm.mem_iff.mp he)
  nodup := (h.perm.map Entry.hash).nodup_iff.mpr (nodup_keys _)

lemma removeLocked_of_get {e : Entry} (h : c.entries.get e.hash = some e) :
    removeLocked c e.hash = ⟨c.entries.erase e.hash, c.total - e.size, c.files.erase e.hash⟩ := by
  unfold removeLocked
  rw [h]

lemma Held.tail {e : Entry} (h : Held c (e :: items)) :
    Held (removeLocked c e.hash) items := by
  have hnodup := List.nodup_cons.mp h.nodup
  refine ⟨fun e' he' => ?_, hnodup.2⟩
  rw [removeLocked_of_get (h.get e List.mem_cons_self)]
  rw [get_erase, if_neg]
  · exact h.get e' (List.mem_cons_of_mem _ he')
  · intro heq
    exact hnodup.1 (heq ▸ List.mem_map_of_mem he')

/-- If the items used before the time make enough room, no other entry is removed. -/
lemma evictLoop_keeps (hheld : Held c items)
    (hsorted : items.Pairwise fun a b => a.lastUsed ≤ b.lastUsed)
    (hfits : c.total - (items.map (sizeBefore now)).sum ≤ maxSize) {e : Entry}
    (he : c.entries.get e.hash = some e) (hlate : now ≤ e.lastUsed) :
    (evictLoop maxSize c items).entries.get e.hash = some e ∧
      (e.hash ∈ c.files → e.hash ∈ (evictLoop maxSize c items).files) := by
  induction items generalizing c with
  | nil => exact ⟨he, id⟩
  | cons item rest ih =>
    unfold evictLoop
    split_ifs with hle
    · exact ⟨he, id⟩
    rw [List.pairwise_cons] at hsorted
    rw [List.map_cons, List.sum_cons] at hfits
    have hitem := hheld.get item List.mem_cons_self
    -- the limit is not reached, so there are items used before left, and this is the first
    have hearly : item.lastUsed < now := by
      by_contra hlate'
      have hzero : ∀ x ∈ (item :: rest).map (sizeBefore now), x = 0 := by
        intro x hx
        obtain ⟨e', he', rfl⟩ := List.mem_map.mp hx
        rw [sizeBefore, if_neg]
        rcases List.mem_cons.mp he' with rfl | he'
        · exact hlate'
        · exact fun hlt => hlate' (lt_of_le_of_lt (hsorted.1 e' he') hlt)
      have hsum := List.sum_eq_zero hzero
      rw [List.map_cons, List.sum_cons] at hsum
      omega
    have hne : e.hash ≠ item.hash := by
      intro heq
      rw [heq, hitem] at he
      cases he
      exact absurd hearly (not_lt.mpr hlate)
    have hrem := removeLocked_of_get hitem
    have hget : (removeLocked c item.hash).entries.get e.hash = some e := by
      rw [hrem]
      rw [get_erase, if_neg hne, he]
    obtain ⟨hkept, hfile⟩ := ih hheld.tail hsorted.2 (by
      rw [sizeBefore, if_pos hearly] at hfits
      rw [hrem]
      dsimp only
      omega) hget
    refine ⟨hkept, fun hmem => hfile ?_⟩
    rw [hrem]
    exact Finset.mem_erase.mpr ⟨hne, hmem⟩

lemma evictLoop_of_none (h : c.entries.get hash = none) :
    (evictLoop maxSize c items).entries.get hash = none := by
  induction items generalizing c with
  | nil => exact h
  | cons item rest ih =>
    unfold evictLoop
    split_ifs
    · exact h
    · refine ih ?_
      unfold removeLocked
      split
      · exact h
      · rw [get_erase]
        split_ifs
        · rfl
        · exact h

/-- If the items before an entry do not make enough room, the entry goes as well. -/
lemma evictLoop_removes {e : Entry} {before after : List Entry}
    (hheld : Held c (before ++ e :: after))
    (hfull : maxSize < c.total - (before.map fun e => (e.size : ℤ)).sum) :
    (evictLoop maxSize c (before ++ e :: after)).entries.get e.hash = none := by
  induction before generalizing c with
  | nil =>
    rw [List.map_nil, List.sum_nil, sub_zero] at hfull
    rw [List.nil_append, evictLoop, if_neg (not_le.mpr hfull)]
    refine evictLoop_of_none ?_
    rw [removeLocked_of_get (hheld.get e List.mem_cons_self)]
    rw [get_erase, if_pos rfl]
  | cons item rest ih =>
    rw [List.map_cons, List.sum_cons] at hfull
    have hnonneg : 0 ≤ (rest.map fun e => (e.size : ℤ)).sum :=
      List.sum_nonneg fun x hx => by
        obtain ⟨e', -, rfl⟩ := List.mem_map.mp hx
        exact Int.natCast_nonneg _
    rw [List.cons_append, evictLoop, if_neg (by omega)]
    refine ih hheld.tail ?_
    rw [removeLocked_of_get (hheld.get item List.mem_cons_self)]
    dsimp only
    omega

lemma files_evictLoop (maxSize : ℤ) (c : Cache) (items : List Entry) :
    (evictLoop maxSize c items).files ⊆ c.files := by
  induction items generalizing c with
  | nil => exact Finset.Subset.refl _
  | cons item rest ih =>
    unfold evictLoop
    split_ifs
    · exact Finset.Subset.refl _
    · refine (ih _).trans ?_
      unfold removeLocked
      split
      · exact Finset.Subset.refl _
      · exact Finset.erase_subset _ _

lemma files_evictLocked (cfg : Config) (c : Cache) (items : List Entry) :
    (evictLocked cfg c items).files ⊆ c.files := by
  unfold evictLocked
  split_ifs
  · exact Finset.Subset.refl _
  · exact files_evictLoop _ _ _

/-! ### The entry just inserted -/

/-- There is no limit, or the total with the new entry is within it once all other entries that
were used strictly before are gone. -/
def Fits (cfg : Config) (c : Cache) (hash : String) (size : ℕ) (now : Time) : Prop :=
  cfg.maxSize ≤ 0 ∨
    c.total + size - (c.entries.erase hash).total (sizeBefore now) ≤ cfg.maxSize

/-- The new entry is in the cache with its file, and only entries that were used before it have
been removed. -/
structure Kept (c : Cache) (hash : String) (size : ℕ) (now : Time) (c' : Cache) : Prop where
  entry : c'.entries.get hash = some ⟨hash, size, now⟩
  file : hash ∈ c'.files
  older : ∀ e ∈ c.entries.values, e.hash ≠ hash → c'.entries.get e.hash = none → e.lastUsed < now

lemma get_insert (c : Cache) (hash : String) (size : ℕ) (now : Time) :
    (insert c hash size now).entries.get hash = some ⟨hash, size, now⟩ :=
  get_put_self _ (⟨hash, size, now⟩ : Entry)

lemma get_insert_of_ne {e : Entry} (he : e ∈ c.entries.values) (hne : e.hash ≠ hash) :
    (insert c hash size now).entries.get e.hash = some e := by
  show (c.entries.put _).get e.hash = _
  rw [get_put, if_neg hne, mem_values.mp he]

lemma sum_sizeBefore (horder : Order (insert c hash size now) items) :
    (items.map (sizeBefore now)).sum = (c.entries.erase hash).total (sizeBefore now) := by
  rw [(horder.perm.map (sizeBefore now)).sum_eq]
  have hput : (insert c hash size now).entries.total (sizeBefore now) =
      sizeBefore now ⟨hash, size, now⟩ + (c.entries.erase hash).total (sizeBefore now) :=
    List.sum_cons
  rw [sizeBefore, if_neg (lt_irrefl now), zero_add] at hput
  exact hput

lemma kept_of_fits (hfile : hash ∈ c.files) (hfits : Fits cfg c hash size now)
    (horder : Order (insert c hash size now) items) :
    Kept c hash size now (evictLocked cfg (insert c hash size now) items) := by
  have hnew := get_insert c hash size now
  unfold evictLocked
  split_ifs with hroom
  · refine ⟨hnew, hfile, fun e he hne hnone => ?_⟩
    rw [get_insert_of_ne he hne] at hnone
    cases hnone
  rw [not_or, not_le, not_le] at hroom
  have hfits' := hfits.resolve_left (not_le.mpr hroom.1)
  rw [← sum_sizeBefore horder] at hfits'
  have hkeeps {e : Entry} (he : (insert c hash size now).entries.get e.hash = some e)
      (hlate : now ≤ e.lastUsed) :=
    evictLoop_keeps (Order.held horder) horder.sorted hfits' he hlate
  obtain ⟨hentry, hstays⟩ := hkeeps (e := ⟨hash, size, now⟩) hnew le_rfl
  refine ⟨hentry, hstays hfile, fun e he hne hnone => ?_⟩
  by_contra hlate
  rw [(hkeeps (get_insert_of_ne he hne) (not_lt.mp hlate)).1] at hnone
  cases hnone

lemma sum_filter_before (now : Time) (l : List Entry) :
    ((l.filter fun e => e.lastUsed < now).map fun e => (e.size : ℤ)).sum =
      (l.map (sizeBefore now)).sum := by
  induction l with
  | nil => rfl
  | cons e l ih =>
    rw [List.map_cons, List.sum_cons, ← ih, sizeBefore, List.filter_cons]
    by_cases he : e.lastUsed < now <;> simp [he]

/-- The sort may put the new entry right after those that were used before it. -/
lemma exists_order (c : Cache) (hash : String) (size : ℕ) (now : Time) :
    ∃ before after, Order (insert c hash size now) (before ++ ⟨hash, size, now⟩ :: after) ∧
      (before.map fun e => (e.size : ℤ)).sum = (c.entries.erase hash).total (sizeBefore now) := by
  let sort := List.insertionSort fun a b : Entry => a.lastUsed ≤ b.lastUsed
  let rest := (c.entries.erase hash).values
  have hperm (l : List Entry) : (sort l).Perm l := List.perm_insertionSort _ l
  have hsorted (l : List Entry) : (sort l).Pairwise fun a b => a.lastUsed ≤ b.lastUsed :=
    List.pairwise_insertionSort _ l
  have hbefore : ∀ e ∈ sort (rest.filter fun e => e.lastUsed < now), e.lastUsed < now :=
    fun e he => by simpa using (List.mem_filter.mp ((hperm _).mem_iff.mp he)).2
  have hafter : ∀ e ∈ sort (rest.filter fun e => !decide (e.lastUsed < now)), now ≤ e.lastUsed :=
    fun e he => by simpa using (List.mem_filter.mp ((hperm _).mem_iff.mp he)).2
  refine ⟨sort (rest.filter fun e => e.lastUsed < now),
    sort (rest.filter fun e => !decide (e.lastUsed < now)), ⟨?_, ?_⟩, ?_⟩
  · refine List.perm_middle.trans (List.Perm.cons _ (((hperm _).append (hperm _)).trans ?_))
    exact List.filter_append_perm (fun e : Entry => decide (e.lastUsed < now)) rest
  · rw [List.pairwise_append, List.pairwise_cons]
    refine ⟨hsorted _, ⟨fun e he => hafter e he, hsorted _⟩, fun a ha b hb => ?_⟩
    rcases List.mem_cons.mp hb with rfl | hb
    · exact (hbefore a ha).le
    · exact (hbefore a ha).le.trans (hafter b hb)
  · rw [((hperm _).map _).sum_eq, sum_filter_before]
    rfl

/-- Some order evicts an entry that does not fit. -/
lemma exists_evicted (hfits : ¬Fits cfg c hash size now) :
    ∃ items, Order (insert c hash size now) items ∧
      (evictLocked cfg (insert c hash size now) items).entries.get hash = none := by
  obtain ⟨before, after, horder, hsum⟩ := exists_order c hash size now
  unfold Fits at hfits
  have hnonneg : 0 ≤ (before.map fun e => (e.size : ℤ)).sum := by
    rw [hsum]
    exact total_nonneg fun e _ => sizeBefore_nonneg now e
  have htotal : (insert c hash size now).total = c.total + size := rfl
  refine ⟨_, horder, ?_⟩
  rw [evictLocked, if_neg (by omega)]
  exact evictLoop_removes (Order.held horder) (by omega)

/-- **What a download is worth.** When `Obtain` inserts the artifact it has downloaded, then
however the sort orders equal times, the entry stays in the cache with its file and only entries
used before it are evicted, exactly if the file is still there and the entry fits. -/
theorem obtained_kept_iff (cfg : Config) (s : State) (id : ℕ) (hash : String) (size : ℕ)
    (now : Time) (hcall : s.calls.get id = some ⟨id, hash, .renamed size⟩) :
    (∀ items t, step cfg s (.obtain id now items) t → Kept s.cache hash size now t.cache) ↔
      hash ∈ s.cache.files ∧ Fits cfg s.cache hash size now := by
  have hstep {items : List Entry} (horder : Order (insert s.cache hash size now) items) :
      ∃ t, step cfg s (.obtain id now items) t ∧
        t.cache = evictLocked cfg (insert s.cache hash size now) items :=
    ⟨_, ⟨_, size, hcall, rfl, horder, rfl⟩, rfl⟩
  constructor
  · intro h
    constructor
    · obtain ⟨before, after, horder, -⟩ := exists_order s.cache hash size now
      obtain ⟨t, ht, hcache⟩ := hstep horder
      have hfile := (h _ t ht).file
      rw [hcache] at hfile
      exact files_evictLocked cfg (insert s.cache hash size now) _ hfile
    · by_contra hfits
      obtain ⟨items, horder, hnone⟩ := exists_evicted hfits
      obtain ⟨t, ht, hcache⟩ := hstep horder
      have hentry := (h _ t ht).entry
      rw [hcache, hnone] at hentry
      cases hentry
  · rintro ⟨hfile, hfits⟩ items t ⟨call, size', hcall', hphase, horder, rfl⟩
    rw [hcall] at hcall'
    cases hcall'
    cases hphase
    exact kept_of_fits hfile hfits horder

theorem obtained_kept_first :
    firstLoaded.calls.get 0 = some ⟨0, "h", .renamed 4⟩ ∧
    ∀ items t, step small firstLoaded (.obtain 0 1 items) t →
      Kept firstLoaded.cache "h" 4 1 t.cache :=
  ⟨by decide, (obtained_kept_iff small firstLoaded 0 "h" 4 1 (by decide)).mpr
    ⟨by decide, .inr (by decide)⟩⟩

/-! ### An artifact larger than the cache -/

def large : Bytes := List.replicate 11 0

def largeLoaded : State := downloaded (leading (missed (fetched .initial 0) 0) 0) 0 large

/-- **A path to nothing.** The artifact is larger than the cache: it is evicted by its own
insertion, and the call returns the path of the file that has been removed. -/
theorem large_evicted :
    Run (step small) .initial
      [(.initial, .fetch 0 "h"), (fetched .initial 0, .lookup 0 0),
        (missed (fetched .initial 0) 0, .join 0),
        (leading (missed (fetched .initial 0) 0) 0, .download 0 large),
        (largeLoaded, .obtain 0 1 [⟨"h", 11, 1⟩]), (obtained largeLoaded 0 11 1, .finish 0)]
      (finished (obtained largeLoaded 0 11 1) 0) ∧
    "h" ∈ largeLoaded.cache.files ∧
    (obtained largeLoaded 0 11 1).cache.entries.get "h" = none ∧
    "h" ∉ (obtained largeLoaded 0 11 1).cache.files ∧
    (finished (obtained largeLoaded 0 11 1) 0).calls.get 0 = some ⟨0, "h", .finished true⟩ := by
  refine ⟨?_, by decide, by decide, by decide, by decide⟩
  exact .cons ⟨rfl, rfl⟩ (.cons ⟨⟨0, "h", .called⟩, by decide, rfl, rfl⟩
    (.cons ⟨⟨0, "h", .missed⟩, by decide, rfl, rfl⟩
    (.cons ⟨⟨0, "h", .downloading⟩, by decide, rfl, rfl⟩
    (.cons ⟨⟨0, "h", .renamed 11⟩, 11, by decide, rfl, ⟨by decide, by decide⟩, rfl⟩
    (.cons ⟨⟨0, "h", .obtained true⟩, true, by decide, rfl, rfl⟩ (.nil _))))))

end Workforce.Eviction
