import Mathlib.Tactic

/-!
Slash-separated names below a directory.

A path is the list of its parts. Names are joined to a directory part by part: an empty part or
a dot stays where it is, two dots go one level up, and every other part goes one level down.
-/

namespace Workforce.Paths

abbrev Path := List String

def components (name : String) : List String := (name.toList.splitOn '/').map String.ofList

def walk (p : Path) (part : String) : Path :=
  if part = "" ∨ part = "." then p else if part = ".." then p.dropLast else p ++ [part]

/-- The cleaned path of names below a directory. -/
def join (root : Path) (names : List String) : Path := (names.flatMap components).foldl walk root

/-- A name that is one part, and leads one level down. -/
structure Plain (name : String) : Prop where
  ne_empty : name ≠ ""
  ne_dot : name ≠ "."
  ne_dots : name ≠ ".."
  noSlash : '/' ∉ name.toList

instance (name : String) : Decidable (Plain name) :=
  decidable_of_iff (name ≠ "" ∧ name ≠ "." ∧ name ≠ ".." ∧ '/' ∉ name.toList)
    ⟨fun ⟨h₁, h₂, h₃, h₄⟩ => ⟨h₁, h₂, h₃, h₄⟩, fun ⟨h₁, h₂, h₃, h₄⟩ => ⟨h₁, h₂, h₃, h₄⟩⟩

variable {root p : Path} {name : String}

lemma components_plain (h : Plain name) : components name = [name] := by
  unfold components
  rw [List.splitOn_eq_singleton h.noSlash]
  simp

lemma walk_plain (h : Plain name) (p : Path) : walk p name = p ++ [name] := by
  simp [walk, h.ne_empty, h.ne_dot, h.ne_dots]

lemma join_append (root : Path) (l l' : List String) :
    join root (l ++ l') = join (join root l) l' := by
  simp [join]

@[simp] lemma join_nil (root : Path) : join root [] = root := rfl

lemma join_plain (h : Plain name) (root : Path) (names : List String) :
    join root (name :: names) = join (root ++ [name]) names := by
  simp [join, components_plain h, walk_plain h]

lemma notMem_of_mem_splitOn {a : Char} {l part : List Char} (h : part ∈ l.splitOn a) :
    a ∉ part := by
  induction l generalizing part with
  | nil =>
    rw [List.splitOn_nil, List.mem_singleton] at h
    simp [h]
  | cons c l ih =>
    rw [List.splitOn_cons_eq_if_modifyHead] at h
    split_ifs at h with hc
    · rcases List.mem_cons.mp h with rfl | h
      · exact List.not_mem_nil
      · exact ih h
    · -- the character belongs to the first part of the rest
      rcases hrest : l.splitOn a with _ | ⟨first, rest⟩
      · exact absurd hrest (List.splitOn_ne_nil a l)
      rw [hrest, List.modifyHead_cons, List.mem_cons] at h
      have hne : a ≠ c := fun heq => hc (by simp [heq])
      rcases h with rfl | h
      · rw [List.mem_cons, not_or]
        exact ⟨hne, ih (hrest ▸ List.mem_cons_self)⟩
      · exact ih (hrest ▸ List.mem_cons_of_mem _ h)

lemma noSlash_of_mem {part : String} (h : part ∈ components name) : '/' ∉ part.toList := by
  obtain ⟨l, hl, rfl⟩ := List.mem_map.mp h
  rw [String.toList_ofList]
  exact notMem_of_mem_splitOn hl

/-- After a walk, what is left of the directory comes first, and every other part is plain. -/
lemma walk_parts (root : Path) (l : List String) (hl : ∀ part ∈ l, '/' ∉ part.toList) :
    ∃ k parts, l.foldl walk root = root.take k ++ parts ∧ ∀ part ∈ parts, Plain part := by
  induction l using List.reverseRecOn with
  | nil => exact ⟨root.length, [], by simp, by simp⟩
  | append_singleton l part ih =>
    obtain ⟨k, parts, heq, hparts⟩ := ih fun q hq => hl q (List.mem_append_left _ hq)
    rw [List.foldl_append, heq, List.foldl_cons, List.foldl_nil]
    by_cases hstay : part = "" ∨ part = "."
    · exact ⟨k, parts, by rw [walk, if_pos hstay], hparts⟩
    by_cases hup : part = ".."
    · rw [walk, if_neg hstay, if_pos hup]
      rcases parts.eq_nil_or_concat with rfl | ⟨init, last, rfl⟩
      · refine ⟨min k root.length - 1, [], ?_, by simp⟩
        rw [List.append_nil, List.append_nil, List.dropLast_eq_take, List.take_take,
          List.length_take]
        congr 1
        omega
      · refine ⟨k, init, ?_, fun q hq => hparts q (by simp [hq])⟩
        rw [List.concat_eq_append, ← List.append_assoc, List.dropLast_concat]
    · have hplain : Plain part := by
        rw [not_or] at hstay
        exact ⟨hstay.1, hstay.2, hup, hl part (by simp)⟩
      refine ⟨k, parts ++ [part], by rw [walk_plain hplain, List.append_assoc], fun q hq => ?_⟩
      rcases List.mem_append.mp hq with hq | hq
      · exact hparts q hq
      · exact List.mem_singleton.mp hq ▸ hplain

variable {names l : List String}

lemma plain_below (h : p ++ [name] <+: join root names) (hp : root.length ≤ p.length) :
    Plain name := by
  obtain ⟨k, parts, heq, hparts⟩ := walk_parts root (names.flatMap components) (by
    intro part hpart
    obtain ⟨n, -, hn⟩ := List.mem_flatMap.mp hpart
    exact noSlash_of_mem hn)
  obtain ⟨rest, hrest⟩ := h
  have hget : (root.take k ++ parts)[p.length]? = some name := by
    have hjoin : join root names = root.take k ++ parts := heq
    rw [← hjoin, ← hrest]
    simp
  rw [List.getElem?_append_right (by rw [List.length_take]; omega)] at hget
  exact hparts name (List.mem_of_getElem? hget)

/-! ### Confinement -/

/-- The path is strictly below the directory. -/
def Confined (root p : Path) : Prop := root <+: p ∧ p ≠ root

/-- The walk below a directory, as long as it does not go above it. -/
def climb : Path → List String → Option Path
  | p, [] => some p
  | p, part :: rest =>
    if part = "" ∨ part = "." then climb p rest
    else if part = ".." then if p = [] then none else climb p.dropLast rest
    else climb (p ++ [part]) rest

/-- From the base below some directory, the names never lead above that directory, and in the end
to a path strictly below the base. -/
def Lands (base : Path) (names : List String) : Prop :=
  ∃ p ∈ climb base (names.flatMap components), Confined base p

lemma foldl_walk_of_climb {dir : Path} {q : Path} (h : climb p l = some q) :
    l.foldl walk (dir ++ p) = dir ++ q := by
  induction l generalizing p with
  | nil =>
    cases h
    rfl
  | cons part rest ih =>
    rw [List.foldl_cons, walk]
    unfold climb at h
    split_ifs at h ⊢ with hstay hup hp
    · exact ih h
    · rw [List.dropLast_append_of_ne_nil hp]
      exact ih h
    · rw [List.append_assoc]
      exact ih h

lemma notMem_foldl_walk {x : String} (hx : x ∉ p) (hl : x ∉ l) : x ∉ l.foldl walk p := by
  induction l generalizing p with
  | nil => exact hx
  | cons part rest ih =>
    rw [List.mem_cons, not_or] at hl
    refine ih ?_ hl.2
    unfold walk
    split_ifs
    · exact hx
    · exact fun hmem => hx (List.mem_of_mem_dropLast hmem)
    · simp [hx, hl.1]

/-- A walk that goes above a directory loses it for good, unless it names it. -/
lemma notMem_of_climb_none {x : String} (h : climb p l = none) (hx : x ∉ p) (hl : x ∉ l) :
    x ∉ l.foldl walk (x :: p) := by
  induction l generalizing p with
  | nil => cases h
  | cons part rest ih =>
    rw [List.mem_cons, not_or] at hl
    rw [List.foldl_cons, walk]
    unfold climb at h
    split_ifs at h ⊢ with hstay hup hp
    · exact ih h hx hl.2
    · -- here the directory itself is left
      subst hp
      exact notMem_foldl_walk List.not_mem_nil hl.2
    · rw [List.dropLast_cons_of_ne_nil hp]
      exact ih h (fun hmem => hx (List.mem_of_mem_dropLast hmem)) hl.2
    · refine ih h ?_ hl.2
      simp [hx, hl.1]

lemma plain_replicate (n : ℕ) : Plain (String.ofList (List.replicate (n + 1) 'a')) := by
  have hne (l : List Char) (hl : List.replicate (n + 1) 'a' ≠ l) :
      String.ofList (List.replicate (n + 1) 'a') ≠ String.ofList l :=
    fun h => hl (String.ofList_injective h)
  refine ⟨hne [] ?_, hne ['.'] ?_, hne ['.', '.'] ?_, ?_⟩
  · simp
  · simp [List.replicate_succ]
  · simp [List.replicate_succ]
  · rw [String.toList_ofList, List.mem_replicate]
    exact fun h => absurd h.2 (by decide)

lemma exists_plain_notMem (l : List String) : ∃ x, Plain x ∧ x ∉ l := by
  have hinj : Function.Injective fun n => String.ofList (List.replicate (n + 1) 'a') := by
    intro m n h
    simpa using congrArg List.length (String.ofList_injective h)
  obtain ⟨x, ⟨n, rfl⟩, hx⟩ :=
    (Set.infinite_range_of_injective hinj).exists_notMem_finset l.toFinset
  exact ⟨_, plain_replicate n, by simpa using hx⟩

/-- **Confinement.** Names below a base lead strictly below it, whatever directory the base is in,
exactly if they never lead above that directory and land there. -/
theorem confined_join_iff (base : Path) (names : List String) :
    (∀ dir : Path, (∀ x ∈ dir, Plain x) → Confined (dir ++ base) (join (dir ++ base) names)) ↔
      Lands base names := by
  unfold join Lands
  cases hclimb : climb base (names.flatMap components) with
  | some q =>
    simp only [foldl_walk_of_climb hclimb, Option.mem_def, Option.some.injEq, exists_eq_left']
    unfold Confined
    simp only [List.prefix_append_right_inj, ne_eq, List.append_cancel_left_eq]
    exact ⟨fun h => h [] (by simp), fun h _ _ => h⟩
  | none =>
    simp only [Option.mem_def, reduceCtorEq, false_and, exists_false, iff_false]
    intro h
    obtain ⟨x, hplain, hx⟩ := exists_plain_notMem (base ++ names.flatMap components)
    rw [List.mem_append, not_or] at hx
    obtain ⟨⟨rest, hrest⟩, -⟩ := h [x] (by simpa using hplain)
    refine notMem_of_climb_none hclimb hx.1 hx.2 ?_
    rw [← List.singleton_append, ← hrest]
    simp

end Workforce.Paths
