import Mathlib.Data.List.GetD
import Mathlib.Data.Nat.ModEq

/-!
The sliding window of samples.

A window keeps the last values pushed in a ring: a head that wraps around, and a count that stops
at the capacity. Where the code would panic, on an index out of range or a division by zero, the
model has no result, so that a result is a theorem.
-/

namespace Workforce.Windows

structure Window (T : Type) where
  data : List T
  cap : ℕ
  head : ℕ := 0
  count : ℕ := 0

variable {T σ : Type}

/-- A new window; a capacity that is not positive panics. -/
def New [Inhabited T] (capacity : ℤ) : Option (Window T) :=
  if capacity ≤ 0 then none
  else some { data := List.replicate capacity.toNat default, cap := capacity.toNat }

namespace Window

/-- `a % w.cap`, which panics for a capacity of zero. -/
def wrap (w : Window T) (a : ℕ) : Option ℕ := if w.cap = 0 then none else some (a % w.cap)

def Push (w : Window T) (v : T) : Option (Window T) :=
  if w.head < w.data.length then do
    let head ← w.wrap (w.head + 1)
    return { w with
      data := w.data.set w.head v
      head := head
      count := if w.count < w.cap then w.count + 1 else w.count }
  else none

/-- The rounds of `Each` from `i` on; the callback changes what it has captured. -/
def each (w : Window T) (fn : σ → T → σ) (start : ℕ) : ℕ → ℕ → σ → Option σ
  | 0, _, s => some s
  | n + 1, i, s => do
    let idx ← w.wrap (start + i)
    let v ← w.data[idx]?
    w.each fn start n (i + 1) (fn s v)

def Each (w : Window T) (fn : σ → T → σ) (s : σ) : Option σ :=
  w.each fn (if w.count = w.cap then w.head else 0) w.count 0 s

def Count (w : Window T) : ℕ := w.count

/-- The callback of `Average`: the first value is taken as it is. -/
def accumulate (add : T → T → T) (s : T × Bool) (v : T) : T × Bool :=
  if s.2 then (v, false) else (add s.1 v, s.2)

/-- Add the values up and divide by their number; the zero value if there are none. -/
def Average [Inhabited T] (w : Window T) (add : T → T → T) (divide : T → ℕ → T) : Option T :=
  if w.count = 0 then some default
  else do
    let s ← w.Each (accumulate add) (default, true)
    return divide s.1 w.count

def pushAll (w : Window T) : List T → Option (Window T)
  | [] => some w
  | v :: vs => do (← w.Push v).pushAll vs

end Window

/-! ### The ring -/

/-- Slot `k % cap` has the `k`-th value pushed, as long as that is one of the last `cap`. -/
structure Ring (w : Window T) (vs : List T) : Prop where
  pos : 0 < w.cap
  length : w.data.length = w.cap
  head : w.head = vs.length % w.cap
  count : w.count = min vs.length w.cap
  slot : ∀ k < vs.length, vs.length ≤ k + w.cap → w.data[k % w.cap]? = vs[k]?

variable {w : Window T} {vs : List T}

lemma Ring.head_lt (h : Ring w vs) : w.head < w.cap := h.head ▸ Nat.mod_lt _ h.pos

lemma ring_new [Inhabited T] {capacity : ℤ} (h : 1 ≤ capacity) :
    ∃ w : Window T, New capacity = some w ∧ w.cap = capacity.toNat ∧ Ring w [] := by
  refine ⟨_, if_neg (by omega), rfl, by dsimp only; omega, List.length_replicate, ?_, ?_, ?_⟩
  · exact (Nat.zero_mod _).symm
  · exact (Nat.zero_min _).symm
  · exact fun k hk => absurd hk (Nat.not_lt_zero k)

lemma slot_ne {k n cap : ℕ} (hk : k < n) (hn : n < k + cap) : k % cap ≠ n % cap := by
  intro he
  have hdvd : cap ∣ n - k := Nat.dvd_of_mod_eq_zero (Nat.sub_mod_eq_zero_of_mod_eq he.symm)
  have hle := Nat.le_of_dvd (by omega) hdvd
  omega

/-- One push: only the slot of the value that leaves the window is overwritten. -/
lemma Ring.push (h : Ring w vs) (v : T) :
    ∃ w', w.Push v = some w' ∧ w'.cap = w.cap ∧ Ring w' (vs ++ [v]) := by
  have hpos := h.pos
  have hlt : w.head < w.data.length := h.length ▸ h.head_lt
  have hpush : w.Push v = some { w with
      data := w.data.set w.head v
      head := (w.head + 1) % w.cap
      count := if w.count < w.cap then w.count + 1 else w.count } := by
    rw [Window.Push, if_pos hlt, Window.wrap, if_neg hpos.ne']
    rfl
  refine ⟨_, hpush, rfl, hpos, ?_, ?_, ?_, fun k hk hkept => ?_⟩
  · rw [List.length_set, h.length]
  · rw [h.head, Nat.mod_add_mod, List.length_append, List.length_singleton]
  · dsimp only
    rw [h.count, List.length_append, List.length_singleton]
    split_ifs <;> omega
  · rw [List.length_append, List.length_singleton] at hk hkept
    dsimp only at hkept ⊢
    rcases Nat.lt_or_ge k vs.length with hold | hnew
    · have hne := slot_ne hold (by omega : vs.length < k + w.cap)
      rw [h.head, List.getElem?_set_ne hne.symm, List.getElem?_append_left hold]
      exact h.slot k hold (by omega)
    · obtain rfl : k = vs.length := by omega
      rw [h.head] at hlt ⊢
      rw [List.getElem?_set_self hlt, List.getElem?_concat_length]

/-- **Every sequence of pushes** goes through and leaves the ring of its values. -/
lemma Ring.pushAll (h : Ring w vs) (us : List T) :
    ∃ w', w.pushAll us = some w' ∧ w'.cap = w.cap ∧ Ring w' (vs ++ us) := by
  induction us generalizing w vs with
  | nil => exact ⟨w, rfl, rfl, by rwa [List.append_nil]⟩
  | cons v us ih =>
    obtain ⟨w₁, hpush, hcap₁, h₁⟩ := h.push v
    obtain ⟨w₂, hall, hcap₂, h₂⟩ := ih h₁
    refine ⟨w₂, ?_, hcap₂.trans hcap₁, by rwa [List.append_assoc] at h₂⟩
    rw [Window.pushAll, hpush]
    exact hall

/-! ### Reading the ring -/

/-- The index `Each` reads in round `i` is the slot of the `i`-th value that is kept. -/
lemma Ring.start (h : Ring w vs) (i : ℕ) :
    ((if w.count = w.cap then w.head else 0) + i) % w.cap =
      (vs.length - w.count + i) % w.cap := by
  have hcount := h.count
  split_ifs with hfull
  · rw [h.head, Nat.mod_add_mod, hfull, ← Nat.add_mod_right (vs.length - w.cap + i)]
    congr 1
    omega
  · have hall : vs.length - w.count = 0 := by omega
    rw [hall]

lemma Ring.each (h : Ring w vs) (fn : σ → T → σ) (s : σ) {n i : ℕ} (hn : i + n = w.count) :
    w.each fn (if w.count = w.cap then w.head else 0) n i s =
      some ((vs.drop (vs.length - n)).foldl fn s) := by
  have hcount := h.count
  -- by induction on the rounds left: they read what is left of the kept values
  induction n generalizing i s with
  | zero => simp [Window.each]
  | succ n ih =>
    have hk : vs.length - (n + 1) < vs.length := by omega
    have hslot := h.slot _ hk (by omega)
    have hi := h.start i
    rw [show vs.length - w.count + i = vs.length - (n + 1) by omega] at hi
    rw [Window.each, Window.wrap, if_neg h.pos.ne', hi, Option.bind_eq_bind, Option.bind_some,
      hslot, List.getElem?_eq_getElem hk, Option.bind_eq_bind, Option.bind_some, ih _ (by omega),
      List.drop_eq_getElem_cons hk, List.foldl_cons]
    congr 3
    omega

def kept (capacity : ℕ) (vs : List T) : List T := vs.drop (vs.length - min vs.length capacity)

lemma length_kept (capacity : ℕ) (vs : List T) :
    (kept capacity vs).length = min vs.length capacity := by
  rw [kept, List.length_drop]
  omega

lemma foldl_accumulate (add : T → T → T) (v : T) (vs : List T) :
    vs.foldl (Window.accumulate add) (v, false) = (vs.foldl add v, false) := by
  induction vs generalizing v with
  | nil => rfl
  | cons u vs ih => exact ih (add v u)

/-- **The window has the last values pushed, in order.** For a capacity of at least one and any
sequence of pushes nothing panics, head and count stay in range, the count is the number of values
kept, every callback given to `Each` sees exactly these in the order of the pushes, and the average
divides the left fold over them (with nothing pushed it is the zero value). -/
theorem window_keeps_last [Inhabited T] {capacity : ℤ} (hcap : 1 ≤ capacity) (vs : List T) :
    ∃ w : Window T, (New capacity).bind (·.pushAll vs) = some w ∧ w.cap = capacity.toNat ∧
      w.data.length = w.cap ∧ w.head < w.cap ∧ w.count ≤ w.cap ∧
      w.Count = min vs.length capacity.toNat ∧
      (∀ {σ : Type} (fn : σ → T → σ) (s : σ),
        w.Each fn s = some ((kept capacity.toNat vs).foldl fn s)) ∧
      ∀ (add : T → T → T) (divide : T → ℕ → T), w.Average add divide =
        some (match kept capacity.toNat vs with
          | [] => default
          | v :: rest => divide (rest.foldl add v) w.Count) := by
  obtain ⟨w₀, hnew, hcap₀, h₀⟩ := ring_new (T := T) hcap
  obtain ⟨w, hall, hcap', h⟩ := h₀.pushAll vs
  rw [List.nil_append] at h
  have hc : w.cap = capacity.toNat := hcap'.trans hcap₀
  have hcount : w.count = min vs.length capacity.toNat := hc ▸ h.count
  have heach {σ : Type} (fn : σ → T → σ) (s : σ) :
      w.Each fn s = some ((kept capacity.toNat vs).foldl fn s) := by
    rw [Window.Each, h.each fn s (Nat.zero_add _), kept, hcount]
  refine ⟨w, by rw [hnew]; exact hall, hc, h.length, h.head_lt, h.count ▸ min_le_right _ _, hcount,
    heach, fun add divide => ?_⟩
  have hlen := length_kept capacity.toNat vs
  rw [← hcount] at hlen
  rw [Window.Average, heach]
  cases hk : kept capacity.toNat vs with
  | nil =>
    rw [hk] at hlen
    exact if_pos hlen.symm
  | cons v rest =>
    rw [hk] at hlen
    rw [if_neg (by rw [← hlen]; exact Nat.succ_ne_zero _)]
    simp only [List.foldl_cons, Window.accumulate, if_true]
    show some (divide (rest.foldl _ (v, false)).1 w.count) = _
    rw [foldl_accumulate]
    rfl

/-- Three pushes on a window of two wrap the head around. -/
theorem window_keeps_last_two :
    ∃ w : Window ℕ, (New 2).bind (·.pushAll [5, 6, 7]) = some w ∧ w.head = 1 ∧
      w.Each (fun l v => l ++ [v]) [] = some [6, 7] ∧ w.Average (· + ·) (· / ·) = some 6 := by
  obtain ⟨w, hw, -, -, -, -, -, heach, havg⟩ := window_keeps_last (by decide : (1 : ℤ) ≤ 2) [5, 6, 7]
  have hrun : (New 2).bind (Window.pushAll · [5, 6, 7]) = some (⟨[7, 6], 2, 1, 2⟩ : Window ℕ) := rfl
  cases hrun.symm.trans hw
  exact ⟨_, rfl, rfl, heach _ _, havg _ _⟩

end Workforce.Windows
