import Mathlib.Data.List.Forall2
import Mathlib.Tactic

/-!
Lists in the order of last use, the latest first.

An entry that is used comes to the front, one that is only changed stays where it is. Two lists
whose entries correspond position by position keep doing so if both are used and changed alike.
-/

namespace Workforce.Recency

variable {E X K : Type*} [DecidableEq K] {key : E → K} {key' : X → K} {k : K}

def promote (key : E → K) (k : K) (f : E → E) (l : List E) : List E :=
  match l.find? fun e => key e = k with
  | some e => f e :: l.eraseP fun e => key e = k
  | none => l

def adjust (key : E → K) (k : K) (f : E → E) (l : List E) : List E :=
  l.map fun e => if key e = k then f e else e

variable {l l₁ l₂ : List E} {e : E} {f : E → E} {g : X → X}

lemma find?_middle (h₁ : ∀ x ∈ l₁, key x ≠ k) (he : key e = k) :
    (l₁ ++ e :: l₂).find? (fun e => key e = k) = some e := by
  rw [List.find?_append, List.find?_eq_none.mpr (by simpa using h₁), Option.none_or,
    List.find?_cons_of_pos (by simpa using he)]

lemma promote_middle (h₁ : ∀ x ∈ l₁, key x ≠ k) (he : key e = k) :
    promote key k f (l₁ ++ e :: l₂) = f e :: (l₁ ++ l₂) := by
  rw [promote, find?_middle h₁ he]
  rw [List.eraseP_append_right _ (by simpa using h₁), List.eraseP_cons_of_pos (by simpa using he)]

lemma find?_promote (h : l.find? (fun e => key e = k) = some e) (hf : key (f e) = k) :
    (promote key k f l).find? (fun e => key e = k) = some (f e) := by
  rw [promote, h]
  exact List.find?_cons_of_pos (by simpa using hf)

lemma adjust_of_notMem (h : ∀ x ∈ l, key x ≠ k) : adjust key k f l = l := by
  rw [adjust, List.map_congr_left fun x hx => if_neg (h x hx), List.map_id']

lemma adjust_middle (h₁ : ∀ x ∈ l₁, key x ≠ k) (he : key e = k) (h₂ : ∀ x ∈ l₂, key x ≠ k) :
    adjust key k f (l₁ ++ e :: l₂) = l₁ ++ f e :: l₂ := by
  have hsplit : adjust key k f (l₁ ++ e :: l₂) =
      adjust key k f l₁ ++ f e :: adjust key k f l₂ := by
    simp [adjust, he]
  rw [hsplit, adjust_of_notMem h₁, adjust_of_notMem h₂]

/-! ### Corresponding lists -/

section Corresponding

variable {M N : E → X → Prop} {r : List X}

lemma find?_corresponding (hkey : ∀ e x, M e x → key e = key' x) (h : List.Forall₂ M l r) :
    (l.find? (fun e => key e = k) = none ∧ r.find? (fun x => key' x = k) = none) ∨
      ∃ e x, l.find? (fun e => key e = k) = some e ∧ r.find? (fun x => key' x = k) = some x ∧
        M e x ∧ key e = k ∧
          List.Forall₂ M (l.eraseP fun e => key e = k) (r.eraseP fun x => key' x = k) := by
  induction h with
  | nil => exact .inl ⟨rfl, rfl⟩
  | @cons e x l r hex hlr ih =>
    have hx := hkey e x hex
    by_cases hk : key e = k
    · refine .inr ⟨e, x, ?_, ?_, hex, hk, ?_⟩
      · simp [hk]
      · simp [← hx, hk]
      · simpa [hk, ← hx] using hlr
    · have hk' : key' x ≠ k := hx ▸ hk
      rcases ih with ⟨hl, hr⟩ | ⟨e', x', hl, hr, hex', hke, herase⟩
      · exact .inl ⟨by simpa [hk] using hl, by simpa [hk'] using hr⟩
      · refine .inr ⟨e', x', by simpa [hk] using hl, by simpa [hk'] using hr, hex', hke, ?_⟩
        simpa [hk, hk'] using List.Forall₂.cons hex herase

lemma forall₂_promote (hkey : ∀ e x, M e x → key e = key' x) (hN : ∀ e x, M e x → N e x)
    (hfg : ∀ e x, l.find? (fun e => key e = k) = some e → M e x → N (f e) (g x))
    (h : List.Forall₂ M l r) : List.Forall₂ N (promote key k f l) (promote key' k g r) := by
  unfold promote
  rcases find?_corresponding hkey h with ⟨hl, hr⟩ | ⟨e, x, hl, hr, hex, -, herase⟩ <;>
    rw [hl, hr]
  · exact h.imp hN
  · exact .cons (hfg e x hl hex) (herase.imp hN)

lemma forall₂_adjust (hkey : ∀ e x, M e x → key e = key' x) (hN : ∀ e x, M e x → N e x)
    (hfg : ∀ e x, M e x → key e = k → N (f e) (g x)) (h : List.Forall₂ M l r) :
    List.Forall₂ N (adjust key k f l) (adjust key' k g r) := by
  unfold adjust
  rw [List.forall₂_map_left_iff, List.forall₂_map_right_iff]
  refine h.imp fun e x hex => ?_
  rw [← hkey e x hex]
  split_ifs with hk
  · exact hfg e x hex hk
  · exact hN e x hex

end Corresponding

end Workforce.Recency
