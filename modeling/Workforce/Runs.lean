import Mathlib.Tactic

/-!
Runs of a labelled transition system, with the state before each step kept, so that
conditions on single steps and properties of whole runs can be stated side by side.
-/

namespace Workforce.Runs

universe u v

variable {σ : Type u} {ℓ : Type v}

/-- A run from one state to another; the list holds, for each step, the state before it and
its label. -/
inductive Run (step : σ → ℓ → σ → Prop) : σ → List (σ × ℓ) → σ → Prop
  | nil (s : σ) : Run step s [] s
  | cons {s u t : σ} {l : ℓ} {tr : List (σ × ℓ)} :
      step s l u → Run step u tr t → Run step s ((s, l) :: tr) t

/-- Every step of the run meets the condition. -/
def Meets (G : σ → ℓ → Prop) (tr : List (σ × ℓ)) : Prop := ∀ p ∈ tr, G p.1 p.2

/-- The states a run goes through, the last one included. -/
def states (tr : List (σ × ℓ)) (t : σ) : List σ := tr.map Prod.fst ++ [t]

variable {step : σ → ℓ → σ → Prop} {G : σ → ℓ → Prop} {s t u : σ} {l : ℓ} {tr : List (σ × ℓ)}

@[simp] lemma meets_nil : Meets G ([] : List (σ × ℓ)) := by simp [Meets]

@[simp] lemma meets_cons : Meets G ((s, l) :: tr) ↔ G s l ∧ Meets G tr := by simp [Meets]

variable {tr' : List (σ × ℓ)}

@[simp] lemma states_nil : states ([] : List (σ × ℓ)) t = [t] := rfl

@[simp] lemma states_cons : states ((s, l) :: tr) t = s :: states tr t := rfl

lemma Run.append (h : Run step s tr u) (h' : Run step u tr' t) : Run step s (tr ++ tr') t := by
  induction h with
  | nil _ => exact h'
  | cons hs _ ih => exact .cons hs (ih h')

/-- Some run leads from one state to the other, all of its steps meeting the condition. -/
def Leads (step : σ → ℓ → σ → Prop) (G : σ → ℓ → Prop) (s t : σ) : Prop :=
  ∃ tr, Run step s tr t ∧ Meets G tr

lemma Leads.refl (s : σ) : Leads step G s s := ⟨[], .nil s, meets_nil⟩

lemma Leads.cons (hs : step s l u) (hG : G s l) (h : Leads step G u t) : Leads step G s t := by
  obtain ⟨tr, hrun, hmeets⟩ := h
  exact ⟨_, .cons hs hrun, meets_cons.mpr ⟨hG, hmeets⟩⟩

lemma Run.last_mem : t ∈ states tr t := by simp [states]

lemma Run.mem_states {p : σ × ℓ} (hp : p ∈ tr) : p.1 ∈ states tr t :=
  List.mem_append_left _ (List.mem_map_of_mem hp)

lemma Run.head_mem (h : Run step s tr t) : ∃ r, states tr t = s :: r := by
  cases h with
  | nil => exact ⟨[], rfl⟩
  | cons _ _ => exact ⟨_, rfl⟩

variable {I : σ → Prop}

/-- **Invariants.** What every step that meets the condition preserves holds in every state
of a run whose steps all meet it. -/
theorem Run.invariant (hstep : ∀ s l t, I s → G s l → step s l t → I t) (h : Run step s tr t)
    (hG : Meets G tr) (hI : I s) : ∀ u ∈ states tr t, I u := by
  induction h with
  | nil s => simpa using hI
  | cons hs _ ih =>
    rw [meets_cons] at hG
    rw [states_cons, List.forall_mem_cons]
    exact ⟨hI, ih hG.2 (hstep _ _ _ hI hG.1 hs)⟩

variable {R : σ → σ → Prop}

/-- What every step that meets the condition brings about, from states with the invariant, holds
between any two states of a run that follow each other. -/
theorem Run.chain (hI : ∀ s l t, I s → G s l → step s l t → I t)
    (hR : ∀ s l t, I s → G s l → step s l t → R s t) (h : Run step s tr t) (hG : Meets G tr)
    (hs : I s) : (states tr t).IsChain R := by
  induction h with
  | nil s => exact .singleton s
  | @cons s u t l tr hstep hr ih =>
    rw [meets_cons] at hG
    have hrest := ih hG.2 (hI _ _ _ hs hG.1 hstep)
    obtain ⟨r, hr'⟩ := hr.head_mem
    rw [states_cons, hr', List.isChain_cons_cons]
    exact ⟨hR _ _ _ hs hG.1 hstep, hr' ▸ hrest⟩

/-- If the relation is transitive, it holds between any two states of the run. -/
theorem Run.pairwise (htrans : ∀ {a b c}, R a b → R b c → R a c)
    (hI : ∀ s l t, I s → G s l → step s l t → I t)
    (hR : ∀ s l t, I s → G s l → step s l t → R s t) (h : Run step s tr t) (hG : Meets G tr)
    (hs : I s) : (states tr t).Pairwise R := by
  have : Trans R R R := ⟨htrans⟩
  exact (h.chain hI hR hG hs).pairwise

/-- Let `J` be kept by every step, and let a step between states with `J`, from one with `I`,
meet the condition exactly when it keeps `I`. Then the steps of a run all meet the condition
exactly when `I` holds all along it. -/
theorem Run.always_iff {J : σ → Prop} (hJ : ∀ s l t, J s → step s l t → J t)
    (hiff : ∀ s l t, J s → I s → step s l t → (G s l ↔ I t)) (h : Run step s tr t) (hj : J s)
    (hi : I s) : (∀ u ∈ states tr t, I u) ↔ Meets G tr := by
  induction h with
  | nil s => simpa using hi
  | @cons s u t l tr hstep hr ih =>
    have hu := hJ _ _ _ hj hstep
    obtain ⟨r, hr'⟩ := hr.head_mem
    rw [states_cons, List.forall_mem_cons, meets_cons, hiff _ _ _ hj hi hstep]
    constructor
    · rintro ⟨-, hall⟩
      have hiu : I u := hall u (by rw [hr']; exact List.mem_cons_self)
      exact ⟨hiu, (ih hu hiu).mp hall⟩
    · rintro ⟨hiu, hmeets⟩
      exact ⟨hi, (ih hu hiu).mpr hmeets⟩

/-- Let `I` imply `A`, be kept by every step that meets the condition, and let a step from a state
with `I` meet the condition exactly when it leads to `A`. Then the steps of a run from `I` all meet
the condition exactly when `A` holds all along it. -/
theorem Run.observed_iff {A : σ → Prop} (hA : ∀ s, I s → A s)
    (hI : ∀ s l t, I s → G s l → step s l t → I t)
    (hiff : ∀ s l t, I s → step s l t → (G s l ↔ A t)) (h : Run step s tr t) (hs : I s) :
    (∀ u ∈ states tr t, A u) ↔ Meets G tr := by
  constructor
  · intro hall
    induction h with
    | nil s => exact meets_nil
    | @cons s u t l tr hstep hr ih =>
      rw [states_cons, List.forall_mem_cons] at hall
      obtain ⟨r, hr'⟩ := hr.head_mem
      have hu : A u := hall.2 u (by rw [hr']; exact List.mem_cons_self)
      have hG : G s l := (hiff _ _ _ hs hstep).mpr hu
      exact meets_cons.mpr ⟨hG, ih (hI _ _ _ hs hG hstep) hall.2⟩
  · intro hG u hu
    exact hA u (h.invariant hI hG hs u hu)

end Workforce.Runs
