import Workforce.Runs

/-!
Programs of atomic calls.

A program is a tree: it issues a call, gets an answer, and goes on with the program the
answer selects. What a call does is a relation between the state before it, its answer and
the state after it, so an answer the program cannot foresee (a clock, a fresh identifier,
the order in which a map is enumerated) is simply one of several. The same program can be
run on its own, as one atomic operation, or call by call among other threads.
-/

namespace Workforce.Progs

open Runs

/-- A program over the calls `C` that ends in an `α`. -/
inductive Prog (C : Type → Type) (α : Type) : Type 1
  | pure (a : α)
  | call {β : Type} (c : C β) (k : β → Prog C α)

namespace Prog

variable {C : Type → Type} {α β γ : Type}

def bind : Prog C α → (α → Prog C β) → Prog C β
  | .pure a, f => f a
  | .call c k, f => .call c fun b => (k b).bind f

instance : Monad (Prog C) where
  pure := .pure
  bind := .bind

def lift (c : C β) : Prog C β := .call c .pure

@[simp] lemma pure_eq (a : α) : (Pure.pure a : Prog C α) = .pure a := rfl

@[simp] lemma pure_bind (a : α) (f : α → Prog C β) : (Prog.pure a >>= f) = f a := rfl

@[simp] lemma call_bind {δ : Type} (c : C δ) (k : δ → Prog C α) (f : α → Prog C β) :
    (Prog.call c k >>= f) = .call c fun b => k b >>= f := rfl

@[simp] lemma lift_bind (c : C α) (f : α → Prog C β) : (lift c >>= f) = .call c f := rfl

instance : LawfulMonad (Prog C) := by
  refine LawfulMonad.mk' (Prog C) (fun p => ?_) (fun _ _ => rfl) (fun p f g => ?_)
  · induction p with
    | pure a => rfl
    | call c k ih => exact congrArg (Prog.call c) (funext ih)
  · induction p with
    | pure a => rfl
    | call c k ih => exact congrArg (Prog.call c) (funext ih)

end Prog

open Prog

variable {C : Type → Type} {α β γ : Type}

/-- Every call in the tree satisfies `φ`. -/
def Prog.Uses (φ : ∀ {β : Type}, C β → Prop) : Prog C α → Prop
  | .pure _ => True
  | .call c k => φ c ∧ ∀ b, (k b).Uses φ

variable {φ : ∀ {β : Type}, C β → Prop} {p : Prog C α}

@[simp] lemma uses_pure (a : α) : (Prog.pure a : Prog C α).Uses φ ↔ True := Iff.rfl

lemma uses_bind (p : Prog C α) {f : α → Prog C β} (hp : p.Uses φ) (hf : ∀ a, (f a).Uses φ) :
    (p >>= f).Uses φ := by
  induction p with
  | pure a => exact hf a
  | call c k ih => exact ⟨hp.1, fun b => ih b (hp.2 b)⟩

lemma uses_mono {ψ : ∀ {β : Type}, C β → Prop} (h : ∀ {β : Type} (c : C β), φ c → ψ c)
    (hp : p.Uses φ) : p.Uses ψ := by
  induction p with
  | pure a => trivial
  | call c k ih => exact ⟨h c hp.1, fun b => ih b (hp.2 b)⟩

lemma uses_step {δ : Type} {c : C δ} {f : δ → Prog C α} (hc : φ c) (hf : ∀ b, (f b).Uses φ) :
    (lift c >>= f).Uses φ := ⟨hc, hf⟩

lemma uses_lift {c : C β} (h : φ c) : (lift c).Uses φ :=
  ⟨h, fun _ => trivial⟩

/-! ### Running alone -/

section Alone

variable {σ : Type} (exec : ∀ {β : Type}, C β → σ → β → σ → Prop)

/-- The program, run without interruption from `s`, ends with answer `a` in state `t`. -/
def Prog.Ends : Prog C α → σ → α → σ → Prop
  | .pure a, s, a', t => a' = a ∧ t = s
  | .call c k, s, a, t => ∃ b u, exec c s b u ∧ (k b).Ends u a t

variable {exec} {s t : σ} {a : α}

lemma ends_mono {exec' : ∀ {β : Type}, C β → σ → β → σ → Prop} (he : Ends exec p s a t)
    (h : ∀ {β : Type} {c : C β} {s b t}, exec c s b t → exec' c s b t) : Ends exec' p s a t := by
  induction p generalizing s with
  | pure b => exact he
  | call c k ih =>
    obtain ⟨b, u, hu, he'⟩ := he
    exact ⟨b, u, h hu, ih b he'⟩

/-- What a program does on a state shows in every image of the state that the calls respect. -/
lemma ends_map {τ : Type} {exec' : ∀ {β : Type}, C β → τ → β → τ → Prop} {π : σ → τ}
    (he : Ends exec p s a t)
    (h : ∀ {β : Type} {c : C β} {s b t}, exec c s b t → exec' c (π s) b (π t)) :
    Ends exec' p (π s) a (π t) := by
  induction p generalizing s with
  | pure b =>
    obtain ⟨rfl, rfl⟩ := he
    exact ⟨rfl, rfl⟩
  | call c k ih =>
    obtain ⟨b, u, hu, he'⟩ := he
    exact ⟨b, π u, h hu, ih b he'⟩

lemma ends_bind {f : α → Prog C γ} {c : γ} :
    Ends exec (p >>= f) s c t ↔ ∃ a u, Ends exec p s a u ∧ Ends exec (f a) u c t := by
  induction p generalizing s with
  | pure a =>
    refine ⟨fun h => ⟨a, s, ⟨rfl, rfl⟩, h⟩, ?_⟩
    rintro ⟨a', u, ⟨rfl, rfl⟩, h⟩
    exact h
  | call c k ih =>
    constructor
    · rintro ⟨b, u, hu, h⟩
      obtain ⟨a, v, hv, h'⟩ := (ih b).mp h
      exact ⟨a, v, ⟨b, u, hu, hv⟩, h'⟩
    · rintro ⟨a, v, ⟨b, u, hu, hv⟩, h'⟩
      exact ⟨b, u, hu, (ih b).mpr ⟨a, v, hv, h'⟩⟩

lemma ends_step {c : C β} {f : β → Prog C α} :
    Ends exec (lift c >>= f) s a t ↔ ∃ b u, exec c s b u ∧ Ends exec (f b) u a t := Iff.rfl

/-- A program with one answer that changes nothing. -/
lemma ends_bind_read {f : α → Prog C γ} {c : γ} {a₀ : α}
    (h : ∀ a u, Ends exec p s a u ↔ a = a₀ ∧ u = s) :
    Ends exec (p >>= f) s c t ↔ Ends exec (f a₀) s c t := by
  rw [ends_bind]
  constructor
  · rintro ⟨a, u, ha, he⟩
    obtain ⟨rfl, rfl⟩ := (h _ _).mp ha
    exact he
  · exact fun he => ⟨a₀, s, (h _ _).mpr ⟨rfl, rfl⟩, he⟩

lemma ends_lift {c : C β} {b : β} : Ends exec (lift c) s b t ↔ exec c s b t :=
  ⟨fun ⟨_, _, hu, hb, ht⟩ => hb ▸ ht ▸ hu, fun h => ⟨b, t, h, rfl, rfl⟩⟩

/-- The program after `n` of its calls, answered by `answer`; one that has ended stays. -/
def Prog.play {τ : Type} (answer : ∀ {β : Type}, C β → τ → Option (β × τ)) :
    ℕ → Prog C α → τ → Option (Prog C α × τ)
  | 0, p, x => some (p, x)
  | _ + 1, .pure a, x => some (.pure a, x)
  | n + 1, .call c k, x => (answer c x).bind fun r => (k r.1).play answer n r.2

lemma ends_of_play {τ : Type} {answer : ∀ {β : Type}, C β → τ → Option (β × τ)} {π : τ → σ}
    (hanswer : ∀ {β : Type} {c : C β} {x b y}, answer c x = some (b, y) → exec c (π x) b (π y))
    {n : ℕ} {x y : τ} (h : p.play answer n x = some (.pure a, y)) : Ends exec p (π x) a (π y) := by
  induction n generalizing p x with
  | zero =>
    cases h
    exact ⟨rfl, rfl⟩
  | succ n ih =>
    cases p with
    | pure b =>
      cases h
      exact ⟨rfl, rfl⟩
    | call c k =>
      obtain ⟨⟨b, z⟩, hz, h⟩ := Option.bind_eq_some_iff.mp h
      exact ⟨b, π z, hanswer hz, ih h⟩

variable (exec) in
/-- The program ends as in `Ends`; the list holds the states it goes through, one a call. -/
def Prog.Visits : Prog C α → σ → α → σ → List σ → Prop
  | .pure a, s, a', t, l => a' = a ∧ t = s ∧ l = []
  | .call c k, s, a, t, l => ∃ b u l', exec c s b u ∧ (k b).Visits u a t l' ∧ l = u :: l'

lemma exists_visits (h : Ends exec p s a t) : ∃ l, Visits exec p s a t l := by
  induction p generalizing s with
  | pure b => exact ⟨[], h.1, h.2, rfl⟩
  | call c k ih =>
    obtain ⟨b, u, hu, h'⟩ := h
    obtain ⟨l, hl⟩ := ih b h'
    exact ⟨u :: l, b, u, l, hu, hl, rfl⟩

lemma ends_of_visits {l : List σ} (h : Visits exec p s a t l) : Ends exec p s a t := by
  induction p generalizing s l with
  | pure b => exact ⟨h.1, h.2.1⟩
  | call c k ih =>
    obtain ⟨b, u, l', hu, h', -⟩ := h
    exact ⟨b, u, hu, ih b h'⟩

lemma visits_mono {exec' : ∀ {β : Type}, C β → σ → β → σ → Prop} {l : List σ}
    (hv : Visits exec p s a t l)
    (h : ∀ {β : Type} {c : C β} {s b t}, exec c s b t → exec' c s b t) :
    Visits exec' p s a t l := by
  induction p generalizing s l with
  | pure b => exact hv
  | call c k ih =>
    obtain ⟨b, u, l', hu, hv', rfl⟩ := hv
    exact ⟨b, u, l', h hu, ih b hv', rfl⟩

variable (exec) in
/-- The program ends as in `Ends`; the list holds what its calls show, in the order they are
made. -/
def Prog.Emits {ω : Type} (obs : ∀ {β : Type}, C β → List ω) :
    Prog C α → σ → α → σ → List ω → Prop
  | .pure a, s, a', t, l => a' = a ∧ t = s ∧ l = []
  | .call c k, s, a, t, l => ∃ b u l', exec c s b u ∧ (k b).Emits obs u a t l' ∧ l = obs c ++ l'

lemma emits_step {ω : Type} {obs : ∀ {β : Type}, C β → List ω} {c : C β} {f : β → Prog C α}
    {l : List ω} :
    Emits exec obs (lift c >>= f) s a t l ↔
      ∃ b u l', exec c s b u ∧ Emits exec obs (f b) u a t l' ∧ l = obs c ++ l' := Iff.rfl

lemma emits_bind {ω : Type} {obs : ∀ {β : Type}, C β → List ω} {f : α → Prog C γ} {c : γ}
    {l : List ω} (h : Emits exec obs (p >>= f) s c t l) :
    ∃ a u l₁ l₂, Emits exec obs p s a u l₁ ∧ Emits exec obs (f a) u c t l₂ ∧ l = l₁ ++ l₂ := by
  induction p generalizing s l with
  | pure a => exact ⟨a, s, [], l, ⟨rfl, rfl, rfl⟩, h, rfl⟩
  | call c k ih =>
    obtain ⟨b, u, l', hu, h', rfl⟩ := h
    obtain ⟨a, v, l₁, l₂, hv, hf, rfl⟩ := ih b h'
    exact ⟨a, v, obs c ++ l₁, l₂, ⟨b, u, l₁, hu, hv, rfl⟩, hf, (List.append_assoc _ _ _).symm⟩

variable (exec) in
/-- Whatever the answers are, every call the program makes satisfies `A` in the state it is
made in, and the program ends in a state and with a result that satisfy `Q`. -/
def Prog.wp (A : ∀ {β : Type}, C β → σ → Prop) : Prog C α → (α → σ → Prop) → σ → Prop
  | .pure a, Q, s => Q a s
  | .call c k, Q, s => A c s ∧ ∀ b u, exec c s b u → (k b).wp A Q u

variable {A : ∀ {β : Type}, C β → σ → Prop} {Q : α → σ → Prop}

lemma wp_bind (p : Prog C α) (f : α → Prog C β) (Q : β → σ → Prop) (s : σ) :
    wp exec A (p >>= f) Q s ↔ wp exec A p (fun a u => wp exec A (f a) Q u) s := by
  induction p generalizing s with
  | pure a => exact Iff.rfl
  | call c k ih => exact and_congr_right fun _ => forall₃_congr fun b u _ => ih b u

lemma wp_step {c : C β} {f : β → Prog C α} (hc : A c s)
    (hf : ∀ b u, exec c s b u → wp exec A (f b) Q u) : wp exec A (lift c >>= f) Q s := ⟨hc, hf⟩

lemma wp_step_iff {c : C β} {f : β → Prog C α} {b : β}
    (h : ∀ b' u, exec c s b' u ↔ b' = b ∧ u = t) :
    wp exec A (lift c >>= f) Q s ↔ A c s ∧ wp exec A (f b) Q t := by
  refine and_congr_right fun _ => ⟨fun hf => hf b t ((h b t).mpr ⟨rfl, rfl⟩), fun hf b' u hu => ?_⟩
  obtain ⟨rfl, rfl⟩ := (h b' u).mp hu
  exact hf

lemma wp_lift {c : C α} (hc : A c s) (hQ : ∀ b u, exec c s b u → Q b u) :
    wp exec A (lift c) Q s := ⟨hc, hQ⟩

lemma wp_mono {Q' : α → σ → Prop} (h : wp exec A p Q s) (hQ : ∀ a u, Q a u → Q' a u) :
    wp exec A p Q' s := by
  induction p generalizing s with
  | pure a => exact hQ _ _ h
  | call c k ih => exact ⟨h.1, fun b u hu => ih b (h.2 b u hu)⟩

lemma wp_of_forall (hQ : ∀ a t, Q a t) : wp exec (fun _ _ => True) p Q s := by
  induction p generalizing s with
  | pure a => exact hQ a s
  | call c k ih => exact ⟨trivial, fun b u _ => ih b⟩

lemma wp_true_of_uses (hA : ∀ {β : Type} {c : C β} {s}, φ c → A c s) (hp : p.Uses φ) :
    wp exec A p (fun _ _ => True) s := by
  induction p generalizing s with
  | pure a => trivial
  | call c k ih => exact ⟨hA hp.1, fun b u _ => ih b (hp.2 b)⟩

lemma uses_of_wp (h : p.wp (σ := Unit) (fun _ _ _ _ => True) (fun c _ => φ c) (fun _ _ => True) ()) :
    p.Uses φ := by
  induction p with
  | pure a => trivial
  | call c k ih => exact ⟨h.1, fun b => ih b (h.2 b () trivial)⟩

/-- What `wp` promises holds of every way the program can end. -/
theorem wp_sound (h : wp exec A p Q s) (he : Ends exec p s a t) : Q a t := by
  induction p generalizing s with
  | pure b =>
    obtain ⟨rfl, rfl⟩ := he
    exact h
  | call c k ih =>
    obtain ⟨b, u, hu, he'⟩ := he
    exact ih b (h.2 b u hu) he'

/-- A run can be followed on abstract states, on which every call meets what it asks for. -/
theorem wp_simulates {τ : Type} {exec' : ∀ {β : Type}, C β → τ → β → τ → Prop} {R : τ → σ → Prop}
    {x y : τ} (h : wp exec A p Q s) (hs : R x s) (he : Ends exec' p x a y)
    (hstep : ∀ {β : Type} {c : C β} {x s b y}, R x s → A c s → exec' c x b y →
      ∃ t, exec c s b t ∧ R y t) : ∃ t, Q a t ∧ R y t := by
  induction p generalizing s x with
  | pure b =>
    obtain ⟨rfl, rfl⟩ := he
    exact ⟨s, h, hs⟩
  | call c k ih =>
    obtain ⟨b, z, hz, he'⟩ := he
    obtain ⟨u, hu, hzu⟩ := hstep hs h.1 hz
    exact ih b (h.2 b u hu) hzu he'

/-- A program whose calls are all answered can be run to its end. -/
lemma exists_ends (h : wp exec A p Q s)
    (hA : ∀ {β : Type} {c : C β} {s}, A c s → ∃ b t, exec c s b t) : ∃ a t, Ends exec p s a t := by
  induction p generalizing s with
  | pure a => exact ⟨a, s, rfl, rfl⟩
  | call c k ih =>
    obtain ⟨b, u, hu⟩ := hA h.1
    obtain ⟨a, t, ht⟩ := ih b (h.2 b u hu)
    exact ⟨a, t, b, u, hu, ht⟩

/-- If the calls a program makes keep their states related to the one they started in, so are all
the states the program goes through. -/
theorem visits_of_wp {R : σ → σ → Prop} (htrans : ∀ s t u, R s t → R t u → R s u)
    (hA : ∀ {β : Type} {c : C β} {s b t}, A c s → exec c s b t → R s t) {l : List σ}
    (hp : wp exec A p Q s) (h : Visits exec p s a t l) : ∀ u ∈ l, R s u := by
  induction p generalizing s l with
  | pure b =>
    obtain ⟨-, -, rfl⟩ := h
    exact fun _ hu => nomatch hu
  | call c k ih =>
    obtain ⟨b, v, l', hv, h', rfl⟩ := h
    have hsv := hA hp.1 hv
    intro u hu
    rcases List.mem_cons.mp hu with rfl | hu
    · exact hsv
    · exact htrans s v u hsv (ih b (hp.2 b v hv) h' u hu)

lemma visits_last {l : List σ} (h : Visits exec p s a t l) : t ∈ s :: l := by
  induction p generalizing s l with
  | pure b =>
    obtain ⟨-, rfl, -⟩ := h
    exact List.mem_cons_self
  | call c k ih =>
    obtain ⟨b, v, l', -, h', rfl⟩ := h
    exact List.mem_cons_of_mem s (ih b h')

/-- **Invariant rule.** What lets every call of a program be made, and is kept by it, holds when
the program ends. -/
theorem wp_invariant {I : σ → Prop}
    (hφ : ∀ {β : Type} {c : C β} {s}, φ c → I s → A c s ∧ ∀ b t, exec c s b t → I t)
    (hp : p.Uses φ) (hs : I s) (hQ : ∀ a t, I t → Q a t) : wp exec A p Q s := by
  induction p generalizing s with
  | pure a => exact hQ a s hs
  | call c k ih =>
    obtain ⟨hA, hI⟩ := hφ hp.1 hs
    exact ⟨hA, fun b u hu => ih b (hp.2 b) (hI b u hu)⟩

/-- **Frame rule.** If every call of a program keeps its states related to the one it started
in, the program ends in a related state. -/
theorem wp_of_uses {R : σ → σ → Prop} (hrefl : ∀ s, R s s) (htrans : ∀ s t u, R s t → R t u → R s u)
    (hφ : ∀ {β : Type} {c : C β} {s b t}, φ c → exec c s b t → R s t)
    (hA : ∀ {β : Type} {c : C β} {s}, φ c → A c s) (hp : p.Uses φ) (hQ : ∀ a t, R s t → Q a t) :
    wp exec A p Q s :=
  wp_invariant (I := R s) (fun hc hs => ⟨hA hc, fun _ _ hu => htrans _ _ _ hs (hφ hc hu)⟩) hp
    (hrefl s) hQ

/-- The frame rule for a program that is run to its end. -/
theorem ends_of_uses {R : σ → σ → Prop} (hrefl : ∀ s, R s s)
    (htrans : ∀ s t u, R s t → R t u → R s u)
    (hφ : ∀ {β : Type} {c : C β} {s b t}, φ c → exec c s b t → R s t) (hp : p.Uses φ)
    (h : Ends exec p s a t) : R s t := by
  induction p generalizing s with
  | pure b =>
    obtain ⟨-, rfl⟩ := h
    exact hrefl _
  | call c k ih =>
    obtain ⟨b, u, hu, h⟩ := h
    exact htrans s u t (hφ hp.1 hu) (ih b (hp.2 b) h)

/-- The frame rule with what the calls show. -/
theorem emits_of_uses {ω : Type} {obs : ∀ {β : Type}, C β → List ω} {R : σ → σ → List ω → Prop}
    (hnil : ∀ s, R s s []) (happ : ∀ s t u l l', R s t l → R t u l' → R s u (l ++ l'))
    (hφ : ∀ {β : Type} {c : C β} {s b t}, φ c → exec c s b t → R s t (obs c)) (hp : p.Uses φ)
    {l : List ω} (h : Emits exec obs p s a t l) : R s t l := by
  induction p generalizing s l with
  | pure b =>
    obtain ⟨-, rfl, rfl⟩ := h
    exact hnil _
  | call c k ih =>
    obtain ⟨b, u, l', hu, h, rfl⟩ := h
    exact happ s u t _ _ (hφ hp.1 hu) (ih b (hp.2 b) h)

end Alone

/-! ### Running among other threads -/

section Threads

variable {σ : Type} (exec : ∀ {β : Type}, C β → σ → β → σ → Prop)

/-- Threads over one shared state. -/
structure Prog.Pool (C : Type → Type) (σ : Type) : Type 1 where
  st : σ
  threads : List (Prog C Unit)

/-- Thread `i` issues its next call. -/
inductive Prog.Step : Pool C σ → ℕ → Pool C σ → Prop
  | mk {s t : σ} {ts : List (Prog C Unit)} {i : ℕ} {β : Type} {c : C β}
      {k : β → Prog C Unit} {b : β} :
      ts[i]? = some (.call c k) → exec c s b t → Step ⟨s, ts⟩ i ⟨t, ts.set i (k b)⟩

/-- The next call of thread `i`, if it has one, meets the condition in the shared state. -/
def Prog.NextMeets (φ : ∀ {β : Type}, C β → σ → Prop) (p : Pool C σ) (i : ℕ) : Prop :=
  ∀ (β : Type) (c : C β) (k : β → Prog C Unit), p.threads[i]? = some (.call c k) → φ c p.st

lemma nextMeets_iff {φ : ∀ {β : Type}, C β → σ → Prop} {s : σ} {ts : List (Prog C Unit)}
    {i : ℕ} {β : Type} {c : C β} {k : β → Prog C Unit} (h : ts[i]? = some (.call c k)) :
    NextMeets φ ⟨s, ts⟩ i ↔ φ c s := by
  refine ⟨fun hn => hn β c k h, fun hc β' c' k' h' => ?_⟩
  simp only [h, Option.some.injEq, call.injEq] at h'
  obtain ⟨rfl, h1, -⟩ := h'
  cases h1
  exact hc

/-- All threads have ended. -/
def Prog.Pool.Finished (p : Pool C σ) : Prop := ∀ q ∈ p.threads, q = .pure ()

variable {exec}

section Play

variable {τ : Type} {answer : ∀ {β : Type}, C β → τ → Option (β × τ)} {π : τ → σ}

/-- The threads make their calls in the order of the schedule, answered by `answer`. -/
def Prog.Pool.play (answer : ∀ {β : Type}, C β → τ → Option (β × τ)) (π : τ → σ) :
    List ℕ → τ → List (Prog C Unit) → Option (List (Pool C σ × ℕ) × Pool C σ)
  | [], x, ts => some ([], ⟨π x, ts⟩)
  | i :: is, x, ts =>
    match ts[i]? with
    | some (.call c k) => (answer c x).bind fun r =>
      (play answer π is r.2 (ts.set i (k r.1))).map (Prod.map (List.cons (⟨π x, ts⟩, i)) id)
    | _ => none

lemma run_of_play
    (hanswer : ∀ {β : Type} {c : C β} {x b y}, answer c x = some (b, y) → exec c (π x) b (π y))
    {is : List ℕ} {x : τ} {ts : List (Prog C Unit)} {tr : List (Pool C σ × ℕ)} {p : Pool C σ}
    (h : Pool.play answer π is x ts = some (tr, p)) : Run (Step exec) ⟨π x, ts⟩ tr p := by
  induction is generalizing x ts tr with
  | nil =>
    cases h
    exact .nil _
  | cons i is ih =>
    rw [Pool.play] at h
    split at h
    · rename_i hi
      obtain ⟨⟨b, y⟩, hy, h⟩ := Option.bind_eq_some_iff.mp h
      obtain ⟨⟨tr, p⟩, hrest, heq⟩ := Option.map_eq_some_iff.mp h
      cases heq
      exact .cons (.mk hi (hanswer hy)) (ih hrest)
    · cases h

end Play

/-! ### Reasoning thread by thread

Every thread has a private fact about the shared state, and the private facts of two threads
are compatible. A call may use the fact of its own thread; it has to leave its thread with a
new fact and every compatible fact of another thread true and compatible. -/

/-- The rule of one call. `φ` is what is known of the call itself. -/
structure Prog.Modular {γ : Type} (exec : ∀ {β : Type}, C β → σ → β → σ → Prop)
    (φ : ∀ {β : Type}, C β → σ → Prop) (I : σ → Prop) (A : γ → Prog C Unit → σ → Prop)
    (D : γ → γ → Prop) : Prop where
  symm : ∀ {g h : γ}, D g h → D h g
  step : ∀ {g : γ} {β : Type} {c : C β} {k : β → Prog C Unit} {s t : σ} {b : β},
    I s → A g (.call c k) s → φ c s → exec c s b t →
      I t ∧ ∃ g', A g' (k b) t ∧ ∀ h q, D g h → A h q s → A h q t ∧ D g' h

/-- The shared fact, and compatible private facts for all threads. -/
def Prog.Modular.Inv {γ : Type} (I : σ → Prop) (A : γ → Prog C Unit → σ → Prop)
    (D : γ → γ → Prop) (p : Pool C σ) : Prop :=
  I p.st ∧ ∃ gs : List γ, List.Forall₂ (fun g q => A g q p.st) gs p.threads ∧ gs.Pairwise D

lemma forall₂_set {γ δ : Type*} {P Q : γ → δ → Prop} {gs : List γ} {ts : List δ}
    {i : ℕ} {g' : γ} {q' : δ} (h : List.Forall₂ P gs ts) (hq : Q g' q')
    (hne : ∀ j g q, j ≠ i → gs[j]? = some g → ts[j]? = some q → P g q → Q g q) :
    List.Forall₂ Q (gs.set i g') (ts.set i q') := by
  induction h generalizing i with
  | nil => simp
  | @cons g q gs ts hp hrest ih =>
    cases i with
    | zero =>
      refine .cons hq ?_
      rw [List.forall₂_iff_get] at hrest ⊢
      refine ⟨hrest.1, fun j h1 h2 => ?_⟩
      exact hne (j + 1) _ _ (by omega) (by simp [h1]) (by simp [h2]) (hrest.2 j h1 h2)
    | succ i =>
      refine .cons (hne 0 g q (by omega) (by simp) (by simp) hp) ?_
      exact ih fun j g q hj hg hq' => hne (j + 1) g q (by omega) (by simpa using hg)
        (by simpa using hq')

lemma pairwise_get {γ : Type*} {D : γ → γ → Prop} (hsymm : ∀ {g h}, D g h → D h g)
    {gs : List γ} (h : gs.Pairwise D) {i j : ℕ} {a b : γ} (hi : gs[i]? = some a)
    (hj : gs[j]? = some b) (hne : j ≠ i) : D a b := by
  obtain ⟨hil, rfl⟩ := List.getElem?_eq_some_iff.mp hi
  obtain ⟨hjl, rfl⟩ := List.getElem?_eq_some_iff.mp hj
  rw [List.pairwise_iff_getElem] at h
  rcases Nat.lt_or_gt_of_ne hne with hlt | hlt
  · exact hsymm (h j i hjl hil hlt)
  · exact h i j hil hjl hlt

lemma pairwise_set {γ : Type*} {D : γ → γ → Prop} (hsymm : ∀ {g h}, D g h → D h g)
    {gs : List γ} {i : ℕ} {g' : γ} (h : gs.Pairwise D)
    (hi : ∀ j g, j ≠ i → gs[j]? = some g → D g' g) : (gs.set i g').Pairwise D := by
  rw [List.pairwise_iff_getElem] at h ⊢
  intro a b ha hb hab
  simp only [List.length_set] at ha hb
  rw [List.getElem_set, List.getElem_set]
  split_ifs with h1 h2 h2
  · omega
  · exact hi b _ (by omega) (by simp [hb])
  · exact hsymm (hi a _ (by omega) (by simp [ha]))
  · exact h a b ha hb hab

section Modular

variable {γ : Type} {I : σ → Prop} {A : γ → Prog C Unit → σ → Prop} {D : γ → γ → Prop}

theorem Prog.Modular.inv_step {φ : ∀ {β : Type}, C β → σ → Prop} (M : Modular exec φ I A D)
    {p p' : Pool C σ} {i : ℕ} (hp : Modular.Inv I A D p) (hφ : NextMeets φ p i)
    (hs : Step exec p i p') : Modular.Inv I A D p' := by
  obtain ⟨hI, gs, hA, hD⟩ := hp
  cases hs with
  | @mk s t ts i β c k b hi he =>
    rw [nextMeets_iff hi] at hφ
    obtain ⟨hlen, hget⟩ := List.forall₂_iff_get.mp hA
    simp only at hlen hget
    obtain ⟨hlt, hti⟩ := List.getElem?_eq_some_iff.mp hi
    have hAi : A gs[i] (.call c k) s := by
      have := hget i (by omega) hlt
      simpa [hti] using this
    obtain ⟨hI', g', hg', hrest⟩ := M.step hI hAi hφ he
    have hDi : ∀ (j : ℕ) (g : γ), j ≠ i → gs[j]? = some g → D gs[i] g := fun j g hj hg =>
      pairwise_get M.symm hD (List.getElem?_eq_getElem (by omega)) hg hj
    have hAj : ∀ (j : ℕ) (g : γ) (q : Prog C Unit), gs[j]? = some g → ts[j]? = some q → A g q s := by
      intro j g q hg hq
      obtain ⟨hjl, rfl⟩ := List.getElem?_eq_some_iff.mp hg
      obtain ⟨hjt, rfl⟩ := List.getElem?_eq_some_iff.mp hq
      exact hget j hjl hjt
    refine ⟨hI', gs.set i g', ?_, ?_⟩
    · exact forall₂_set hA hg' fun j g q hj hg hq hP => (hrest g q (hDi j g hj hg) hP).1
    · refine pairwise_set M.symm hD fun j g hj hg => ?_
      obtain ⟨hjl, -⟩ := List.getElem?_eq_some_iff.mp hg
      have hq : ts[j]? = some (ts.get ⟨j, by omega⟩) := by
        simp [show j < ts.length by omega]
      exact (hrest g _ (hDi j g hj hg) (hAj j g _ hg hq)).2

/-- A thread that starts with a fact compatible with all others. -/
lemma Prog.Modular.Inv.spawn {s : σ} {ts : List (Prog C Unit)} {q : Prog C Unit} {g : γ}
    (h : Inv I A D ⟨s, ts⟩) (hA : A g q s) (hD : ∀ g', D g' g) : Inv I A D ⟨s, ts ++ [q]⟩ := by
  obtain ⟨hI, gs, hgs, hpair⟩ := h
  refine ⟨hI, gs ++ [g], List.rel_append hgs (.cons hA .nil), List.pairwise_append.mpr
    ⟨hpair, List.pairwise_singleton _ _, fun a _ b hb => List.mem_singleton.mp hb ▸ hD a⟩⟩

lemma Prog.Modular.Inv.mono {s t : σ} {ts : List (Prog C Unit)} (h : Inv I A D ⟨s, ts⟩)
    (hI : I s → I t) (hA : ∀ g q, A g q s → A g q t) : Inv I A D ⟨t, ts⟩ := by
  obtain ⟨hs, gs, hgs, hpair⟩ := h
  exact ⟨hI hs, gs, hgs.imp hA, hpair⟩

end Modular

/-- What a program keeps from call to call holds of all threads all along. -/
lemma threads_step {P : Prog C Unit → Prop} {p p' : Pool C σ} {i : ℕ}
    (hP : ∀ {β : Type} {c : C β} {k : β → Prog C Unit} (b : β), P (.call c k) → P (k b))
    (h : ∀ q ∈ p.threads, P q) (hs : Step exec p i p') : ∀ q ∈ p'.threads, P q := by
  cases hs with
  | mk hi _ =>
    intro q hq
    rcases List.mem_or_eq_of_mem_set hq with hq | rfl
    · exact h q hq
    · exact hP _ (h _ (List.mem_of_getElem? hi))

/-! ### Threads as phases

A thread whose remaining program is known up to a phase is, to everyone else, that phase:
the steps of the pool become moves of phases. -/

lemma exists_thread {γ : Type} {At : γ → Prog C Unit → Prop} {gs : List γ}
    {ts : List (Prog C Unit)} (h : List.Forall₂ At gs ts) {g : γ} (hg : g ∈ gs) :
    ∃ q ∈ ts, At g q := by
  induction h with
  | nil => simp at hg
  | cons hat _ ih =>
    rcases List.mem_cons.mp hg with rfl | hg
    · exact ⟨_, List.mem_cons_self, hat⟩
    · obtain ⟨q, hq, hat'⟩ := ih hg
      exact ⟨q, List.mem_cons_of_mem _ hq, hat'⟩

lemma exists_phase {γ : Type} {At : γ → Prog C Unit → Prop} {gs : List γ}
    {ts : List (Prog C Unit)} (h : List.Forall₂ At gs ts) {i : ℕ} {q : Prog C Unit}
    (hi : ts[i]? = some q) : ∃ g ∈ gs, At g q := by
  obtain ⟨hlen, hget⟩ := List.forall₂_iff_get.mp h
  obtain ⟨hlt, rfl⟩ := List.getElem?_eq_some_iff.mp hi
  have hli : i < gs.length := hlen ▸ hlt
  exact ⟨gs[i], List.getElem_mem hli, hget i hli hlt⟩

/-- **Phases.** If every call made in a phase leads to the program of another phase, by a move
that `T` allows, then so does every step of a pool whose threads are all in phases. `φ` is
what is known of the call itself. -/
theorem phases_step {γ : Type} {At : γ → Prog C Unit → Prop} {T : γ → σ → γ → σ → Prop}
    {φ : ∀ {β : Type}, C β → σ → Prop} {p p' : Pool C σ} {i : ℕ} {gs : List γ}
    (hgs : List.Forall₂ At gs p.threads) (hs : Step exec p i p') (hφ : NextMeets φ p i)
    (hT : ∀ {g : γ} {β : Type} {c : C β} {k : β → Prog C Unit} {s t : σ} {b : β},
      At g (.call c k) → φ c s → exec c s b t → ∃ g', At g' (k b) ∧ T g s g' t) :
    ∃ g g', gs[i]? = some g ∧ T g p.st g' p'.st ∧ List.Forall₂ At (gs.set i g') p'.threads := by
  cases hs with
  | @mk s t ts i β c k b hi he =>
    obtain ⟨hlen, hget⟩ := List.forall₂_iff_get.mp hgs
    obtain ⟨hlt, hti⟩ := List.getElem?_eq_some_iff.mp hi
    have hli : i < gs.length := hlen ▸ hlt
    have hg : At gs[i] (.call c k) := by
      have := hget i hli hlt
      simpa [hti] using this
    rw [nextMeets_iff hi] at hφ
    obtain ⟨g', hg', hmove⟩ := hT hg hφ he
    exact ⟨gs[i], g', by simp [hli], hmove, forall₂_set hgs hg' fun _ _ _ _ _ _ h => h⟩

end Threads

end Workforce.Progs
