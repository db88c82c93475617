import Mathlib.Tactic

/-!
Logs whose entries may be replayed over a state that contains them already.

An entry acts on each key by itself: it leaves the value alone, replaces it, or adjusts the
value if there is one, where a later adjustment absorbs an earlier one. The total effect of
any list of entries on a key is again of one of these three kinds, and each of them is
idempotent; so replaying a stretch of the log that has been applied changes nothing.
-/

namespace Workforce.Replay

variable {E K A V : Type}

inductive Effect (A V : Type)
  | keep
  | set (v : Option V)
  | adjust (a : A)

namespace Effect

variable {adj : A → V → V}

def run (adj : A → V → V) : Effect A V → Option V → Option V
  | keep, x => x
  | set v, _ => v
  | adjust a, x => x.map (adj a)

/-- The effect of one entry after that of another. -/
def after (adj : A → V → V) : Effect A V → Effect A V → Effect A V
  | keep, e => e
  | set v, _ => set v
  | adjust a, keep => adjust a
  | adjust a, set v => set (v.map (adj a))
  | adjust a, adjust _ => adjust a

variable (absorb : ∀ a b v, adj a (adj b v) = adj a v)

include absorb

lemma run_after (e e' : Effect A V) (x : Option V) :
    run adj (after adj e e') x = run adj e (run adj e' x) := by
  cases e with
  | keep => rfl
  | set v => rfl
  | adjust a =>
    cases e' with
    | keep => rfl
    | set v => rfl
    | adjust b => cases x <;> simp [after, run, absorb]

lemma run_run (e : Effect A V) (x : Option V) : run adj e (run adj e x) = run adj e x := by
  cases e with
  | keep => rfl
  | set v => rfl
  | adjust a => cases x <;> simp [run, absorb]

end Effect

structure Log (E K A V : Type) where
  adj : A → V → V
  effect : E → K → Effect A V
  absorb : ∀ a b v, adj a (adj b v) = adj a v

namespace Log

variable (L : Log E K A V)

def apply (e : E) (m : K → Option V) : K → Option V := fun k => (L.effect e k).run L.adj (m k)

def replay (es : List E) (m : K → Option V) : K → Option V := es.foldl (fun m e => L.apply e m) m

def total (es : List E) (k : K) : Effect A V :=
  es.foldl (fun acc e => (L.effect e k).after L.adj acc) .keep

@[simp] lemma replay_nil (m : K → Option V) : L.replay [] m = m := rfl

lemma replay_append (es es' : List E) (m : K → Option V) :
    L.replay (es ++ es') m = L.replay es' (L.replay es m) := List.foldl_append

lemma replay_concat (es : List E) (e : E) (m : K → Option V) :
    L.replay (es ++ [e]) m = L.apply e (L.replay es m) := by
  rw [replay_append]
  rfl

lemma total_concat (es : List E) (e : E) (k : K) :
    L.total (es ++ [e]) k = (L.effect e k).after L.adj (L.total es k) := by
  unfold total
  rw [List.foldl_append]
  rfl

lemma replay_eq_total (es : List E) (m : K → Option V) (k : K) :
    L.replay es m k = (L.total es k).run L.adj (m k) := by
  induction es using List.reverseRecOn with
  | nil => rfl
  | append_singleton es e ih =>
    rw [replay_concat, total_concat, Effect.run_after L.absorb, ← ih]
    rfl

/-- **Idempotence.** Entries that have been applied may be applied again. -/
theorem replay_replay (es : List E) (m : K → Option V) :
    L.replay es (L.replay es m) = L.replay es m := by
  funext k
  rw [replay_eq_total, replay_eq_total, Effect.run_run L.absorb]

/-- The end of a log may be replayed over the state the whole log leads to. -/
theorem replay_suffix (es es' : List E) (m : K → Option V) :
    L.replay es' (L.replay (es ++ es') m) = L.replay (es ++ es') m := by
  rw [replay_append, replay_replay]

/-- A key only feels the entries that have an effect on it. -/
lemma replay_filter (p : E → Bool) {k : K} (hp : ∀ e, p e = false → L.effect e k = .keep)
    (es : List E) (m : K → Option V) : L.replay (es.filter p) m k = L.replay es m k := by
  induction es using List.reverseRecOn with
  | nil => rfl
  | append_singleton es e ih =>
    rw [List.filter_append, replay_concat]
    show L.replay (es.filter p ++ [e].filter p) m k = (L.effect e k).run L.adj (L.replay es m k)
    by_cases he : p e = true
    · rw [List.filter_cons_of_pos he, List.filter_nil, replay_concat, ← ih]
      rfl
    · rw [List.filter_cons_of_neg he, List.filter_nil, List.append_nil, ih,
        hp e (by simpa using he)]
      rfl

end Log

end Workforce.Replay
