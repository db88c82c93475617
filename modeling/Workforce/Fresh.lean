import Workforce.Knowledge

/-!
Identifiers are new when they are stored.

A program gets an identifier from `ulid.Make` and stores a record under it some calls later.
In between the identifier belongs to that program alone: no other program can get it, so no
other program stores anything under it.
-/

namespace Workforce.Fresh

open Tables Contract Progs Shared Calls Knowledge

variable {α β : Type}

/-- The program, owning the identifiers `own`, stores new records only under identifiers it
owns at that point, and ends as `Q` says. -/
def Owns : Prog Call α → (α → Finset String → Prop) → Finset String → Prop
  | .pure a, Q, own => Q a own
  | .call .ulidMake k, Q, own => ∀ id, Owns (k id) Q (insert id own)
  | .call (.saveJob job) k, Q, own => job.ID ∈ own ∧ ∀ b, Owns (k b) Q (own.erase job.ID)
  | .call (.createRun run) k, Q, own => run.ID ∈ own ∧ ∀ b, Owns (k b) Q (own.erase run.ID)
  | .call _ k, Q, own => ∀ b, Owns (k b) Q own

/-- A call that neither hands out an identifier nor stores a new record. -/
def Plain : {β : Type} → Call β → Prop
  | _, .ulidMake => False
  | _, .saveJob _ => False
  | _, .createRun _ => False
  | _, _ => True

variable {c : Call β}

lemma owns_call (hc : Plain c) (k : β → Prog Call α) (Q : α → Finset String → Prop)
    (own : Finset String) : Owns (.call c k) Q own ↔ ∀ b, Owns (k b) Q own := by
  cases c <;> first | exact Iff.rfl | exact hc.elim

variable {γ : Type}

lemma owns_bind (p : Prog Call α) (f : α → Prog Call γ) (Q : γ → Finset String → Prop)
    (own : Finset String) :
    Owns (p >>= f) Q own ↔ Owns p (fun a own' => Owns (f a) Q own') own := by
  induction p generalizing own with
  | pure a => exact Iff.rfl
  | call c k ih =>
    rw [Prog.call_bind]
    cases c <;> simp only [Owns, ih]

variable {own : Finset String}

/-- A program that knows which identifiers are its own stores only under those. -/
lemma owns_of_informed {p : Prog Call α} {Q : α → Set Fact → Prop} {F : Set Fact}
    (hp : Informed p Q F) (hF : ∀ id, .own id ∈ F → id ∈ own) : Owns p (fun _ _ => True) own := by
  induction p generalizing F own with
  | pure a => trivial
  | call c k ih =>
    obtain ⟨hc, hk⟩ := hp
    cases c with
    | ulidMake =>
      refine fun b => ih b (hk b _ rfl) fun id hid => ?_
      rcases hid with hid | hid
      · exact Fact.own.inj hid ▸ Finset.mem_insert_self _ _
      · exact Finset.mem_insert_of_mem (hF id hid)
    | saveJob job =>
      refine ⟨hF _ hc.1, fun b => ih b (hk b _ rfl) fun id hid => ?_⟩
      rcases hid with ⟨hid, hne⟩ | ⟨-, hid⟩
      · exact Finset.mem_erase.mpr ⟨fun h => hne (congrArg Fact.own h), hF id hid⟩
      · cases hid
    | createRun run =>
      refine ⟨hF _ hc, fun b => ih b (hk b _ rfl) fun id hid => ?_⟩
      exact Finset.mem_erase.mpr ⟨fun h => hid.2 (congrArg Fact.own h), hF id hid.1⟩
    | getJob | popItem =>
      refine fun b => ih b (hk b _ rfl) fun id hid => ?_
      rcases hid with hid | ⟨j, -, hid⟩
      · exact hF id hid
      · cases hid
    | eligibleWorkers =>
      refine fun b => ih b (hk b _ rfl) fun id hid => ?_
      rcases hid with hid | ⟨-, hid⟩
      · exact hF id hid
      · cases hid
    | _ => exact fun b => ih b (hk b _ rfl) hF

lemma owns_of_knows {p : Prog Call α} (hp : Knows ∅ p) : Owns p (fun _ _ => True) ∅ :=
  owns_of_informed hp fun _ h => h.elim

/-! ### What calls do to the identifiers in use -/

/-- Every stored record is under an identifier handed out before. -/
def IDsIssued (s : World) : Prop :=
  (∀ id, s.jobs.get id ≠ none → id ∈ s.issued) ∧ (∀ id, s.runs.get id ≠ none → id ∈ s.issued)

instance (s : World) : Decidable (IDsIssued s) :=
  decidable_of_iff' _ (and_congr forall_get_ne_none forall_get_ne_none)

def Unused (s : World) (id : String) : Prop := s.jobs.get id = none ∧ s.runs.get id = none

structure SameKeys (s t : World) : Prop where
  jobs : ∀ id, t.jobs.get id = none ↔ s.jobs.get id = none
  runs : ∀ id, t.runs.get id = none ↔ s.runs.get id = none
  issued : s.issued ⊆ t.issued

variable {s t : World}

lemma SameKeys.of_eq (hj : t.jobs = s.jobs) (hr : t.runs = s.runs) (hi : s.issued ⊆ t.issued) :
    SameKeys s t :=
  ⟨fun _ => by rw [hj], fun _ => by rw [hr], hi⟩

lemma SameKeys.idsIssued (h : SameKeys s t) (hs : IDsIssued s) : IDsIssued t :=
  ⟨fun id hid => h.issued (hs.1 id (by rwa [Ne, ← h.jobs])),
    fun id hid => h.issued (hs.2 id (by rwa [Ne, ← h.runs]))⟩

variable {id : String}

lemma SameKeys.unused (h : SameKeys s t) (hu : Unused s id) :
    Unused t id := ⟨(h.jobs id).mpr hu.1, (h.runs id).mpr hu.2⟩

lemma get_modify_eq_none {V K : Type} [DecidableEq K] {key : V → K} (t : Table key) (k k' : K)
    {f : V → V} (hf : ∀ v, key (f v) = key v) :
    (t.modify k f).get k' = none ↔ t.get k' = none := by
  rw [get_modify t k k' hf]
  split_ifs with h
  · subst h; simp
  · exact Iff.rfl

lemma sameKeys_updateJob (s : World) (id : String) (m : JobMutation) (now : Time) :
    SameKeys s { s with jobs := s.jobs.modify id (m.apply now) } :=
  ⟨fun _ => get_modify_eq_none _ _ _ (m.apply_ID now), fun _ => Iff.rfl, subset_rfl⟩

/-- A call that hands out no identifier and stores no new record leaves the identifiers in use
as they are. -/
lemma sameKeys_of_plain {cfg : Stores} (hc : Plain c) {b : β} (h : exec cfg c s b t) :
    SameKeys s t := by
  cases c with
  | ulidMake | saveJob | createRun => exact hc.elim
  | updateJob id m =>
    obtain ⟨now, -, rfl⟩ := h
    exact sameKeys_updateJob _ _ _ _
  | updateJobFiring id reason =>
    obtain ⟨-, -, rfl⟩ | ⟨now, issued, webhooks, -, -, hi, rfl⟩ := exec_updateJobFiring h
    · exact .of_eq rfl rfl subset_rfl
    · have hk := sameKeys_updateJob s id (.failedFor reason) now
      exact ⟨hk.jobs, hk.runs, hi⟩
  | updateRun id m =>
    obtain ⟨now, -, rfl⟩ := h
    exact ⟨fun _ => Iff.rfl, fun _ => get_modify_eq_none _ _ _ (m.apply_ID now), subset_rfl⟩
  | _ => exact .of_eq ((untouched h).jobs nofun) ((untouched h).runs nofun) (untouched h).issued

/-! ### Threads own what they have made -/

/-- The private fact of a thread: it owns identifiers that are handed out and still unused, and
stores new records only under those. -/
def Owner (own : Finset String) (q : Prog Call Unit) (s : World) : Prop :=
  Owns q (fun _ _ => True) own ∧ own ⊆ s.issued ∧ ∀ id ∈ own, Unused s id

/-- What is known of a call when threads own their identifiers: it overwrites nothing. -/
def StoresNew : {β : Type} → Call β → World → Prop
  | _, .saveJob job, s => s.jobs.get job.ID = none
  | _, .createRun run, s => s.runs.get run.ID = none
  | _, _, _ => True

lemma Owner.mono {q : Prog Call Unit} (h : Owner own q s) (hi : s.issued ⊆ t.issued)
    (hu : ∀ id ∈ own, Unused s id → Unused t id) :
    Owner own q t := ⟨h.1, h.2.1.trans hi, fun id hid => hu id hid (h.2.2 id hid)⟩

lemma Owner.storesNew {k : β → Prog Call Unit} (h : Owner own (.call c k) s) : StoresNew c s := by
  obtain ⟨hO, -, hun⟩ := h
  cases c with
  | saveJob job => exact (hun _ hO.1).1
  | createRun run => exact (hun _ hO.1).2
  | _ => trivial

lemma Owner.stored {q : Prog Call Unit} (hI : IDsIssued s) (hmem : id ∈ own)
    (hq : Owns q (fun _ _ => True) (own.erase id)) (hsub : own ⊆ s.issued)
    (hun : ∀ x ∈ own, Unused s x) (hissued : t.issued = s.issued)
    (hkeep : ∀ x, x ≠ id → t.jobs.get x = s.jobs.get x ∧ t.runs.get x = s.runs.get x) :
    IDsIssued t ∧ ∃ own', Owner own' q t ∧ ∀ other q', Disjoint own other → Owner other q' s →
      Owner other q' t ∧ Disjoint own' other := by
  have hunused {x : String} (hx : x ≠ id) (hu : Unused s x) : Unused t x :=
    ⟨(hkeep x hx).1.trans hu.1, (hkeep x hx).2.trans hu.2⟩
  have hin : id ∈ t.issued := hissued ▸ hsub hmem
  refine ⟨⟨fun x hx => ?_, fun x hx => ?_⟩, own.erase id, ⟨hq, ?_, fun x hx => ?_⟩, ?_⟩
  · by_cases he : x = id
    · exact he ▸ hin
    · exact hissued ▸ hI.1 x (by rwa [(hkeep x he).1] at hx)
  · by_cases he : x = id
    · exact he ▸ hin
    · exact hissued ▸ hI.2 x (by rwa [(hkeep x he).2] at hx)
  · exact hissued ▸ (Finset.erase_subset _ _).trans hsub
  · exact hunused (Finset.ne_of_mem_erase hx) (hun x (Finset.mem_of_mem_erase hx))
  · intro other q' hd hq'
    refine ⟨hq'.mono (by rw [hissued]) fun x hx hu => hunused ?_ hu,
      hd.mono_left (Finset.erase_subset _ _)⟩
    rintro rfl
    exact Finset.disjoint_left.mp hd hmem hx

/-- The rule of the library, for identifiers. -/
theorem modular_owner (cfg : Stores) :
    Prog.Modular (exec cfg) (fun _ _ => True) IDsIssued Owner
      (fun own own' : Finset String => Disjoint own own') where
  symm := fun h => h.symm
  step := by
    intro own β c k s t b hI hA _ he
    obtain ⟨hO, hsub, hun⟩ := hA
    cases c with
    | ulidMake =>
      obtain ⟨-, hb, rfl⟩ := he
      have hub : Unused s b :=
        ⟨by by_contra hc; exact hb (hI.1 b hc), by by_contra hc; exact hb (hI.2 b hc)⟩
      refine ⟨⟨fun id hid => Finset.mem_insert_of_mem (hI.1 id hid),
        fun id hid => Finset.mem_insert_of_mem (hI.2 id hid)⟩, insert b own,
        ⟨hO b, Finset.insert_subset_insert _ hsub, ?_⟩, ?_⟩
      · intro id hid
        rcases Finset.mem_insert.mp hid with rfl | hid'
        · exact hub
        · exact hun id hid'
      · intro own' q hd hq
        refine ⟨hq.mono (Finset.subset_insert _ _) fun _ _ h => h, ?_⟩
        rw [Finset.disjoint_insert_left]
        exact ⟨fun hm => hb (hq.2.1 hm), hd⟩
    | saveJob job =>
      obtain ⟨hmem, hk⟩ := hO
      rcases he with ⟨-, rfl⟩ | ⟨-, rfl⟩
      · exact Owner.stored hI hmem (hk b) hsub hun rfl fun x hx => ⟨by rw [get_put, if_neg hx], rfl⟩
      · exact Owner.stored hI hmem (hk b) hsub hun rfl fun _ _ => ⟨rfl, rfl⟩
    | createRun run =>
      obtain ⟨hmem, hk⟩ := hO
      rcases he with ⟨-, rfl⟩ | ⟨-, rfl⟩
      · exact Owner.stored hI hmem (hk b) hsub hun rfl fun x hx => ⟨rfl, by rw [get_put, if_neg hx]⟩
      · exact Owner.stored hI hmem (hk b) hsub hun rfl fun _ _ => ⟨rfl, rfl⟩
    | _ =>
      have hk := sameKeys_of_plain (by trivial) he
      exact ⟨hk.idsIssued hI, own,
        ⟨(owns_call (by trivial) _ _ _).mp hO b, hsub.trans hk.issued,
          fun id hid => hk.unused (hun id hid)⟩,
        fun own' q hd hq => ⟨hq.mono hk.issued fun _ _ hu => hk.unused hu, hd⟩⟩

/-- Threads that own their identifiers, nothing stored twice. -/
abbrev Owned (p : Prog.Pool Call World) : Prop :=
  Prog.Modular.Inv IDsIssued Owner (fun own own' => Disjoint own own') p

lemma owned_step {cfg : Stores} {p p' : Prog.Pool Call World} {i : ℕ} (h : Owned p)
    (hs : Prog.Step (exec cfg) p i p') : Owned p' :=
  (modular_owner cfg).inv_step h (fun _ _ _ _ => trivial) hs

lemma storesNew_of_owned {p : Prog.Pool Call World} {i : ℕ} (h : Owned p) :
    Prog.NextMeets StoresNew p i := by
  intro β c k hi
  obtain ⟨-, gs, hA, -⟩ := h
  obtain ⟨hlt, hti⟩ := List.getElem?_eq_some_iff.mp hi
  obtain ⟨hlen, hget⟩ := List.forall₂_iff_get.mp hA
  have hAi := hget i (by omega) hlt
  simp only [List.get_eq_getElem, hti] at hAi
  exact hAi.storesNew

lemma owned_start (hs : IDsIssued s) {ts : List (Prog Call Unit)}
    (hts : ∀ q ∈ ts, Owns q (fun _ _ => True) ∅) : Owned ⟨s, ts⟩ := by
  refine ⟨hs, ts.map fun _ => ∅, ?_, ?_⟩
  · rw [List.forall₂_map_left_iff, List.forall₂_same]
    exact fun q hq => ⟨hts q hq, Finset.empty_subset _, by simp⟩
  · rw [List.pairwise_map]
    exact List.pairwise_of_forall fun _ _ => disjoint_bot_left

end Workforce.Fresh
