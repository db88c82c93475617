import Workforce.Json

/-!
What the scanner accepts, and what it does not.

An accepted text stands for a well-formed value within the nesting limit. The compact text of
a value is a single line, and no proper beginning of the text of an object is accepted: a file
of one object a line can lose its end at any byte without a wrong line coming to light.
-/

namespace Workforce.Json

open Scanner

variable {limit d : ℕ} {v : Value} {fs : List Frame}

/-! ### What is read is well formed -/

/-- A mode with what it has read so far, where `d` more levels may be opened. -/
def Mode.Ok (d : ℕ) : Mode → Prop
  | .inString m raw => raw.foldlM StrMode.step .plain = some m
  | .inNumber m text => text.foldlM NumMode.step .start = some m
  | .inLiteral _ v | .endValue v => WellFormed d v
  | _ => True

def Frame.Ok (d : ℕ) : Frame → Prop
  | .arr done => ∀ v ∈ done, WellFormed d v
  | .key done => ∀ m ∈ done, StrOk m.1 ∧ WellFormed d m.2
  | .val done k => StrOk k ∧ ∀ m ∈ done, StrOk m.1 ∧ WellFormed d m.2

/-- The open arrays and objects stay within the limit, with what they hold. -/
def FramesOk (limit : ℕ) : List Frame → Prop
  | [] => True
  | f :: fs => fs.length + 1 ≤ limit ∧ f.Ok (limit - (fs.length + 1)) ∧ FramesOk limit fs

def Scanner.Ok (limit : ℕ) (s : Scanner) : Prop :=
  s.mode.Ok (limit - s.frames.length) ∧ FramesOk limit s.frames

lemma wellFormed_obj {members : List (Bytes × Value)}
    (h : ∀ m ∈ members, StrOk m.1 ∧ WellFormed d m.2) : WellFormed (d + 1) (.obj members) :=
  .obj (fun m hm => (h m hm).1) (fun m hm => (h m hm).2)

lemma WellFormed.strOk {raw : Bytes} (h : WellFormed d (.str raw)) : StrOk raw := by
  cases h
  assumption

variable {bs : Bytes} {b : UInt8}

lemma foldlM_concat {σ : Type} {f : σ → UInt8 → Option σ} {s t u : σ} (h : bs.foldlM f s = some t)
    (hb : f t b = some u) : (bs ++ [b]).foldlM f s = some u := by
  rw [List.foldlM_append, h]
  simpa using hb

lemma forall_mem_concat {α : Type} {p : α → Prop} {xs : List α} {x : α} (h : ∀ y ∈ xs, p y)
    (hx : p x) : ∀ y ∈ xs ++ [x], p y := by
  intro y hy
  rcases List.mem_append.mp hy with hy | hy
  · exact h y hy
  · exact List.mem_singleton.mp hy ▸ hx

variable {s t : Scanner}

lemma wellFormed_close {n : ℕ} (hlen : n + 1 ≤ limit) (h : WellFormed (limit - (n + 1) + 1) v) :
    WellFormed (limit - n) v := by
  rwa [show limit - n = limit - (n + 1) + 1 by omega]

inductive Follows (v : Value) : List Frame → Scanner → Prop
  | space (fs : List Frame) : Follows v fs ⟨.endValue v, fs⟩
  | colon {done : List (Bytes × Value)} {k : Bytes} {fs : List Frame} (hv : v = .str k) :
      Follows v (.key done :: fs) ⟨.beginValue, .val done k :: fs⟩
  | member (done : List (Bytes × Value)) (k : Bytes) (fs : List Frame) :
      Follows v (.val done k :: fs) ⟨.beginString, .key (done ++ [(k, v)]) :: fs⟩
  | object (done : List (Bytes × Value)) (k : Bytes) (fs : List Frame) :
      Follows v (.val done k :: fs) ⟨.endValue (.obj (done ++ [(k, v)])), fs⟩
  | element (done : List Value) (fs : List Frame) :
      Follows v (.arr done :: fs) ⟨.beginValue, .arr (done ++ [v]) :: fs⟩
  | array (done : List Value) (fs : List Frame) :
      Follows v (.arr done :: fs) ⟨.endValue (.arr (done ++ [v])), fs⟩

lemma follows_of_endValue (h : endValue v fs b = some s) : Follows v fs s := by
  unfold endValue at h
  by_cases hspace : isSpace b = true
  · rw [if_pos hspace] at h
    cases h
    exact .space fs
  · rw [if_neg hspace] at h
    rcases fs with _ | ⟨⟨done⟩ | ⟨done⟩ | ⟨done, k⟩, fs⟩
    · cases h
    · dsimp only at h
      split_ifs at h <;> cases h
      · exact .element done fs
      · exact .array done fs
    · cases v with
      | str k =>
        dsimp only at h
        split_ifs at h
        cases h
        exact .colon rfl
      | null | bool | num | arr | obj => cases h
    · dsimp only at h
      split_ifs at h <;> cases h
      · exact .member done k fs
      · exact .object done k fs

lemma endValue_ok (hv : WellFormed (limit - fs.length) v) (hfs : FramesOk limit fs)
    (h : endValue v fs b = some s) : s.Ok limit := by
  cases follows_of_endValue h with
  | space => exact ⟨hv, hfs⟩
  | colon hstr =>
    subst hstr
    exact ⟨trivial, hfs.1, ⟨hv.strOk, hfs.2.1⟩, hfs.2.2⟩
  | member done k => exact ⟨trivial, hfs.1, forall_mem_concat hfs.2.1.2 ⟨hfs.2.1.1, hv⟩, hfs.2.2⟩
  | object done k =>
    have hdone := forall_mem_concat hfs.2.1.2 (x := (k, v)) ⟨hfs.2.1.1, hv⟩
    exact ⟨wellFormed_close hfs.1 (wellFormed_obj hdone), hfs.2.2⟩
  | element done => exact ⟨trivial, hfs.1, forall_mem_concat hfs.2.1 hv, hfs.2.2⟩
  | array done => exact ⟨wellFormed_close hfs.1 (.arr (forall_mem_concat hfs.2.1 hv)), hfs.2.2⟩

lemma push_ok {mode : Mode} {f : Frame} (hfs : FramesOk limit fs)
    (h : push limit mode f fs = some s) (hmode : ∀ d, mode.Ok d) (hf : ∀ d, f.Ok d) :
    s.Ok limit := by
  unfold push at h
  split_ifs at h with hlen
  cases h
  exact ⟨hmode _, hlen, hf _, hfs⟩

lemma beginValue_ok (hfs : FramesOk limit fs) (h : beginValue limit fs b = some s) :
    s.Ok limit := by
  unfold beginValue at h
  split_ifs at h
  · cases h
    exact ⟨trivial, hfs⟩
  · exact push_ok hfs h (fun _ => trivial) (fun _ _ hm => (nomatch hm))
  · exact push_ok hfs h (fun _ => trivial) (fun _ _ hm => (nomatch hm))
  · cases h
    exact ⟨rfl, hfs⟩
  · cases h
    exact ⟨.bool true, hfs⟩
  · cases h
    exact ⟨.bool false, hfs⟩
  · cases h
    exact ⟨.null, hfs⟩
  · obtain ⟨m, hm, rfl⟩ := Option.map_eq_some_iff.mp h
    refine ⟨?_, hfs⟩
    show [b].foldlM NumMode.step .start = some m
    rw [List.foldlM_cons, hm]
    rfl

lemma beginString_ok (hfs : FramesOk limit fs) (h : beginString fs b = some s) : s.Ok limit := by
  unfold beginString at h
  split_ifs at h
  · cases h
    exact ⟨trivial, hfs⟩
  · cases h
    exact ⟨rfl, hfs⟩

inductive Inside : Mode → UInt8 → Mode → Prop
  | char {m m' : StrMode} {raw : Bytes} {b : UInt8} (h : m.step b = some m') :
      Inside (.inString m raw) b (.inString m' (raw ++ [b]))
  | quote (raw : Bytes) (b : UInt8) : Inside (.inString .plain raw) b (.endValue (.str raw))
  | digit {m m' : NumMode} {text : Bytes} {b : UInt8} (h : m.step b = some m') :
      Inside (.inNumber m text) b (.inNumber m' (text ++ [b]))
  | letter (b c : UInt8) (rest : Bytes) (v : Value) :
      Inside (.inLiteral (b :: c :: rest) v) b (.inLiteral (c :: rest) v)
  | last (b : UInt8) (v : Value) : Inside (.inLiteral [b] v) b (.endValue v)

inductive Steps (limit : ℕ) (b : UInt8) : Scanner → Scanner → Prop
  | space (s : Scanner) : Steps limit b s s
  | value {mode : Mode} {fs : List Frame} {t : Scanner} (hmode : ∀ v, mode ≠ .endValue v)
      (h : beginValue limit fs b = some t) : Steps limit b ⟨mode, fs⟩ t
  | string {mode : Mode} {fs : List Frame} {t : Scanner} (hmode : ∀ v, mode ≠ .endValue v)
      (h : beginString fs b = some t) : Steps limit b ⟨mode, fs⟩ t
  | close {mode : Mode} {f : Frame} {fs : List Frame} {v : Value} (h : v = .arr [] ∨ v = .obj []) :
      Steps limit b ⟨mode, f :: fs⟩ ⟨.endValue v, fs⟩
  | ended {v : Value} {fs : List Frame} {t : Scanner} (h : endValue v fs b = some t) :
      Steps limit b ⟨.endValue v, fs⟩ t
  | number {m : NumMode} {text : Bytes} {fs : List Frame} {t : Scanner} (hfinal : m.final = true)
      (h : endValue (.num text) fs b = some t) : Steps limit b ⟨.inNumber m text, fs⟩ t
  | inside {mode mode' : Mode} {fs : List Frame} (h : Inside mode b mode') :
      Steps limit b ⟨mode, fs⟩ ⟨mode', fs⟩

lemma steps_of_pop {mode : Mode} (hv : v = .arr [] ∨ v = .obj []) (h : pop v fs = some t) :
    Steps limit b ⟨mode, fs⟩ t := by
  cases fs with
  | nil => cases h
  | cons f fs =>
    cases h
    exact .close hv

lemma steps_of_step (h : s.step limit b = some t) : Steps limit b s t := by
  obtain ⟨mode, fs⟩ := s
  cases mode with
  | beginValue => exact .value (by simp) h
  | beginString => exact .string (by simp) h
  | endValue v => exact .ended h
  | beginValueOrEmpty =>
    simp only [Scanner.step] at h
    split_ifs at h
    · cases h
      exact .space _
    · exact steps_of_pop (.inl rfl) h
    · exact .value (by simp) h
  | beginStringOrEmpty =>
    simp only [Scanner.step] at h
    split_ifs at h
    · cases h
      exact .space _
    · exact steps_of_pop (.inr rfl) h
    · exact .string (by simp) h
  | inString m raw =>
    simp only [Scanner.step] at h
    split_ifs at h with hq
    · cases h
      obtain ⟨rfl, -⟩ := hq
      exact .inside (.quote raw b)
    · obtain ⟨m', hm', rfl⟩ := Option.map_eq_some_iff.mp h
      exact .inside (.char hm')
  | inNumber m text =>
    simp only [Scanner.step] at h
    rcases hm' : m.step b with _ | m'
    · rw [hm'] at h
      split_ifs at h with hfinal
      exact .number hfinal h
    · rw [hm'] at h
      cases h
      exact .inside (.digit hm')
  | inLiteral rest v =>
    rcases rest with _ | ⟨c, _ | ⟨c', rest⟩⟩
    · cases h
    · simp only [Scanner.step] at h
      split_ifs at h with hc
      cases h
      exact .inside (hc ▸ .last b v)
    · simp only [Scanner.step] at h
      split_ifs at h with hc
      cases h
      exact .inside (hc ▸ .letter b c' rest v)

lemma step_ok (hs : s.Ok limit) (h : s.step limit b = some t) : t.Ok limit := by
  obtain ⟨hmode, hfs⟩ := hs
  cases steps_of_step h with
  | space => exact ⟨hmode, hfs⟩
  | value _ h => exact beginValue_ok hfs h
  | string _ h => exact beginString_ok hfs h
  | close hv =>
    refine ⟨wellFormed_close hfs.1 ?_, hfs.2.2⟩
    rcases hv with rfl | rfl
    · exact .arr fun _ hv => nomatch hv
    · exact wellFormed_obj fun _ hm => nomatch hm
  | ended h => exact endValue_ok hmode hfs h
  | number hfinal h => exact endValue_ok (.num ⟨_, hmode, hfinal⟩) hfs h
  | inside hin =>
    refine ⟨?_, hfs⟩
    cases hin with
    | char hm | digit hm => exact foldlM_concat hmode hm
    | quote => exact .str hmode
    | letter | last => exact hmode

lemma run_ok (hs : s.Ok limit) (h : s.run limit bs = some t) : t.Ok limit := by
  induction bs generalizing s with
  | nil =>
    cases h
    exact hs
  | cons b bs ih =>
    obtain ⟨u, hu, h⟩ := Option.bind_eq_some_iff.mp h
    exact ih (step_ok hs hu) h

/-- **Soundness.** A text that is accepted stands for a well-formed value. -/
theorem wellFormed_of_parse (h : parse limit bs = some v) : WellFormed limit v := by
  obtain ⟨s, hs, h⟩ := Option.bind_eq_some_iff.mp h
  have hok : s.Ok limit := run_ok (s := Scanner.start) ⟨trivial, trivial⟩ hs
  unfold Scanner.finish at h
  split at h
  next w hstep =>
    cases h
    exact (step_ok hok hstep).1
  · cases h

/-! ### Nesting -/

mutual

def depth : Value → ℕ
  | .arr elems => depthElems elems + 1
  | .obj members => depthMembers members + 1
  | _ => 0

def depthElems : List Value → ℕ
  | [] => 0
  | v :: vs => max (depth v) (depthElems vs)

def depthMembers : List (Bytes × Value) → ℕ
  | [] => 0
  | (_, v) :: ms => max (depth v) (depthMembers ms)

end

lemma depth_le_depthElems {vs : List Value} (h : v ∈ vs) : depth v ≤ depthElems vs := by
  induction vs with
  | nil => cases h
  | cons w vs ih =>
    rcases List.mem_cons.mp h with rfl | h
    · exact le_max_left _ _
    · exact le_max_of_le_right (ih h)

variable {ms : List (Bytes × Value)}

lemma depth_le_depthMembers {m : Bytes × Value} (h : m ∈ ms) : depth m.2 ≤ depthMembers ms := by
  induction ms with
  | nil => cases h
  | cons n ms ih =>
    rcases List.mem_cons.mp h with rfl | h
    · exact le_max_left _ _
    · exact le_max_of_le_right (ih h)

lemma WellFormed.of_depth (h : WellFormed d v) {d' : ℕ} (hd : depth v ≤ d') :
    WellFormed d' v := by
  induction h generalizing d' with
  | null => exact .null
  | bool b => exact .bool b
  | num h => exact .num h
  | str h => exact .str h
  | arr h ih =>
    rw [depth] at hd
    obtain ⟨e, rfl⟩ : ∃ e, d' = e + 1 := ⟨d' - 1, by omega⟩
    exact .arr fun v hv => ih v hv (le_trans (depth_le_depthElems hv) (by omega))
  | obj hk h ih =>
    rw [depth] at hd
    obtain ⟨e, rfl⟩ : ∃ e, d' = e + 1 := ⟨d' - 1, by omega⟩
    exact .obj hk fun m hm => ih m hm (le_trans (depth_le_depthMembers hm) (by omega))

lemma depthElems_le {vs : List Value} (h : ∀ v ∈ vs, depth v ≤ d) : depthElems vs ≤ d := by
  induction vs with
  | nil => exact Nat.zero_le d
  | cons v vs ih =>
    obtain ⟨hv, hvs⟩ := List.forall_mem_cons.mp h
    exact max_le hv (ih hvs)

lemma depthMembers_le {ms : List (Bytes × Value)} (h : ∀ m ∈ ms, depth m.2 ≤ d) :
    depthMembers ms ≤ d := by
  induction ms with
  | nil => exact Nat.zero_le d
  | cons m ms ih =>
    obtain ⟨hm, hms⟩ := List.forall_mem_cons.mp h
    exact max_le hm (ih hms)

lemma WellFormed.depth_le (h : WellFormed d v) : depth v ≤ d := by
  induction h with
  | null | bool | num | str => exact Nat.zero_le _
  | arr h ih => exact Nat.succ_le_succ (depthElems_le ih)
  | obj hk h ih => exact Nat.succ_le_succ (depthMembers_le ih)

lemma WellFormed.mono (h : WellFormed d v) {d' : ℕ} (hd : d ≤ d') : WellFormed d' v :=
  h.of_depth (h.depth_le.trans hd)

/-! ### A compact text is one line -/

def Printable (b : UInt8) : Prop := 32 ≤ b.toNat

instance : DecidablePred Printable := fun b => by unfold Printable; infer_instance

def OneLine (bs : Bytes) : Prop := ∀ b ∈ bs, Printable b

instance : DecidablePred OneLine := List.decidableBAll Printable

@[simp] lemma oneLine_nil : OneLine [] := fun _ hb => (nomatch hb)

@[simp] lemma oneLine_cons : OneLine (b :: bs) ↔ Printable b ∧ OneLine bs := List.forall_mem_cons

@[simp] lemma oneLine_append {bs' : Bytes} :
    OneLine (bs ++ bs') ↔ OneLine bs ∧ OneLine bs' := List.forall_mem_append

lemma Printable.of_isDigit (h : isDigit b = true) : Printable b :=
  le_trans (by decide) (isDigit_iff.mp h).1

lemma Printable.of_isHex (h : isHex b = true) : Printable b := by
  simp only [isHex, Bool.or_eq_true, Bool.and_eq_true, decide_eq_true_eq,
    UInt8.le_iff_toNat_le] at h
  rcases h with (h | h) | h
  · exact .of_isDigit h
  · exact le_trans (by decide) h.1
  · exact le_trans (by decide) h.1

lemma StrMode.printable_of_step {m m' : StrMode} (h : m.step b = some m') : Printable b := by
  cases m with
  | plain =>
    simp only [StrMode.step] at h
    split_ifs at h with hq hb hlt
    · rw [hb]
      decide
    · exact not_lt.mp hlt
  | escape =>
    simp only [StrMode.step] at h
    split_ifs at h with hb hu
    · have hall : ∀ c ∈ [0x62, 0x66, 0x6e, 0x72, 0x74, backslash, 0x2f, quoteMark],
          Printable c := by decide +kernel
      exact hall b hb
    · rw [hu]
      decide
  | hex left =>
    simp only [StrMode.step] at h
    split_ifs at h with hb
    exact .of_isHex hb

lemma NumMode.printable_of_step {m m' : NumMode} (h : m.step b = some m') : Printable b := by
  by_contra hb
  have hne (c : UInt8) (hc : 32 ≤ c.toNat) : b ≠ c := by
    rintro rfl
    exact hb hc
  have hdigit : isDigit b = false := by
    by_contra hd
    exact hb (.of_isDigit (by simpa using hd))
  cases m <;> simp [NumMode.step, NumMode.first, NumMode.point, hdigit,
    hne 0x2d (by decide), hne 0x30 (by decide), hne 0x2e (by decide), hne 0x65 (by decide),
    hne 0x45 (by decide), hne 0x2b (by decide)] at h

lemma oneLine_of_foldlM {σ : Type} {f : σ → UInt8 → Option σ}
    (hf : ∀ s b t, f s b = some t → Printable b) {s t : σ} (h : bs.foldlM f s = some t) :
    OneLine bs := by
  induction bs generalizing s with
  | nil => exact oneLine_nil
  | cons c bs ih =>
    obtain ⟨u, hu, h⟩ := Option.bind_eq_some_iff.mp h
    exact oneLine_cons.mpr ⟨hf _ _ _ hu, ih h⟩

lemma StrOk.oneLine {raw : Bytes} (h : StrOk raw) : OneLine raw :=
  oneLine_of_foldlM (fun _ _ _ => StrMode.printable_of_step) h

lemma oneLine_renderElems {vs : List Value} (h : ∀ v ∈ vs, OneLine (render v)) :
    OneLine (renderElems vs) := by
  have hcomma : Printable comma := by decide
  induction vs with
  | nil => exact oneLine_nil
  | cons v vs ih =>
    obtain ⟨hv, hvs⟩ := List.forall_mem_cons.mp h
    cases vs with
    | nil => exact hv
    | cons w vs => simpa [renderElems, hcomma] using ⟨hv, ih hvs⟩

lemma oneLine_renderMembers (hk : ∀ m ∈ ms, StrOk m.1) (h : ∀ m ∈ ms, OneLine (render m.2)) :
    OneLine (renderMembers ms) := by
  have hquote : Printable quoteMark := by decide
  have hcolon : Printable colon := by decide
  have hcomma : Printable comma := by decide
  induction ms with
  | nil => exact oneLine_nil
  | cons m ms ih =>
    obtain ⟨hm, hms⟩ := List.forall_mem_cons.mp h
    obtain ⟨hkm, hkms⟩ := List.forall_mem_cons.mp hk
    cases ms with
    | nil => simpa [renderMembers, hquote, hcolon] using ⟨hkm.oneLine, hm⟩
    | cons n ms =>
      simpa [renderMembers, hquote, hcolon, hcomma] using ⟨hkm.oneLine, hm, ih hkms hms⟩

/-- A compact text holds no control character, so no newline. -/
theorem oneLine_render (h : WellFormed d v) : OneLine (render v) := by
  induction h with
  | null => decide +kernel
  | bool b => cases b <;> decide +kernel
  | num h =>
    obtain ⟨m, h, -⟩ := h
    exact oneLine_of_foldlM (fun _ _ _ => NumMode.printable_of_step) h
  | str h =>
    have hquote : Printable quoteMark := by decide
    simpa [render, hquote] using h.oneLine
  | arr h ih =>
    have hopen : Printable openBracket := by decide
    have hclose : Printable closeBracket := by decide
    simpa [render, hopen, hclose] using oneLine_renderElems ih
  | obj hk h ih =>
    have hopen : Printable openBrace := by decide
    have hclose : Printable closeBrace := by decide
    simpa [render, hopen, hclose] using oneLine_renderMembers hk ih

/-! ### A cut-off object is no value -/

/-- Inside of something, or past it. -/
def Entered (s : Scanner) : Prop := s.frames ≠ [] ∨ ∃ v, s.mode = .endValue v

lemma entered_endValue (h : endValue v fs b = some s) : Entered s := by
  cases follows_of_endValue h with
  | space | object | array => exact .inr ⟨_, rfl⟩
  | colon | member | element => exact .inl (by simp)

lemma frames_beginValue (hfs : fs ≠ []) (h : beginValue limit fs b = some s) : s.frames ≠ [] := by
  unfold beginValue push at h
  split_ifs at h
  all_goals first
    | cases h; exact hfs
    | cases h; exact List.cons_ne_nil _ _
    | obtain ⟨m, -, rfl⟩ := Option.map_eq_some_iff.mp h; exact hfs

lemma entered_step (hs : Entered s) (h : s.step limit b = some t) : Entered t := by
  have hopen {mode : Mode} {fs : List Frame} (hs : Entered ⟨mode, fs⟩)
      (hmode : ∀ v, mode ≠ .endValue v) : fs ≠ [] := hs.resolve_right fun ⟨v, hv⟩ => hmode v hv
  cases steps_of_step h with
  | space => exact hs
  | value hmode h => exact .inl (frames_beginValue (hopen hs hmode) h)
  | string hmode h =>
    have hfs := hopen hs hmode
    unfold beginString at h
    split_ifs at h <;> (cases h; exact .inl hfs)
  | close => exact .inr ⟨_, rfl⟩
  | ended h | number _ h => exact entered_endValue h
  | inside hin => cases hin <;> exact .inl (hopen hs nofun)

lemma entered_run (hs : Entered s) (h : s.run limit bs = some t) : Entered t := by
  induction bs generalizing s with
  | nil =>
    cases h
    exact hs
  | cons b bs ih =>
    obtain ⟨u, hu, h⟩ := Option.bind_eq_some_iff.mp h
    exact ih (entered_step hs hu) h

/-- A text that has been entered ends in a value only where the value has been completed. -/
lemma finish_of_entered (hs : Entered s) {w : Value} (h : s.finish limit = some w) :
    s = ⟨.endValue w, []⟩ := by
  obtain ⟨mode, fs⟩ := s
  unfold Scanner.finish at h
  split at h
  next v hstep =>
    cases h
    -- a space opens and closes nothing
    have hspace : isSpace space = true := rfl
    cases mode with
    | endValue v =>
      cases hstep
      rfl
    | inNumber m text =>
      simp only [Scanner.step, space_not_number] at hstep
      split_ifs at hstep
      cases hstep
      rcases hs with hs | ⟨v, hv⟩
      · exact absurd rfl hs
      · cases hv
    | beginValue => simp [Scanner.step, beginValue, hspace] at hstep
    | beginString => simp [Scanner.step, beginString, hspace] at hstep
    | beginValueOrEmpty | beginStringOrEmpty => simp [Scanner.step, hspace] at hstep
    | inString m raw =>
      have hq : ¬(m = .plain ∧ space = quoteMark) := by
        rintro ⟨-, h⟩
        exact absurd h (by decide)
      simp only [Scanner.step, if_neg hq] at hstep
      obtain ⟨m', -, hm'⟩ := Option.map_eq_some_iff.mp hstep
      cases hm'
    | inLiteral rest v =>
      rcases rest with _ | ⟨c, _ | ⟨c', rest⟩⟩
      · cases hstep
      · simp only [Scanner.step] at hstep
        split_ifs at hstep
        cases hstep
        rcases hs with hs | ⟨v, hv⟩
        · exact absurd rfl hs
        · cases hv
      · simp only [Scanner.step] at hstep
        split_ifs at hstep
        cases hstep
  · cases h

/-- Only spaces may follow a complete value. -/
lemma isSpace_of_run (h : Scanner.run limit ⟨.endValue v, []⟩ bs = some t) :
    ∀ b ∈ bs, isSpace b = true := by
  induction bs with
  | nil => exact fun b hb => (nomatch hb)
  | cons b bs ih =>
    by_cases hspace : isSpace b = true
    · have hstep : Scanner.step limit ⟨.endValue v, []⟩ b = some ⟨.endValue v, []⟩ := if_pos hspace
      rw [run_of_step hstep] at h
      exact List.forall_mem_cons.mpr ⟨hspace, ih h⟩
    · have hstep : Scanner.step limit ⟨.endValue v, []⟩ b = none := if_neg hspace
      rw [run_cons, hstep] at h
      cases h

/-- **Torn texts.** No proper beginning of the text of an object is valid JSON. -/
theorem parse_cut (hv : WellFormed limit (.obj ms)) {p q : Bytes}
    (htext : p ++ q = render (.obj ms)) (hq : q ≠ []) : parse limit p = none := by
  rcases hw : parse limit p with _ | w
  · rfl
  · exfalso
    obtain ⟨s, hs, hfin⟩ := Option.bind_eq_some_iff.mp hw
    have hentered : Entered s := by
      cases p with
      | nil =>
        cases hs
        exact absurd hfin (by simp [Scanner.finish, Scanner.step, Scanner.start, beginValue, isSpace])
      | cons b p =>
        obtain rfl : b = openBrace := by
          exact (List.cons.inj htext).1
        obtain ⟨u, hu, hs⟩ := Option.bind_eq_some_iff.mp hs
        refine entered_run (.inl ?_) hs
        have hpush : push limit .beginStringOrEmpty (.key []) [] = some u := hu
        unfold push at hpush
        split_ifs at hpush
        cases hpush
        exact List.cons_ne_nil _ _
    -- the whole text is read, so what is left after the value would have to be spaces
    obtain ⟨t, ht, -⟩ := Option.bind_eq_some_iff.mp (parse_render hv)
    rw [← htext, run_of_run hs, finish_of_entered hentered hfin] at ht
    have hlast : q.getLast hq = closeBrace := by
      have hall : (p ++ q).getLast (by simp [hq]) = closeBrace := by simp [htext, render]
      rwa [List.getLast_append_of_ne_nil _ hq] at hall
    have hspace := isSpace_of_run ht _ (List.getLast_mem hq)
    rw [hlast] at hspace
    exact absurd hspace (by decide)

end Workforce.Json
