import Workforce.JsonScan

/-!
How deep and how long JSON texts are.

A nesting limit refuses exactly the values that are nested deeper, and a value is never longer,
spelled compactly, than a text it was read from.
-/

namespace Workforce.Json

open Scanner

variable {limit limit' d : ℕ} {v w : Value} {fs : List Frame}

/-! ### The nesting limit -/

variable {t s : Scanner}

lemma push_mono (hl : limit ≤ limit') {mode : Mode} {f : Frame}
    (h : push limit mode f fs = some t) : push limit' mode f fs = some t := by
  unfold push at h ⊢
  split_ifs at h with hlen
  rwa [if_pos (by omega)]

variable {b : UInt8}

lemma beginValue_mono (hl : limit ≤ limit') (h : beginValue limit fs b = some t) :
    beginValue limit' fs b = some t := by
  unfold beginValue at h ⊢
  split_ifs at h ⊢
  all_goals first | exact h | exact push_mono hl h

lemma step_mono (hl : limit ≤ limit') (h : s.step limit b = some t) : s.step limit' b = some t := by
  obtain ⟨mode, fs⟩ := s
  cases mode with
  | beginValue => exact beginValue_mono hl h
  | beginValueOrEmpty =>
    simp only [Scanner.step] at h ⊢
    split_ifs at h ⊢
    · exact h
    · exact h
    · exact beginValue_mono hl h
  | beginStringOrEmpty | beginString | inString | inNumber | inLiteral | endValue => exact h

variable {bs : Bytes}

lemma run_mono (hl : limit ≤ limit') (h : s.run limit bs = some t) : s.run limit' bs = some t := by
  induction bs generalizing s with
  | nil => exact h
  | cons b bs ih =>
    obtain ⟨u, hu, h⟩ := Option.bind_eq_some_iff.mp h
    rw [run_of_step (step_mono hl hu)]
    exact ih h

lemma parse_mono (hl : limit ≤ limit') (h : parse limit bs = some v) :
    parse limit' bs = some v := by
  obtain ⟨s, hs, h⟩ := Option.bind_eq_some_iff.mp h
  rw [parse, run_mono hl hs, Option.bind_some]
  unfold Scanner.finish at h ⊢
  split at h
  next w hstep =>
    rw [step_mono hl hstep]
    exact h
  · cases h

/-- A text that is read as `v` wherever `v` is allowed is refused elsewhere. -/
lemma parse_eq_ite {text : Bytes} (h : WellFormed d v)
    (htext : ∀ limit, WellFormed limit v → parse limit text = some v) :
    parse limit text = if depth v ≤ limit then some v else none := by
  split_ifs with hd
  · exact htext limit (h.of_depth hd)
  · rcases hp : parse limit text with _ | w
    · rfl
    · have hbig : parse (max limit (depth v)) text = some v :=
        htext _ (h.of_depth (le_max_right _ _))
      rw [parse_mono (le_max_left _ _) hp] at hbig
      cases hbig
      exact absurd (wellFormed_of_parse hp).depth_le hd

/-- **The limit.** A compact text is read unless its value is nested too deep. -/
theorem parse_render_eq (h : WellFormed d v) :
    parse limit (render v) = if depth v ≤ limit then some v else none :=
  parse_eq_ite h fun _ => parse_render

lemma newline_not_number (m : NumMode) : m.step newline = none := by cases m <;> decide

/-- A line end after the text changes nothing. -/
theorem parse_render_newline (h : WellFormed d v) :
    parse limit (render v ++ [newline]) = if depth v ≤ limit then some v else none := by
  refine parse_eq_ite h fun limit h => ?_
  have hread : Readable limit limit v := readable h
  obtain ⟨s, hs, hreads⟩ := hread [] (by simp)
  have hrun : Scanner.start.run limit (render v ++ [newline]) = some ⟨.endValue v, []⟩ := by
    rw [Scanner.run, List.foldlM_append]
    show (Scanner.run limit ⟨.beginValue, []⟩ (render v)).bind _ = _
    rw [hs, Option.bind_some, List.foldlM_cons, hreads newline newline_not_number]
    rfl
  rw [parse, hrun, Option.bind_some]
  rfl

/-! ### The length of a text -/

def elemsSize (vs : List Value) : ℕ := (vs.map fun v => (render v).length + 1).sum

def membersSize (ms : List (Bytes × Value)) : ℕ :=
  (ms.map fun m => m.1.length + (render m.2).length + 4).sum

/-- How much of a compact text the scanner has seen. -/
def Mode.size : Mode → ℕ
  | .inString _ raw => raw.length + 1
  | .inNumber _ text => text.length
  | .inLiteral rest v => (render v).length - rest.length
  | .endValue v => (render v).length
  | _ => 0

def Frame.size : Frame → ℕ
  | .arr done => elemsSize done + 1
  | .key done => membersSize done + 1
  | .val done k => membersSize done + k.length + 4

def Scanner.size (s : Scanner) : ℕ := s.mode.size + (s.frames.map Frame.size).sum

lemma length_renderElems (done : List Value) (v : Value) :
    (renderElems (done ++ [v])).length = elemsSize done + (render v).length := by
  induction done with
  | nil => simp [renderElems, elemsSize]
  | cons w done ih =>
    have hcons : renderElems (w :: done ++ [v]) = render w ++ comma :: renderElems (done ++ [v]) := by
      cases done <;> rfl
    rw [hcons, List.length_append, List.length_cons, ih]
    simp only [elemsSize, List.map_cons, List.sum_cons]
    omega

lemma length_renderMembers (done : List (Bytes × Value)) (k : Bytes) (v : Value) :
    (renderMembers (done ++ [(k, v)])).length =
      membersSize done + k.length + 3 + (render v).length := by
  induction done with
  | nil =>
    simp [renderMembers, membersSize]
    omega
  | cons m done ih =>
    have hcons : renderMembers (m :: done ++ [(k, v)]) =
        quoteMark :: m.1 ++ quoteMark :: colon :: render m.2 ++
          comma :: renderMembers (done ++ [(k, v)]) := by
      cases done <;> rfl
    rw [hcons, List.length_append, List.length_cons, ih]
    simp only [membersSize, List.map_cons, List.sum_cons, List.length_append, List.length_cons]
    omega

lemma elemsSize_concat (done : List Value) (v : Value) :
    elemsSize (done ++ [v]) = elemsSize done + (render v).length + 1 := by
  simp [elemsSize]
  omega

lemma membersSize_concat (done : List (Bytes × Value)) (k : Bytes) (v : Value) :
    membersSize (done ++ [(k, v)]) = membersSize done + k.length + (render v).length + 4 := by
  simp [membersSize]
  omega

lemma endValue_size (h : endValue v fs b = some t) :
    t.size ≤ (render v).length + (fs.map Frame.size).sum + 1 := by
  cases follows_of_endValue h with
  | space => exact Nat.le_succ _
  | colon hstr =>
    subst hstr
    simp [Scanner.size, Mode.size, Frame.size, render]
    omega
  | member | object | element | array =>
    simp [Scanner.size, Mode.size, Frame.size, render, membersSize_concat, length_renderMembers,
      elemsSize_concat, length_renderElems]
    omega

lemma push_size {mode : Mode} {f : Frame} (h : push limit mode f fs = some t) :
    t.size = mode.size + f.size + (fs.map Frame.size).sum := by
  unfold push at h
  split_ifs at h
  cases h
  simp [Scanner.size]
  omega

lemma beginValue_size (h : beginValue limit fs b = some t) :
    t.size ≤ (fs.map Frame.size).sum + 1 := by
  unfold beginValue at h
  split_ifs at h
  · cases h
    simp [Scanner.size, Mode.size]
  · rw [push_size h]
    simp [Mode.size, Frame.size, membersSize]
    omega
  · rw [push_size h]
    simp [Mode.size, Frame.size, elemsSize]
    omega
  · cases h
    simp [Scanner.size, Mode.size]
    omega
  iterate 3
    · cases h
      simp [Scanner.size, Mode.size, render]
      omega
  · obtain ⟨m, -, rfl⟩ := Option.map_eq_some_iff.mp h
    simp [Scanner.size, Mode.size]
    omega

lemma beginString_size (h : beginString fs b = some t) : t.size ≤ (fs.map Frame.size).sum + 1 := by
  unfold beginString at h
  split_ifs at h
  all_goals
    cases h
    simp [Scanner.size, Mode.size]
    try omega

lemma Frame.size_pos (f : Frame) : 1 ≤ f.size := by
  cases f <;> simp only [Frame.size] <;> omega

/-- **One byte** of text is at most one byte of value. -/
lemma step_size (h : s.step limit b = some t) : t.size ≤ s.size + 1 := by
  cases steps_of_step h with
  | space => exact Nat.le_succ _
  | value _ h => exact (beginValue_size h).trans (Nat.succ_le_succ (Nat.le_add_left _ _))
  | string _ h => exact (beginString_size h).trans (Nat.succ_le_succ (Nat.le_add_left _ _))
  | @close mode f fs v hv =>
    have hf := f.size_pos
    have hlength : (render v).length = 2 := by rcases hv with rfl | rfl <;> rfl
    simp only [Scanner.size, Mode.size, List.map_cons, List.sum_cons]
    omega
  | ended h => exact endValue_size h
  | number _ h => exact endValue_size h
  | inside hin =>
    cases hin <;> simp [Scanner.size, Mode.size, render] <;> omega

lemma run_size (h : s.run limit bs = some t) : t.size ≤ s.size + bs.length := by
  induction bs generalizing s with
  | nil =>
    cases h
    exact le_rfl
  | cons b bs ih =>
    obtain ⟨u, hu, h⟩ := Option.bind_eq_some_iff.mp h
    have hone := step_size hu
    have hrest := ih h
    rw [List.length_cons]
    omega

/-- **No longer than the text**, up to the space that ends it. -/
theorem length_render_le (h : parse limit bs = some v) : (render v).length ≤ bs.length + 1 := by
  obtain ⟨s, hs, h⟩ := Option.bind_eq_some_iff.mp h
  have hsize : s.size ≤ bs.length := by
    have hrun := run_size hs
    rwa [show Scanner.start.size = 0 from rfl, Nat.zero_add] at hrun
  unfold Scanner.finish at h
  split at h
  next w hstep =>
    cases h
    have hlast := step_size hstep
    rw [show Scanner.size ⟨.endValue v, []⟩ = (render v).length from rfl] at hlast
    omega
  · cases h

end Workforce.Json
