import Workforce.JsonScan

/-!
Files of lines, read with a buffer of limited size.

The reader hands out the lines one by one, the last one also when no line end follows it, and
stops with an error at a line that does not fit into its buffer. A file that was written line by
line and is cut at some byte consists of the lines that end before the cut and perhaps of a
beginning of the next one.
-/

namespace Workforce.Lines

open Json

/-- The bytes between line ends; nothing comes after the last line end. `line` is what has been
read of the present line. -/
def segments (line : Bytes) : Bytes → List Bytes
  | [] => if line = [] then [] else [line]
  | b :: bs => if b = newline then line :: segments [] bs else segments (line ++ [b]) bs

/-- A line without the carriage return at its end. -/
def dropCR (line : Bytes) : Bytes :=
  if line.getLast? = some 0x0d then line.dropLast else line

/-- The lines a reader with a buffer of `limit` bytes hands out: the line end, or for the last
line the notice that there is none, needs room too. -/
def scanned (limit : ℕ) (bs : Bytes) : List Bytes :=
  ((segments [] bs).takeWhile fun line => line.length < limit).map dropCR

/-- The reader stops at a line that does not fit. -/
def TooLong (limit : ℕ) (bs : Bytes) : Prop := ∃ line ∈ segments [] bs, limit ≤ line.length

instance (limit : ℕ) (bs : Bytes) : Decidable (TooLong limit bs) :=
  inferInstanceAs (Decidable (∃ _ ∈ _, _))

section Segments

variable {line text rest : Bytes}

lemma segments_append (h : newline ∉ text) :
    segments line (text ++ rest) = segments (line ++ text) rest := by
  induction text generalizing line with
  | nil => rw [List.nil_append, List.append_nil]
  | cons b text ih =>
    rw [List.mem_cons, not_or] at h
    rw [List.cons_append, segments, if_neg (Ne.symm h.1), ih h.2, ← List.append_cons]

lemma segments_line (h : newline ∉ text) :
    segments [] (text ++ newline :: rest) = text :: segments [] rest := by
  rw [segments_append h, List.nil_append, segments, if_pos rfl]

lemma segments_last (h : newline ∉ text) :
    segments [] text = if text = [] then [] else [text] := by
  have happ : segments [] (text ++ []) = segments ([] ++ text) [] := segments_append h
  rw [List.append_nil, List.nil_append] at happ
  rw [happ, segments]

end Segments

/-! ### A file that was cut -/

section Cut

variable {α : Type} (text : α → Bytes)

def file (as : List α) : Bytes := as.flatMap fun a => text a ++ [newline]

/-- The lines whose text lies before the cut at byte `n`. -/
def whole : List α → ℕ → List α
  | [], _ => []
  | a :: as, n =>
    if (text a).length ≤ n then a :: whole as (n - ((text a).length + 1)) else []

/-- What is left of the line the cut goes through. -/
def torn : List α → ℕ → Bytes
  | [], _ => []
  | a :: as, n =>
    if (text a).length ≤ n then torn as (n - ((text a).length + 1)) else (text a).take n

variable {text} {as : List α}

lemma whole_subset (n : ℕ) : ∀ a ∈ whole text as n, a ∈ as := by
  fun_induction whole text as n with
  | case1 => simp
  | case2 a as n h ih =>
    refine List.forall_mem_cons.mpr ⟨List.mem_cons_self, fun b hb => ?_⟩
    exact List.mem_cons_of_mem _ (ih b hb)
  | case3 => simp

lemma torn_cases (n : ℕ) : torn text as n = [] ∨
    ∃ a ∈ as, ∃ missing, torn text as n ++ missing = text a ∧ missing ≠ [] := by
  fun_induction torn text as n with
  | case1 => exact .inl rfl
  | case2 a as n h ih =>
    exact ih.imp_right fun ⟨b, hb, missing, hm⟩ => ⟨b, List.mem_cons_of_mem _ hb, missing, hm⟩
  | case3 a as n h =>
    refine .inr ⟨a, List.mem_cons_self, (text a).drop n, List.take_append_drop _ _, ?_⟩
    rw [ne_eq, List.drop_eq_nil_iff]
    omega

lemma file_cons (a : α) (as : List α) :
    file text (a :: as) = text a ++ newline :: file text as := by
  rw [file, List.flatMap_cons, List.append_assoc]
  rfl

lemma whole_length (as : List α) :
    whole text as (file text as).length = as ∧ torn text as (file text as).length = [] := by
  induction as with
  | nil => exact ⟨rfl, rfl⟩
  | cons a as ih =>
    have hlen : (file text (a :: as)).length = (text a).length + 1 + (file text as).length := by
      rw [file_cons, List.length_append, List.length_cons]
      omega
    have hle : (text a).length ≤ (file text (a :: as)).length := by omega
    have hrest : (file text (a :: as)).length - ((text a).length + 1) = (file text as).length := by
      omega
    rw [whole, torn, if_pos hle, if_pos hle, hrest, ih.1, ih.2]
    exact ⟨rfl, rfl⟩

/-- **Cut files.** Reading what is left of a file gives the lines before the cut and the torn
one. -/
theorem segments_take (h : ∀ a ∈ as, newline ∉ text a) (hne : ∀ a ∈ as, text a ≠ []) (n : ℕ) :
    segments [] ((file text as).take n) =
      (whole text as n).map text ++ if torn text as n = [] then [] else [torn text as n] := by
  induction as generalizing n with
  | nil => simp [file, whole, torn, segments]
  | cons a as ih =>
    obtain ⟨ha, has⟩ := List.forall_mem_cons.mp h
    obtain ⟨hane, hasne⟩ := List.forall_mem_cons.mp hne
    rw [file_cons, whole, torn]
    by_cases hn : (text a).length ≤ n
    · rw [if_pos hn, if_pos hn, List.map_cons, List.cons_append, ← ih has hasne]
      rcases Nat.eq_or_lt_of_le hn with heq | hlt
      · -- the line end is lost, the line is not
        rw [List.take_left' heq, segments_last ha, if_neg hane, ← heq,
          show (text a).length - ((text a).length + 1) = 0 by omega]
        rfl
      · have htake : (text a ++ newline :: file text as).take n =
            text a ++ newline :: (file text as).take (n - ((text a).length + 1)) := by
          obtain ⟨k, rfl⟩ : ∃ k, n = (text a).length + (k + 1) :=
            ⟨n - (text a).length - 1, by omega⟩
          rw [List.take_length_add_append, List.take_succ_cons]
          congr 3
          omega
        rw [htake, segments_line ha]
    · rw [if_neg hn, if_neg hn, List.take_append_of_le_length (by omega),
        segments_last fun hmem => ha (List.mem_of_mem_take hmem)]
      rfl

end Cut

end Workforce.Lines
