import Workforce.Decimal

/-!
Durations as texts.

A duration is a number of nanoseconds. It is written with the units hours, minutes and seconds,
or with one smaller unit below a second, the last one with a decimal fraction. The reader takes
any sequence of decimal numbers with units and adds them up; what is written is read back
exactly.
-/

namespace Workforce.Durations

open Decimal

/-! ### Writing -/

/-- The last `prec` decimal digits of `v` as a fraction without trailing zeros, in front of the
text `acc` that is already there, and what is left of `v`. -/
def fmtFrac : ℕ → ℕ → List Char → List Char × ℕ
  | 0, v, acc => (if acc = [] then [] else '.' :: acc, v)
  | prec + 1, v, acc =>
    if acc ≠ [] ∨ v % 10 ≠ 0 then fmtFrac prec (v / 10) (Nat.digitChar (v % 10) :: acc)
    else fmtFrac prec (v / 10) acc

/-- A number with a fraction of `prec` digits, and its unit. -/
def fmtUnit (prec v : ℕ) (unit : List Char) : List Char :=
  let r := fmtFrac prec v []
  Nat.toDigits 10 r.2 ++ r.1 ++ unit

/-- Nanoseconds, without a sign. -/
def formatAbs (u : ℕ) : List Char :=
  if u < 10 ^ 9 then
    if u = 0 then ['0', 's']
    else if u < 10 ^ 3 then fmtUnit 0 u ['n', 's']
    else if u < 10 ^ 6 then fmtUnit 3 u ['µ', 's']
    else fmtUnit 6 u ['m', 's']
  else
    let r := fmtFrac 9 u []
    let seconds := r.2
    let minutes := seconds / 60
    let hours := minutes / 60
    (if hours > 0 then Nat.toDigits 10 hours ++ ['h'] else []) ++
      (if minutes > 0 then Nat.toDigits 10 (minutes % 60) ++ ['m'] else []) ++
      (Nat.toDigits 10 (seconds % 60) ++ r.1 ++ ['s'])

def format (d : ℤ) : List Char :=
  if d < 0 then '-' :: formatAbs d.natAbs else formatAbs d.natAbs

/-! ### Reading -/

inductive DurationError
  | invalid
  | missingUnit
  | unknownUnit (unit : List Char)

def unitOf : List Char → Option ℕ
  | ['n', 's'] => some 1
  | ['u', 's'] => some (10 ^ 3)
  | ['µ', 's'] => some (10 ^ 3)
  | ['μ', 's'] => some (10 ^ 3)
  | ['m', 's'] => some (10 ^ 6)
  | ['s'] => some (10 ^ 9)
  | ['m'] => some (60 * 10 ^ 9)
  | ['h'] => some (60 * 60 * 10 ^ 9)
  | _ => none

def fractionStep : ℕ × ℕ × Bool → Char → ℕ × ℕ × Bool
  | (f, scale, true), _ => (f, scale, true)
  | (f, scale, false), c =>
    if f > (2 ^ 63 - 1) / 10 ∨ f * 10 + (c.toNat - 48) > 2 ^ 63 then (f, scale, true)
    else (f * 10 + (c.toNat - 48), scale * 10, false)

/-- The digits after the point as `f / scale`. Digits beyond what 63 bits hold are passed over,
which the flag remembers. -/
def leadingFraction (ds : List Char) : ℕ × ℕ × Bool := ds.foldl fractionStep (0, 1, false)

/-- The part of a text that a unit can be. -/
def isUnitChar (c : Char) : Bool := c ≠ '.' ∧ ¬c.isDigit

/-- A number at the front: its digits, those after the point, and the rest of the text. -/
def leadingNumber (s : List Char) : List Char × List Char × List Char :=
  let ds := s.takeWhile Char.isDigit
  match s.dropWhile Char.isDigit with
  | '.' :: rest => (ds, rest.takeWhile Char.isDigit, rest.dropWhile Char.isDigit)
  | rest => (ds, [], rest)

/-- Add up the numbers with units. Each takes at least one character, so the length of the text
is enough fuel. -/
def sum : ℕ → List Char → ℕ → Except DurationError ℕ
  | _, [], d => .ok d
  | 0, _, _ => .error .invalid
  | fuel + 1, s, d =>
    let (ds, fs, rest) := leadingNumber s
    let v := Nat.ofDigitChars 10 ds 0
    if (ds = [] ∧ fs = []) ∨ v > 2 ^ 63 then .error .invalid
    else if rest.takeWhile isUnitChar = [] then .error .missingUnit
    else match unitOf (rest.takeWhile isUnitChar) with
      | none => .error (.unknownUnit (rest.takeWhile isUnitChar))
      | some unit =>
        if v > 2 ^ 63 / unit then .error .invalid
        else
          let (f, scale, _) := leadingFraction fs
          let v := v * unit + f * unit / scale
          if v > 2 ^ 63 ∨ d + v > 2 ^ 63 then .error .invalid
          else sum fuel (rest.dropWhile isUnitChar) (d + v)

/-- The text after the sign; a lone zero needs no unit. -/
def parseAbs (s : List Char) : Except DurationError ℕ :=
  if s = ['0'] then .ok 0
  else if s = [] then .error .invalid
  else sum (s.length + 1) s 0

def parse : List Char → Except DurationError ℤ
  | '-' :: s => (parseAbs s).map fun d => -(d : ℤ)
  | '+' :: s => (parseAbs s).bind fun d => if d > 2 ^ 63 - 1 then .error .invalid else .ok d
  | s => (parseAbs s).bind fun d => if d > 2 ^ 63 - 1 then .error .invalid else .ok d

/-! ### Fractions -/

abbrev num (ds : List Char) : ℕ := Nat.ofDigitChars 10 ds 0

lemma digitChar_isDigit {n : ℕ} (h : n < 10) : (Nat.digitChar n).isDigit = true := by
  interval_cases n <;> decide

lemma digitChar_toNat {n : ℕ} (h : n < 10) : (Nat.digitChar n).toNat - 48 = n := by
  interval_cases n <;> decide

lemma toNat_le_of_isDigit {c : Char} (h : c.isDigit = true) : c.toNat - 48 ≤ 9 := by
  rw [Char.isDigit, Bool.and_eq_true, decide_eq_true_iff, decide_eq_true_iff] at h
  have h9 : c.toNat ≤ 57 := h.2
  omega

lemma num_append_singleton (ds : List Char) (c : Char) :
    num (ds ++ [c]) = num ds * 10 + (c.toNat - 48) := by
  show Nat.ofDigitChars 10 (ds ++ [c]) 0 = _
  rw [Nat.ofDigitChars_append, Nat.ofDigitChars_cons, Nat.mul_comm]
  rfl

lemma num_cons (c : Char) (ds : List Char) :
    num (c :: ds) = 10 ^ ds.length * (c.toNat - 48) + num ds := by
  show Nat.ofDigitChars 10 (c :: ds) 0 = _
  rw [Nat.ofDigitChars_cons, Nat.ofDigitChars_eq_ofDigitChars_zero, Nat.mul_zero, Nat.zero_add]
  rfl

lemma leadingFraction_eq {ds : List Char} (hlen : ds.length ≤ 9)
    (hds : ∀ c ∈ ds, c.isDigit = true) :
    leadingFraction ds = (num ds, 10 ^ ds.length, false) ∧ num ds < 10 ^ ds.length := by
  induction ds using List.reverseRecOn with
  | nil => exact ⟨rfl, by decide⟩
  | append_singleton ds c ih =>
    rw [List.length_append, List.length_singleton] at hlen
    obtain ⟨heq, hlt⟩ := ih (by omega) fun c hc => hds c (List.mem_append_left _ hc)
    have hdigit := toNat_le_of_isDigit (hds c (by simp))
    have hbound : 10 ^ ds.length ≤ 10 ^ 8 := Nat.pow_le_pow_right (by decide) (by omega)
    rw [num_append_singleton, List.length_append, List.length_singleton, pow_succ]
    refine ⟨?_, by omega⟩
    rw [leadingFraction, List.foldl_append, ← leadingFraction, heq]
    exact if_neg (by omega)

/-- **Fractions.** The digits written after the point are those of `v` below `10 ^ prec`, apart
from the zeros at their end. -/
lemma fmtFrac_spec (prec v : ℕ) {acc : List Char} (hacc : ∀ c ∈ acc, c.isDigit = true) :
    ∃ ds, fmtFrac prec v acc = (if ds = [] then [] else '.' :: ds, v / 10 ^ prec) ∧
      (∀ c ∈ ds, c.isDigit = true) ∧ ds.length ≤ prec + acc.length ∧
      num ds * 10 ^ (prec + acc.length - ds.length) =
        v % 10 ^ prec * 10 ^ acc.length + num acc := by
  induction prec generalizing v acc with
  | zero =>
    refine ⟨acc, by simp [fmtFrac], hacc, by omega, ?_⟩
    rw [Nat.zero_add, Nat.sub_self, pow_zero, Nat.mod_one]
    omega
  | succ prec ih =>
    have hdiv : v / 10 ^ (prec + 1) = v / 10 / 10 ^ prec := by
      rw [pow_succ, Nat.mul_comm, Nat.div_div_eq_div_mul]
    have hmod : v % 10 ^ (prec + 1) = 10 * (v / 10 % 10 ^ prec) + v % 10 := by
      rw [pow_succ, Nat.mul_comm, Nat.mod_mul]
      omega
    have hlt : v % 10 < 10 := Nat.mod_lt _ (by decide)
    rw [fmtFrac, hdiv, hmod]
    split_ifs with hprint
    · have hcons : ∀ c ∈ Nat.digitChar (v % 10) :: acc, c.isDigit = true :=
        List.forall_mem_cons.mpr ⟨digitChar_isDigit hlt, hacc⟩
      obtain ⟨ds, heq, hds, hlen, hval⟩ := ih (v / 10) hcons
      rw [List.length_cons] at hlen hval
      refine ⟨ds, heq, hds, by omega, ?_⟩
      rw [num_cons, digitChar_toNat hlt, pow_succ] at hval
      rw [show prec + 1 + acc.length - ds.length = prec + (acc.length + 1) - ds.length by omega,
        hval]
      ring
    · obtain ⟨rfl, hzero⟩ : acc = [] ∧ v % 10 = 0 := by simpa using hprint
      obtain ⟨ds, heq, hds, hlen, hval⟩ := ih (v / 10) hacc
      rw [List.length_nil, Nat.add_zero] at hlen hval
      refine ⟨ds, heq, hds, by simp; omega, ?_⟩
      rw [List.length_nil, Nat.add_zero, show prec + 1 - ds.length = prec - ds.length + 1 by omega,
        pow_succ, ← Nat.mul_assoc, hval, hzero, show num [] = 0 from rfl]
      ring

/-! ### One number with its unit -/

section Component

variable {n U d : ℕ} {ds unit rest : List Char}

lemma span_append {p : Char → Bool} {s rest : List Char} (hs : ∀ c ∈ s, p c = true)
    (hrest : ∀ c ∈ rest.head?, p c = false) :
    (s ++ rest).takeWhile p = s ∧ (s ++ rest).dropWhile p = rest := by
  rw [List.takeWhile_append_of_pos hs, List.dropWhile_append_of_pos hs]
  cases rest with
  | nil => simp
  | cons c rest => simp [hrest c rfl]

/-- A unit: letters that the reader knows. -/
structure IsUnit (unit : List Char) (U : ℕ) : Prop where
  ne_nil : unit ≠ []
  chars : ∀ c ∈ unit, isUnitChar c = true
  known : unitOf unit = some U

lemma IsUnit.head (h : IsUnit unit U) (rest : List Char) :
    ∃ c cs, unit ++ rest = c :: cs ∧ c.isDigit = false ∧ c ≠ '.' := by
  cases unit with
  | nil => exact absurd rfl h.ne_nil
  | cons c cs =>
    have hc := h.chars c (by simp)
    simp only [isUnitChar, ne_eq, Bool.not_eq_true, decide_eq_true_eq] at hc
    exact ⟨c, cs ++ rest, rfl, hc.2, hc.1⟩

lemma leadingNumber_component (hunit : IsUnit unit U) (hds : ∀ c ∈ ds, c.isDigit = true) :
    leadingNumber (Nat.toDigits 10 n ++ (if ds = [] then [] else '.' :: ds) ++ (unit ++ rest)) =
      (Nat.toDigits 10 n, ds, unit ++ rest) := by
  obtain ⟨c, cs, hcs, hdigit, hpoint⟩ := hunit.head rest
  have hstop : ∀ x ∈ (c :: cs).head?, x.isDigit = false := by simpa using hdigit
  rw [List.append_assoc, leadingNumber, hcs]
  split_ifs with hnil
  · obtain ⟨htake, hdrop⟩ := span_append (isDigit_toDigits n) hstop
    rw [List.nil_append, htake, hdrop, hnil]
    simp [hpoint]
  · have hdot : ∀ x ∈ ('.' :: ds ++ c :: cs).head?, x.isDigit = false := by simp
    obtain ⟨htake, hdrop⟩ := span_append (isDigit_toDigits n) hdot
    obtain ⟨htake', hdrop'⟩ := span_append hds hstop
    rw [htake, hdrop]
    simp only [List.cons_append, htake', hdrop']

/-- **One number is read**: its value is added, and the rest of the text is read on. -/
lemma sum_component (fuel : ℕ) (hunit : IsUnit unit U) (hU : 0 < U)
    (hds : ∀ c ∈ ds, c.isDigit = true) (hlen : ds.length ≤ 9)
    (hrest : ∀ c ∈ rest.head?, isUnitChar c = false)
    (hbound : d + (n * U + num ds * U / 10 ^ ds.length) ≤ 2 ^ 63) :
    sum (fuel + 1)
        (Nat.toDigits 10 n ++ (if ds = [] then [] else '.' :: ds) ++ (unit ++ rest)) d =
      sum fuel rest (d + (n * U + num ds * U / 10 ^ ds.length)) := by
  have hne : Nat.toDigits 10 n ++ (if ds = [] then [] else '.' :: ds) ++ (unit ++ rest) ≠ [] := by
    simp [Nat.toDigits_ne_nil]
  obtain ⟨c, cs, hcs⟩ := List.exists_cons_of_ne_nil hne
  obtain ⟨htake, hdrop⟩ := span_append hunit.chars hrest
  have hmul : n * U ≤ 2 ^ 63 :=
    (Nat.le_add_right _ _).trans ((Nat.le_add_left _ d).trans hbound)
  have hn : n ≤ 2 ^ 63 / U := (Nat.le_div_iff_mul_le hU).mpr hmul
  have hn' : n ≤ 2 ^ 63 := (Nat.le_mul_of_pos_right n hU).trans hmul
  rw [hcs, sum.eq_3, ← hcs, leadingNumber_component hunit hds]
  · simp only [Nat.ofDigitChars_ten_toDigits, Nat.toDigits_ne_nil, false_and, false_or, htake,
      hunit.ne_nil, hunit.known, hdrop, (leadingFraction_eq hlen hds).1]
    rw [if_neg (by omega), if_false, if_neg (by omega),
      if_neg (not_or.mpr ⟨not_lt.mpr ((Nat.le_add_left _ d).trans hbound), not_lt.mpr hbound⟩)]
  · simp

end Component

/-! ### What is written is read back -/

lemma isUnit_ns : IsUnit ['n', 's'] (10 ^ 0) :=
  ⟨by decide, List.forall_iff_forall_mem.mp (by decide), rfl⟩

lemma isUnit_us : IsUnit ['µ', 's'] (10 ^ 3) :=
  ⟨by decide, List.forall_iff_forall_mem.mp (by decide), rfl⟩

lemma isUnit_ms : IsUnit ['m', 's'] (10 ^ 6) :=
  ⟨by decide, List.forall_iff_forall_mem.mp (by decide), rfl⟩

lemma isUnit_s : IsUnit ['s'] (10 ^ 9) :=
  ⟨by decide, List.forall_iff_forall_mem.mp (by decide), rfl⟩

lemma isUnit_m : IsUnit ['m'] (60 * 10 ^ 9) :=
  ⟨by decide, List.forall_iff_forall_mem.mp (by decide), rfl⟩

lemma isUnit_h : IsUnit ['h'] (60 * 60 * 10 ^ 9) :=
  ⟨by decide, List.forall_iff_forall_mem.mp (by decide), rfl⟩

variable {prec u fuel d n : ℕ} {unit rest : List Char}

lemma fmtFrac_read (hprec : prec ≤ 9) (u : ℕ) :
    ∃ ds, fmtFrac prec u [] = (if ds = [] then [] else '.' :: ds, u / 10 ^ prec) ∧
      (∀ c ∈ ds, c.isDigit = true) ∧ ds.length ≤ 9 ∧
      num ds * 10 ^ prec / 10 ^ ds.length = u % 10 ^ prec := by
  have hnil : ∀ c ∈ ([] : List Char), c.isDigit = true := by simp
  obtain ⟨ds, heq, hds, hlen, hval⟩ := fmtFrac_spec prec u hnil
  rw [List.length_nil, Nat.add_zero] at hlen hval
  have hsplit : 10 ^ prec = 10 ^ (prec - ds.length) * 10 ^ ds.length := by
    rw [← pow_add, Nat.sub_add_cancel hlen]
  refine ⟨ds, heq, hds, hlen.trans hprec, ?_⟩
  rw [hsplit, ← Nat.mul_assoc, Nat.mul_div_cancel _ (by positivity), hval, ← hsplit,
    show num [] = 0 from rfl]
  omega

lemma sum_last (fuel : ℕ) (hunit : IsUnit unit (10 ^ prec)) (hprec : prec ≤ 9)
    (hbound : d + (n * 10 ^ prec + u % 10 ^ prec) ≤ 2 ^ 63) :
    sum (fuel + 1) (Nat.toDigits 10 n ++ (fmtFrac prec u []).1 ++ unit) d =
      .ok (d + (n * 10 ^ prec + u % 10 ^ prec)) := by
  obtain ⟨ds, heq, hds, hlen, hval⟩ := fmtFrac_read hprec u
  have hrest : ∀ c ∈ ([] : List Char).head?, isUnitChar c = false := by simp
  have hread := sum_component fuel hunit (by positivity) hds hlen hrest (hval.symm ▸ hbound)
  rw [List.append_nil, hval] at hread
  rw [heq, hread, sum]

lemma fmtFrac_quot (hprec : prec ≤ 9) (u : ℕ) : (fmtFrac prec u []).2 = u / 10 ^ prec := by
  obtain ⟨ds, heq, -⟩ := fmtFrac_read hprec u
  rw [heq]

lemma sum_fmtUnit (fuel : ℕ) (hunit : IsUnit unit (10 ^ prec)) (hprec : prec ≤ 9)
    (hu : u ≤ 2 ^ 63) : sum (fuel + 1) (fmtUnit prec u unit) 0 = .ok u := by
  have hdivmod : u / 10 ^ prec * 10 ^ prec + u % 10 ^ prec = u := Nat.div_add_mod' u (10 ^ prec)
  rw [fmtUnit, fmtFrac_quot hprec, sum_last fuel hunit hprec (by omega), hdivmod, Nat.zero_add]

lemma toDigits_cons (n : ℕ) : ∃ c cs, Nat.toDigits 10 n = c :: cs ∧ c.isDigit = true := by
  obtain ⟨c, cs, hcs⟩ := List.exists_cons_of_ne_nil (@Nat.toDigits_ne_nil n 10)
  exact ⟨c, cs, hcs, isDigit_toDigits n c (hcs ▸ List.mem_cons_self)⟩

lemma sum_whole {U : ℕ} (fuel k : ℕ) (hunit : IsUnit unit U) (hU : 0 < U)
    (hbound : d + n * U ≤ 2 ^ 63) :
    sum (fuel + 1) (Nat.toDigits 10 n ++ unit ++ (Nat.toDigits 10 k ++ rest)) d =
      sum fuel (Nat.toDigits 10 k ++ rest) (d + n * U) := by
  obtain ⟨c, cs, hcs, hc⟩ := toDigits_cons k
  have hnil : ∀ c ∈ ([] : List Char), c.isDigit = true := by simp
  have hrest : ∀ x ∈ (Nat.toDigits 10 k ++ rest).head?, isUnitChar x = false := by
    simp [hcs, isUnitChar, hc]
  have hzero : num [] * U / 10 ^ ([] : List Char).length = 0 := by simp [num]
  have hread := sum_component fuel hunit hU hnil (Nat.zero_le 9) hrest
    (show d + (n * U + num [] * U / 10 ^ ([] : List Char).length) ≤ 2 ^ 63 by rwa [hzero])
  rw [hzero, if_pos rfl, List.append_nil, ← List.append_assoc] at hread
  exact hread

/-- A duration of a second or more: hours and minutes are read before the seconds. -/
lemma sum_seconds (fuel : ℕ) (hu : u ≤ 2 ^ 63) (hsec : ¬u < 10 ^ 9) :
    sum (fuel + 3) (formatAbs u) 0 = .ok u := by
  have hquot : (fmtFrac 9 u []).2 = u / 10 ^ 9 := fmtFrac_quot le_rfl u
  have hseconds (fuel d : ℕ) (hd : d + u % (60 * 10 ^ 9) ≤ 2 ^ 63) :
      sum (fuel + 1) (Nat.toDigits 10 (u / 10 ^ 9 % 60) ++ ((fmtFrac 9 u []).1 ++ ['s'])) d =
        .ok (d + u % (60 * 10 ^ 9)) := by
    have hsplit : u / 10 ^ 9 % 60 * 10 ^ 9 + u % 10 ^ 9 = u % (60 * 10 ^ 9) := by omega
    rw [← List.append_assoc, sum_last fuel isUnit_s le_rfl (by omega), hsplit]
  have hminutes (fuel d : ℕ) (hd : d + u % (60 * 60 * 10 ^ 9) ≤ 2 ^ 63) :
      sum (fuel + 2) (Nat.toDigits 10 (u / 10 ^ 9 / 60 % 60) ++ (['m'] ++
        (Nat.toDigits 10 (u / 10 ^ 9 % 60) ++ ((fmtFrac 9 u []).1 ++ ['s'])))) d =
        .ok (d + u % (60 * 60 * 10 ^ 9)) := by
    have hsplit : d + u / 10 ^ 9 / 60 % 60 * (60 * 10 ^ 9) + u % (60 * 10 ^ 9) =
        d + u % (60 * 60 * 10 ^ 9) := by omega
    rw [← List.append_assoc, sum_whole (fuel + 1) _ isUnit_m (by decide) (by omega),
      hseconds fuel _ (by omega), hsplit]
  rw [formatAbs, if_neg hsec]
  simp only [hquot, List.append_assoc]
  split_ifs with hh hm hm
  · have hsplit : 0 + u / 10 ^ 9 / 60 / 60 * (60 * 60 * 10 ^ 9) + u % (60 * 60 * 10 ^ 9) = u := by
      omega
    rw [List.append_assoc, List.append_assoc, ← List.append_assoc,
      sum_whole (fuel + 2) _ isUnit_h (by decide) (by omega), hminutes fuel _ (by omega), hsplit]
  · omega
  · rw [List.nil_append, List.append_assoc, hminutes (fuel + 1) 0 (by omega)]
    congr 1
    omega
  · rw [List.nil_append, List.nil_append, hseconds (fuel + 2) 0 (by omega)]
    congr 1
    omega

/-- A character that the text of a duration is made of. -/
def Spelled (c : Char) : Prop := c.isDigit = true ∨ c ∈ ['-', '.', 'n', 'µ', 'm', 's', 'h']

lemma spelled_toDigits (n : ℕ) : ∀ c ∈ Nat.toDigits 10 n, Spelled c :=
  fun c hc => .inl (isDigit_toDigits n c hc)

lemma spelled_fmtFrac (hprec : prec ≤ 9) (u : ℕ) : ∀ c ∈ (fmtFrac prec u []).1, Spelled c := by
  obtain ⟨ds, heq, hds, -⟩ := fmtFrac_read hprec u
  rw [heq]
  intro c hc
  split_ifs at hc
  · cases hc
  · rcases List.mem_cons.mp hc with rfl | hc
    · exact .inr (by decide)
    · exact .inl (hds c hc)

lemma spelled_append {s t : List Char} (hs : ∀ c ∈ s, Spelled c) (ht : ∀ c ∈ t, Spelled c) :
    ∀ c ∈ s ++ t, Spelled c :=
  fun c hc => (List.mem_append.mp hc).elim (hs c) (ht c)

lemma spelled_singleton {c : Char} (h : c ∈ ['-', '.', 'n', 'µ', 'm', 's', 'h']) :
    ∀ x ∈ [c], Spelled x := fun _ hx => .inr (List.mem_singleton.mp hx ▸ h)

/-- A text that starts with a number and ends with the letter of the second. -/
def Shape (s : List Char) : Prop :=
  ∃ n t, s = Nat.toDigits 10 n ++ t ++ ['s'] ∧ ∀ c ∈ t, Spelled c

lemma shape_fmtUnit (hprec : prec ≤ 9) (u : ℕ) {c : Char}
    (hc : c ∈ ['-', '.', 'n', 'µ', 'm', 's', 'h']) : Shape (fmtUnit prec u [c, 's']) :=
  ⟨(fmtFrac prec u []).2, (fmtFrac prec u []).1 ++ [c], by simp [fmtUnit],
    spelled_append (spelled_fmtFrac hprec u) (spelled_singleton hc)⟩

lemma Shape.cons {s : List Char} (h : Shape s) (n : ℕ) {c : Char}
    (hc : c ∈ ['-', '.', 'n', 'µ', 'm', 's', 'h']) : Shape (Nat.toDigits 10 n ++ [c] ++ s) := by
  obtain ⟨k, t, rfl, ht⟩ := h
  exact ⟨n, [c] ++ (Nat.toDigits 10 k ++ t), by simp,
    spelled_append (spelled_singleton hc) (spelled_append (spelled_toDigits k) ht)⟩

lemma shape_formatAbs (u : ℕ) : Shape (formatAbs u) := by
  have hseconds (k : ℕ) : Shape (Nat.toDigits 10 k ++ (fmtFrac 9 u []).1 ++ ['s']) :=
    ⟨k, _, rfl, spelled_fmtFrac le_rfl u⟩
  rw [formatAbs]
  dsimp only
  split_ifs
  · exact ⟨0, [], rfl, by simp⟩
  · exact shape_fmtUnit (by decide) u (by decide)
  · exact shape_fmtUnit (by decide) u (by decide)
  · exact shape_fmtUnit (by decide) u (by decide)
  · rw [List.append_assoc]
    exact ((hseconds _).cons _ (by decide)).cons _ (by decide)
  · rw [List.append_nil]
    exact (hseconds _).cons _ (by decide)
  · exact (hseconds _).cons _ (by decide)
  · exact hseconds _

lemma sum_formatAbs (fuel : ℕ) (hu : u ≤ 2 ^ 63) : sum (fuel + 3) (formatAbs u) 0 = .ok u := by
  by_cases hsec : u < 10 ^ 9
  · rw [formatAbs, if_pos hsec]
    split_ifs with hzero
    · have hread := @sum_last 9 0 0 0 ['s'] (fuel + 2) isUnit_s le_rfl (by decide)
      rw [hzero]
      exact hread
    · exact sum_fmtUnit (fuel + 2) isUnit_ns (by decide) hu
    · exact sum_fmtUnit (fuel + 2) isUnit_us (by decide) hu
    · exact sum_fmtUnit (fuel + 2) isUnit_ms (by decide) hu
  · exact sum_seconds fuel hu hsec

lemma parseAbs_formatAbs (hu : u ≤ 2 ^ 63) : parseAbs (formatAbs u) = .ok u := by
  obtain ⟨n, t, ht, -⟩ := shape_formatAbs u
  have hpos : 0 < (Nat.toDigits 10 n).length := List.length_pos_of_ne_nil Nat.toDigits_ne_nil
  have hlen : (formatAbs u).length + 1 = (formatAbs u).length - 2 + 3 := by
    rw [ht, List.length_append, List.length_append, List.length_singleton]
    omega
  have hzero : formatAbs u ≠ ['0'] := by
    intro h
    have hlast := congrArg List.getLast? (ht.symm.trans h)
    simp at hlast
  rw [parseAbs, if_neg hzero, if_neg (by simp [ht]), hlen, sum_formatAbs _ hu]

/-- **Durations are read back** as what was written. -/
theorem parse_format {d : ℤ} (hd : IsInt64 d) : parse (format d) = .ok d := by
  obtain ⟨hlow, hhigh⟩ := hd
  rw [format]
  split_ifs with hneg
  · rw [parse, parseAbs_formatAbs (by omega)]
    refine congrArg Except.ok ?_
    dsimp only
    omega
  -- without a sign the text starts with a digit
  · obtain ⟨n, t, ht, -⟩ := shape_formatAbs d.natAbs
    obtain ⟨c, cs, hcs, hc⟩ := toDigits_cons n
    have hparse : parse (formatAbs d.natAbs) = (parseAbs (formatAbs d.natAbs)).bind fun d =>
        if d > 2 ^ 63 - 1 then .error .invalid else .ok (d : ℤ) := by
      rw [ht, hcs, List.cons_append, List.cons_append, parse]
      · intro s hs
        cases hs
        exact absurd hc (by decide)
      · intro s hs
        cases hs
        exact absurd hc (by decide)
    have hfits : ¬d.natAbs > 2 ^ 63 - 1 := by omega
    rw [hparse, parseAbs_formatAbs (by omega)]
    show (if d.natAbs > 2 ^ 63 - 1 then _ else Except.ok (d.natAbs : ℤ)) = Except.ok d
    rw [if_neg hfits]
    exact congrArg Except.ok (by omega)

lemma spelled_format (d : ℤ) : ∀ c ∈ format d, Spelled c := by
  obtain ⟨n, t, ht, hspelled⟩ := shape_formatAbs d.natAbs
  have habs : ∀ c ∈ formatAbs d.natAbs, Spelled c := by
    rw [ht]
    exact spelled_append (spelled_append (spelled_toDigits n) hspelled)
      (spelled_singleton (by decide))
  rw [format]
  split_ifs
  · exact List.forall_mem_cons.mpr ⟨.inr (by decide), habs⟩
  · exact habs

lemma format_ne_nil (d : ℤ) : format d ≠ [] := by
  obtain ⟨n, t, ht, -⟩ := shape_formatAbs d.natAbs
  rw [format]
  split_ifs <;> simp [ht]

end Workforce.Durations
