import Workforce.Durations

/-!
Instants as texts.

An instant is a number of nanoseconds since the start of the year 1. It is written as the date
and the time of day in some zone, with a decimal fraction of the second where there is one, and
with the offset of the zone in minutes. Only the years 0 to 9999 can be written; what is written
is read back as the same instant, whatever the zone.
-/

namespace Workforce.Timestamps

open Durations

/-! ### Dates -/

/-- The days from the start of the year 1 to the start of a year. -/
def daysBefore (y : ℤ) : ℤ := 365 * (y - 1) + (y - 1) / 4 - (y - 1) / 100 + (y - 1) / 400

def IsLeap (y : ℤ) : Prop := y % 4 = 0 ∧ (y % 100 ≠ 0 ∨ y % 400 = 0)

instance : DecidablePred IsLeap := fun _ => inferInstanceAs (Decidable (_ ∧ _))

/-- The year of a day, and which day of that year it is. -/
def yearDay (d : ℤ) : ℤ × ℤ :=
  let n400 := d / 146097
  let r400 := d % 146097
  let n100 := min (r400 / 36524) 3
  let r100 := r400 - 36524 * n100
  let n4 := r100 / 1461
  let r4 := r100 % 1461
  let n1 := min (r4 / 365) 3
  (400 * n400 + 100 * n100 + 4 * n4 + n1 + 1, r4 - 365 * n1)

def monthLengths (y : ℤ) : List ℕ :=
  [31, if IsLeap y then 29 else 28, 31, 30, 31, 30, 31, 31, 30, 31, 30, 31]

/-- The month of a day of the year and the day of that month, both counted from zero. -/
def monthDay : List ℕ → ℕ → ℕ × ℕ
  | [], n => (0, n)
  | l :: ls, n =>
    if n < l then (0, n)
    else ((monthDay ls (n - l)).1 + 1, (monthDay ls (n - l)).2)

/-! ### Writing -/

def pad2 (n : ℕ) : List Char := [Nat.digitChar (n / 10 % 10), Nat.digitChar (n % 10)]

def pad4 (n : ℕ) : List Char := pad2 (n / 100) ++ pad2 (n % 100)

def nanosPerMinute : ℤ := 60 * 10 ^ 9

def formatZone (off : ℤ) : List Char :=
  if off = 0 then ['Z']
  else (if off < 0 then '-' else '+') :: (pad2 (off.natAbs / 60) ++ ':' :: pad2 (off.natAbs % 60))

def formatClock (sec : ℕ) : List Char :=
  pad2 (sec / 3600) ++ ':' :: (pad2 (sec / 60 % 60) ++ ':' :: pad2 (sec % 60))

def formatDate (y : ℤ) (yday : ℕ) : List Char :=
  let md := monthDay (monthLengths y) yday
  pad4 y.toNat ++ '-' :: (pad2 (md.1 + 1) ++ '-' :: pad2 (md.2 + 1))

/-- An instant in a zone that is `off` minutes ahead. -/
def format (off t : ℤ) : Option (List Char) :=
  let l := t + off * nanosPerMinute
  let s := l / 10 ^ 9
  let yd := yearDay (s / 86400)
  if 0 ≤ yd.1 ∧ yd.1 ≤ 9999 ∧ off.natAbs < 24 * 60 then
    some (formatDate yd.1 yd.2.toNat ++ 'T' :: (formatClock (s % 86400).toNat ++
      ((fmtFrac 9 (l % 10 ^ 9).toNat []).1 ++ formatZone off)))
  else none

/-! ### Reading -/

/-- A number of exactly `k` digits, and what follows it. -/
def number (k : ℕ) (cs : List Char) : Option (ℕ × List Char) :=
  if (cs.take k).length = k ∧ (cs.take k).all Char.isDigit then
    some (num (cs.take k), cs.drop k)
  else none

def expect (c : Char) : List Char → Option (List Char)
  | [] => none
  | x :: cs => if x = c then some cs else none

/-- The fraction of a second in nanoseconds; digits after the ninth are dropped. -/
def fraction : List Char → Option (ℕ × List Char)
  | [] => some (0, [])
  | c :: cs =>
    if c = '.' then
      let ds := (cs.takeWhile Char.isDigit).take 9
      if ds = [] then none
      else some (num ds * 10 ^ (9 - ds.length), cs.dropWhile Char.isDigit)
    else some (0, c :: cs)

/-- The offset of the zone in minutes. -/
def zone : List Char → Option ℤ
  | [] => none
  | c :: cs =>
    if c = 'Z' then if cs = [] then some 0 else none
    else do
      let (h, cs) ← number 2 cs
      let cs ← expect ':' cs
      let (m, cs) ← number 2 cs
      if cs = [] ∧ h ≤ 23 ∧ m ≤ 59 then
        if c = '+' then some (h * 60 + m) else if c = '-' then some (-(h * 60 + m)) else none
      else none

def date (cs : List Char) : Option (ℤ × List Char) := do
  let (y, cs) ← number 4 cs
  let cs ← expect '-' cs
  let (m, cs) ← number 2 cs
  let cs ← expect '-' cs
  let (d, cs) ← number 2 cs
  let ls := monthLengths y
  if 1 ≤ m ∧ 1 ≤ d ∧ (∃ l, ls[m - 1]? = some l ∧ d ≤ l) then
    some (daysBefore y + (ls.take (m - 1)).sum + (d - 1 : ℕ), cs)
  else none

def clock (cs : List Char) : Option (ℕ × List Char) := do
  let (h, cs) ← number 2 cs
  let cs ← expect ':' cs
  let (m, cs) ← number 2 cs
  let cs ← expect ':' cs
  let (s, cs) ← number 2 cs
  if h ≤ 23 ∧ m ≤ 59 ∧ s ≤ 59 then some (h * 3600 + m * 60 + s, cs) else none

def parse (cs : List Char) : Option ℤ := do
  let (d, cs) ← date cs
  let cs ← expect 'T' cs
  let (s, cs) ← clock cs
  let (ns, cs) ← fraction cs
  let off ← zone cs
  return (d * 86400 + s) * 10 ^ 9 + ns - off * nanosPerMinute

/-! ### Dates are read back -/

section Cycles

variable {a b c e : ℤ}

/-- The days before a year, counted in cycles of 400, 100, 4 and 1 years. -/
lemma daysBefore_cycles (hb : 0 ≤ b ∧ b ≤ 3) (hc : 0 ≤ c ∧ c ≤ 24) (he : 0 ≤ e ∧ e ≤ 3) :
    daysBefore (400 * a + 100 * b + 4 * c + e + 1) =
      146097 * a + 36524 * b + 1461 * c + 365 * e := by
  unfold daysBefore
  omega

lemma isLeap_cycles (hb : 0 ≤ b ∧ b ≤ 3) (hc : 0 ≤ c ∧ c ≤ 24) (he : 0 ≤ e ∧ e ≤ 3) :
    IsLeap (400 * a + 100 * b + 4 * c + e + 1) ↔ e = 3 ∧ (c ≠ 24 ∨ b = 3) := by
  unfold IsLeap
  omega

end Cycles

/-- **Days and years.** -/
lemma yearDay_spec (d : ℤ) :
    daysBefore (yearDay d).1 + (yearDay d).2 = d ∧ 0 ≤ (yearDay d).2 ∧
      ((yearDay d).2 < 365 ∨ IsLeap (yearDay d).1 ∧ (yearDay d).2 < 366) := by
  simp only [yearDay]
  generalize ha : d / 146097 = a
  generalize hr : d % 146097 = r
  generalize hb : min (r / 36524) 3 = b
  generalize hs : r - 36524 * b = s
  generalize hc : s / 1461 = c
  generalize hq : s % 1461 = q
  generalize he : min (q / 365) 3 = e
  have hb' : (0 ≤ b ∧ b ≤ 3) ∧ 0 ≤ s ∧ (s < 36524 ∨ b = 3 ∧ s < 36525) := by omega
  have hc' : 0 ≤ c ∧ c ≤ 24 := by omega
  have he' : (0 ≤ e ∧ e ≤ 3) ∧ 0 ≤ q - 365 * e ∧ (q - 365 * e < 365 ∨ e = 3 ∧ q = 1460) := by omega
  rw [daysBefore_cycles hb'.1 hc' he'.1, isLeap_cycles hb'.1 hc' he'.1]
  omega

lemma yearDay_lt_sum (d : ℤ) : (yearDay d).2.toNat < (monthLengths (yearDay d).1).sum := by
  obtain ⟨-, hpos, hlt | ⟨hleap, hlt⟩⟩ := yearDay_spec d
  · have h365 : 365 ≤ (monthLengths (yearDay d).1).sum := by
      unfold monthLengths
      split_ifs <;> decide
    omega
  · have h366 : (monthLengths (yearDay d).1).sum = 366 := by
      rw [monthLengths, if_pos hleap]
      rfl
    omega

lemma monthDay_spec {ls : List ℕ} {n : ℕ} (h : n < ls.sum) :
    (∃ l, ls[(monthDay ls n).1]? = some l ∧ (monthDay ls n).2 < l) ∧
      (ls.take (monthDay ls n).1).sum + (monthDay ls n).2 = n := by
  induction ls generalizing n with
  | nil => simp at h
  | cons l ls ih =>
    rw [List.sum_cons] at h
    unfold monthDay
    split_ifs with hn
    · exact ⟨⟨l, rfl, hn⟩, by simp⟩
    · obtain ⟨hmem, hsum⟩ := ih (show n - l < ls.sum by omega)
      refine ⟨hmem, ?_⟩
      rw [List.take_succ_cons, List.sum_cons]
      omega

/-! ### Numbers are read back -/

lemma num_append (ds es : List Char) : num (ds ++ es) = 10 ^ es.length * num ds + num es := by
  show Nat.ofDigitChars 10 (ds ++ es) 0 = _
  rw [Nat.ofDigitChars_append, Nat.ofDigitChars_eq_ofDigitChars_zero]

lemma pad2_spec {n : ℕ} (h : n < 100) :
    num (pad2 n) = n ∧ ∀ c ∈ pad2 n, c.isDigit = true := by
  have htens : n / 10 % 10 < 10 := Nat.mod_lt _ (by decide)
  have hones : n % 10 < 10 := Nat.mod_lt _ (by decide)
  constructor
  · rw [pad2, num_cons, num_cons, digitChar_toNat htens, digitChar_toNat hones]
    simp only [List.length_singleton, List.length_nil, show num [] = 0 from rfl]
    omega
  · simp [pad2, digitChar_isDigit htens, digitChar_isDigit hones]

lemma number_append {k : ℕ} {ds : List Char} (hk : ds.length = k)
    (hds : ∀ c ∈ ds, c.isDigit = true) (rest : List Char) :
    number k (ds ++ rest) = some (num ds, rest) := by
  subst hk
  rw [number, List.take_left, List.drop_left, if_pos ⟨rfl, List.all_eq_true.mpr hds⟩]

lemma number_pad2 {n : ℕ} (h : n < 100) (rest : List Char) :
    number 2 (pad2 n ++ rest) = some (n, rest) := by
  obtain ⟨hval, hds⟩ := pad2_spec h
  have hread := number_append (show (pad2 n).length = 2 from rfl) hds rest
  rwa [hval] at hread

lemma number_pad4 {n : ℕ} (h : n < 10000) (rest : List Char) :
    number 4 (pad4 n ++ rest) = some (n, rest) := by
  obtain ⟨hhigh, hhigh'⟩ := pad2_spec (n := n / 100) (by omega)
  obtain ⟨hlow, hlow'⟩ := pad2_spec (n := n % 100) (by omega)
  have hval : num (pad4 n) = n := by
    rw [pad4, num_append, hhigh, hlow, show (pad2 (n % 100)).length = 2 from rfl]
    omega
  have hread := number_append (show (pad4 n).length = 4 from rfl)
    (List.forall_mem_append.mpr ⟨hhigh', hlow'⟩) rest
  rwa [hval] at hread

@[simp] lemma expect_cons (c : Char) (cs : List Char) : expect c (c :: cs) = some cs := if_pos rfl

/-! ### Instants are read back -/

lemma date_formatDate (d : ℤ) (hy : 0 ≤ (yearDay d).1 ∧ (yearDay d).1 ≤ 9999)
    (rest : List Char) :
    date (formatDate (yearDay d).1 (yearDay d).2.toNat ++ rest) = some (d, rest) := by
  obtain ⟨hdays, hpos, -⟩ := yearDay_spec d
  obtain ⟨⟨l, hl, hlt⟩, hsum⟩ := monthDay_spec (yearDay_lt_sum d)
  have hlen := (List.getElem?_eq_some_iff.mp hl).1
  have hmonths : (monthLengths (yearDay d).1).length = 12 := rfl
  have hshort : l ≤ 31 := by
    have hall : ∀ l ∈ monthLengths (yearDay d).1, l ≤ 31 := by
      unfold monthLengths
      split_ifs <;> decide
    exact hall l (List.mem_of_getElem? hl)
  have hyear : (((yearDay d).1.toNat : ℕ) : ℤ) = (yearDay d).1 := Int.toNat_of_nonneg hy.1
  simp only [date, formatDate, List.append_assoc, List.cons_append]
  generalize monthDay (monthLengths (yearDay d).1) (yearDay d).2.toNat = md at *
  simp only [number_pad4 (show (yearDay d).1.toNat < 10000 by omega),
    number_pad2 (show md.1 + 1 < 100 by omega), number_pad2 (show md.2 + 1 < 100 by omega),
    expect_cons, Option.bind_eq_bind, Option.bind_some, hyear, Nat.add_sub_cancel]
  rw [if_pos ⟨by omega, by omega, l, hl, by omega⟩]
  simp only [Option.some.injEq, Prod.mk.injEq, and_true]
  omega

lemma clock_formatClock {s : ℕ} (h : s < 86400) (rest : List Char) :
    clock (formatClock s ++ rest) = some (s, rest) := by
  have hh : s / 3600 < 100 := by omega
  have hm : s / 60 % 60 < 100 := by omega
  have hs : s % 60 < 100 := by omega
  simp only [clock, formatClock, List.append_assoc, List.cons_append, number_pad2 hh,
    number_pad2 hm, number_pad2 hs, expect_cons, Option.bind_eq_bind, Option.bind_some]
  rw [if_pos (by omega)]
  simp only [Option.some.injEq, Prod.mk.injEq, and_true]
  omega

lemma fraction_fmtFrac {ns : ℕ} (h : ns < 10 ^ 9) {rest : List Char}
    (hrest : ∀ c ∈ rest.head?, c.isDigit = false ∧ c ≠ '.') :
    fraction ((fmtFrac 9 ns []).1 ++ rest) = some (ns, rest) := by
  have hnil : ∀ c ∈ ([] : List Char), c.isDigit = true := by simp
  obtain ⟨ds, heq, hds, hlen, hval⟩ := fmtFrac_spec 9 ns hnil
  simp only [List.length_nil, Nat.add_zero, pow_zero, Nat.mul_one, show num [] = 0 from rfl,
    Nat.mod_eq_of_lt h] at hlen hval
  rw [heq]
  by_cases hempty : ds = []
  · subst hempty
    rw [if_pos rfl, List.nil_append, ← hval, show num [] = 0 from rfl, Nat.zero_mul]
    cases rest with
    | nil => rfl
    | cons c rest => exact if_neg (hrest c rfl).2
  · obtain ⟨htake, hdrop⟩ := span_append hds fun c hc => (hrest c hc).1
    simp only [if_neg hempty, List.cons_append, fraction, if_pos, htake, hdrop,
      List.take_of_length_le hlen, hval]

lemma zone_formatZone {off : ℤ} (h : off.natAbs < 24 * 60) : zone (formatZone off) = some off := by
  unfold formatZone
  split_ifs with hzero hneg
  · rw [hzero]
    rfl
  all_goals
    have hminutes := number_pad2 (show off.natAbs % 60 < 100 by omega) []
    rw [List.append_nil] at hminutes
    simp only [zone, number_pad2 (show off.natAbs / 60 < 100 by omega), hminutes, expect_cons,
      Option.bind_eq_bind, Option.bind_some]
    rw [if_neg (by decide), if_pos ⟨trivial, by omega, by omega⟩]
    simp +decide only [if_true, if_false, Option.some.injEq]
    omega

lemma head_formatZone (off : ℤ) : ∀ c ∈ (formatZone off).head?, c.isDigit = false ∧ c ≠ '.' := by
  unfold formatZone
  split_ifs <;> (rintro c hc; cases hc; decide)

/-- **Instants are read back** as they were, in whatever zone they were written. -/
theorem parse_format {off t : ℤ} {cs : List Char} (h : format off t = some cs) :
    parse cs = some t := by
  simp only [format] at h
  split_ifs at h with hok
  obtain ⟨hmin, hmax, hoff⟩ := hok
  cases h
  simp only [parse, date_formatDate _ ⟨hmin, hmax⟩, expect_cons,
    clock_formatClock (show ((t + off * nanosPerMinute) / 10 ^ 9 % 86400).toNat < 86400 by omega),
    fraction_fmtFrac (show ((t + off * nanosPerMinute) % 10 ^ 9).toNat < 10 ^ 9 by omega)
      (head_formatZone off), zone_formatZone hoff, Option.bind_eq_bind, Option.bind_some]
  generalize off * nanosPerMinute = o at *
  simp only [Option.pure_def, Option.some.injEq]
  omega

/-! ### The characters -/

/-- Only these characters are written. -/
def Plain (c : Char) : Prop := c.isDigit = true ∨ c ∈ ['-', '+', ':', '.', 'T', 'Z']

lemma plain_pad2 (n : ℕ) : ∀ c ∈ pad2 n, Plain c := by
  have htens := digitChar_isDigit (n := n / 10 % 10) (Nat.mod_lt _ (by decide))
  have hones := digitChar_isDigit (n := n % 10) (Nat.mod_lt _ (by decide))
  simp [pad2, Plain, htens, hones]

lemma plain_append {cs ds : List Char} {c : Char} (hcs : ∀ c ∈ cs, Plain c)
    (hc : c ∈ ['-', '+', ':', '.', 'T', 'Z']) (hds : ∀ c ∈ ds, Plain c) :
    ∀ x ∈ cs ++ c :: ds, Plain x :=
  List.forall_mem_append.mpr ⟨hcs, List.forall_mem_cons.mpr ⟨.inr hc, hds⟩⟩

lemma plain_formatZone (off : ℤ) : ∀ c ∈ formatZone off, Plain c := by
  unfold formatZone
  split_ifs
  · simp [Plain]
  all_goals
    refine List.forall_mem_cons.mpr ⟨.inr (by simp), ?_⟩
    exact plain_append (plain_pad2 _) (by simp) (plain_pad2 _)

lemma plain_fmtFrac (ns : ℕ) : ∀ c ∈ (fmtFrac 9 ns []).1, Plain c := by
  obtain ⟨ds, heq, hds, -⟩ := fmtFrac_read (le_refl 9) ns
  rw [heq]
  split_ifs
  · simp
  · exact List.forall_mem_cons.mpr ⟨.inr (by simp), fun c hc => .inl (hds c hc)⟩

theorem plain_format {off t : ℤ} {cs : List Char} (h : format off t = some cs) :
    ∀ c ∈ cs, Plain c := by
  simp only [format] at h
  split_ifs at h
  cases h
  have hdate (y : ℤ) (n : ℕ) : ∀ c ∈ formatDate y n, Plain c :=
    plain_append (List.forall_mem_append.mpr ⟨plain_pad2 _, plain_pad2 _⟩) (by simp)
      (plain_append (plain_pad2 _) (by simp) (plain_pad2 _))
  have hclock (s : ℕ) : ∀ c ∈ formatClock s, Plain c :=
    plain_append (plain_pad2 _) (by simp) (plain_append (plain_pad2 _) (by simp) (plain_pad2 _))
  exact plain_append (hdate _ _) (by simp) (List.forall_mem_append.mpr ⟨hclock _,
    List.forall_mem_append.mpr ⟨plain_fmtFrac _, plain_formatZone off⟩⟩)

end Workforce.Timestamps
