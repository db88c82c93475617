import Mathlib.Tactic

/-!
Base64 with padding, as it stands in texts: the reader skips line breaks and does not ask the
unused bits of the last character to be zero.
-/

namespace Workforce.Base64

abbrev Bytes := List UInt8

/-! ### The alphabet -/

def alphabet : List Char :=
  "ABCDEFGHIJKLMNOPQRSTUVWXYZabcdefghijklmnopqrstuvwxyz0123456789+/".toList

def digit (n : ℕ) : Char := alphabet.getD n 'A'

/-- The six bits a character stands for. -/
def sextet (c : Char) : Option ℕ := alphabet.idxOf? c

lemma digit_mem {n : ℕ} (h : n < 64) : digit n ∈ alphabet := by
  have hall : ∀ k : Fin 64, digit k ∈ alphabet := by decide +kernel
  exact hall ⟨n, h⟩

lemma sextet_digit {n : ℕ} (h : n < 64) : sextet (digit n) = some n := by
  have hall : ∀ k : Fin 64, sextet (digit k) = some k.1 := by decide +kernel
  exact hall ⟨n, h⟩

lemma digit_ne_pad {n : ℕ} (h : n < 64) : digit n ≠ '=' := by
  intro heq
  have hmem := digit_mem h
  rw [heq] at hmem
  exact absurd hmem (by decide)

/-! ### Writing -/

def encode : Bytes → List Char
  | [] => []
  | [a] => [digit (a.toNat / 4), digit (a.toNat % 4 * 16), '=', '=']
  | [a, b] =>
    [digit (a.toNat / 4), digit (a.toNat % 4 * 16 + b.toNat / 16), digit (b.toNat % 16 * 4), '=']
  | a :: b :: c :: bs =>
    digit (a.toNat / 4) :: digit (a.toNat % 4 * 16 + b.toNat / 16) ::
      digit (b.toNat % 16 * 4 + c.toNat / 64) :: digit (c.toNat % 64) :: encode bs

/-! ### Reading -/

def first (x y : ℕ) : UInt8 := .ofNat (x * 4 + y / 16)
def second (y z : ℕ) : UInt8 := .ofNat (y % 16 * 16 + z / 4)
def third (z w : ℕ) : UInt8 := .ofNat (z % 4 * 64 + w)

/-- The bytes of groups of four characters; only the last may be padded. -/
def groups : List Char → Option Bytes
  | [] => some []
  | a :: b :: c :: d :: cs =>
    if c = '=' ∧ d = '=' ∧ cs = [] then do
      return [first (← sextet a) (← sextet b)]
    else if d = '=' ∧ cs = [] then do
      let y ← sextet b
      return [first (← sextet a) y, second y (← sextet c)]
    else do
      let y ← sextet b
      let z ← sextet c
      return first (← sextet a) y :: second y z :: third z (← sextet d) :: (← groups cs)
  | _ => none

def decode (cs : List Char) : Option Bytes :=
  groups (cs.filter fun c => c ≠ '\r' ∧ c ≠ '\n')

/-! ### Round trip -/

lemma eq_first (a b : UInt8) : first (a.toNat / 4) (a.toNat % 4 * 16 + b.toNat / 16) = a := by
  have hb := b.toNat_lt
  have hsum : a.toNat / 4 * 4 + (a.toNat % 4 * 16 + b.toNat / 16) / 16 = a.toNat := by omega
  rw [first, hsum, UInt8.ofNat_toNat]

lemma eq_second (x : ℕ) (b c : UInt8) :
    second (x * 16 + b.toNat / 16) (b.toNat % 16 * 4 + c.toNat / 64) = b := by
  have hb := b.toNat_lt
  have hc := c.toNat_lt
  have hsum : (x * 16 + b.toNat / 16) % 16 * 16 + (b.toNat % 16 * 4 + c.toNat / 64) / 4 =
      b.toNat := by omega
  rw [second, hsum, UInt8.ofNat_toNat]

lemma eq_third (x : ℕ) (c : UInt8) : third (x * 4 + c.toNat / 64) (c.toNat % 64) = c := by
  have hc := c.toNat_lt
  have hsum : (x * 4 + c.toNat / 64) % 4 * 64 + c.toNat % 64 = c.toNat := by omega
  rw [third, hsum, UInt8.ofNat_toNat]

lemma groups_encode (bs : Bytes) : groups (encode bs) = some bs := by
  fun_induction encode bs with
  | case1 => rfl
  | case2 a =>
    have ha := a.toNat_lt
    have hfirst := eq_first a 0
    simp only [UInt8.toNat_zero, Nat.zero_div, Nat.add_zero] at hfirst
    simp [groups, sextet_digit (show a.toNat / 4 < 64 by omega),
      sextet_digit (show a.toNat % 4 * 16 < 64 by omega), hfirst]
  | case3 a b =>
    have ha := a.toNat_lt
    have hb := b.toNat_lt
    have hsecond := eq_second (a.toNat % 4) b 0
    simp only [UInt8.toNat_zero, Nat.zero_div, Nat.add_zero] at hsecond
    simp [groups, sextet_digit (show a.toNat / 4 < 64 by omega),
      sextet_digit (show a.toNat % 4 * 16 + b.toNat / 16 < 64 by omega),
      sextet_digit (show b.toNat % 16 * 4 < 64 by omega),
      digit_ne_pad (show b.toNat % 16 * 4 < 64 by omega), eq_first, hsecond]
  | case4 a b c bs ih =>
    have ha := a.toNat_lt
    have hb := b.toNat_lt
    have hc := c.toNat_lt
    simp [groups, sextet_digit (show a.toNat / 4 < 64 by omega),
      sextet_digit (show a.toNat % 4 * 16 + b.toNat / 16 < 64 by omega),
      sextet_digit (show b.toNat % 16 * 4 + c.toNat / 64 < 64 by omega),
      sextet_digit (show c.toNat % 64 < 64 by omega),
      digit_ne_pad (show c.toNat % 64 < 64 by omega), eq_first, eq_second, eq_third, ih]

lemma mem_encode {bs : Bytes} {c : Char} (h : c ∈ encode bs) : c ∈ '=' :: alphabet := by
  have hdigit {n : ℕ} (hn : n < 64) : digit n ∈ '=' :: alphabet :=
    List.mem_cons_of_mem _ (digit_mem hn)
  fun_induction encode bs with
  | case1 => cases h
  | case2 a =>
    have ha := a.toNat_lt
    simp only [List.mem_cons, List.not_mem_nil, or_false] at h
    rcases h with rfl | rfl | rfl | rfl
    · exact hdigit (by omega)
    · exact hdigit (by omega)
    · exact List.mem_cons_self
    · exact List.mem_cons_self
  | case3 a b =>
    have ha := a.toNat_lt
    have hb := b.toNat_lt
    simp only [List.mem_cons, List.not_mem_nil, or_false] at h
    rcases h with rfl | rfl | rfl | rfl
    · exact hdigit (by omega)
    · exact hdigit (by omega)
    · exact hdigit (by omega)
    · exact List.mem_cons_self
  | case4 a b c bs ih =>
    have ha := a.toNat_lt
    have hb := b.toNat_lt
    have hc := c.toNat_lt
    rcases List.mem_cons.mp h with rfl | h
    · exact hdigit (by omega)
    rcases List.mem_cons.mp h with rfl | h
    · exact hdigit (by omega)
    rcases List.mem_cons.mp h with rfl | h
    · exact hdigit (by omega)
    rcases List.mem_cons.mp h with rfl | h
    · exact hdigit (by omega)
    · exact ih h

/-- **Round trip.** -/
theorem decode_encode (bs : Bytes) : decode (encode bs) = some bs := by
  have hfilter : (encode bs).filter (fun c => c ≠ '\r' ∧ c ≠ '\n') = encode bs := by
    refine List.filter_eq_self.mpr fun c hc => ?_
    have hbreak : ∀ c ∈ '=' :: alphabet, decide (c ≠ '\r' ∧ c ≠ '\n') = true :=
      List.forall_iff_forall_mem.mp (by decide +kernel)
    exact hbreak c (mem_encode hc)
  rw [decode, hfilter, groups_encode]

lemma length_groups {cs : List Char} {bs : Bytes} (h : groups cs = some bs) :
    bs.length ≤ cs.length := by
  fun_induction groups cs generalizing bs with
  | case1 =>
    cases h
    exact le_rfl
  | case2 a b c d cs hpad =>
    obtain ⟨x, -, h⟩ := Option.bind_eq_some_iff.mp h
    obtain ⟨y, -, h⟩ := Option.bind_eq_some_iff.mp h
    cases h
    simp
  | case3 a b c d cs hpad hpad' =>
    obtain ⟨x, -, h⟩ := Option.bind_eq_some_iff.mp h
    obtain ⟨y, -, h⟩ := Option.bind_eq_some_iff.mp h
    obtain ⟨z, -, h⟩ := Option.bind_eq_some_iff.mp h
    cases h
    simp
  | case4 a b c d cs hpad hpad' ih =>
    obtain ⟨x, -, h⟩ := Option.bind_eq_some_iff.mp h
    obtain ⟨y, -, h⟩ := Option.bind_eq_some_iff.mp h
    obtain ⟨z, -, h⟩ := Option.bind_eq_some_iff.mp h
    obtain ⟨w, -, h⟩ := Option.bind_eq_some_iff.mp h
    obtain ⟨rest, hrest, h⟩ := Option.bind_eq_some_iff.mp h
    cases h
    have := ih hrest
    simp only [List.length_cons]
    omega
  | case5 => cases h

/-- Reading makes a text shorter, not longer. -/
theorem length_decode {cs : List Char} {bs : Bytes} (h : decode cs = some bs) :
    bs.length ≤ cs.length :=
  (length_groups h).trans (List.length_filter_le _ _)

end Workforce.Base64
