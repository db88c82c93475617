import Mathlib.Tactic

/-!
Integers in decimal, written and read, and integers of 64 bits.
-/

namespace Workforce.Decimal

/-- The number the digits stand for; `none` without digits or with anything else among them. -/
def parseNat (ds : List Char) : Option ℕ :=
  if ds ≠ [] ∧ ds.all Char.isDigit then some (Nat.ofDigitChars 10 ds 0) else none

def formatInt : ℤ → List Char
  | .ofNat n => Nat.toDigits 10 n
  | .negSucc n => '-' :: Nat.toDigits 10 (n + 1)

/-- A number that a 64-bit integer can hold. -/
def IsInt64 (n : ℤ) : Prop := -2 ^ 63 ≤ n ∧ n < 2 ^ 63

/-- A 64-bit signed value. -/
def wrap64 (n : ℤ) : ℤ := (n + 2 ^ 63) % 2 ^ 64 - 2 ^ 63

lemma wrap64_eq {n : ℤ} (h : IsInt64 n) : wrap64 n = n := by
  obtain ⟨h1, h2⟩ := h
  unfold wrap64
  omega

instance : DecidablePred IsInt64 := fun _ => inferInstanceAs (Decidable (_ ∧ _))

inductive ParseError
  | invalidSyntax | valueOutOfRange
  deriving DecidableEq

def signed : List Char → Option ℤ
  | '-' :: ds => (parseNat ds).map fun n => -(n : ℤ)
  | '+' :: ds => (parseNat ds).map fun n => (n : ℤ)
  | ds => (parseNat ds).map fun n => (n : ℤ)

/-- Read a 64-bit integer with an optional sign. -/
def parseInt (s : List Char) : Except ParseError ℤ :=
  match signed s with
  | none => .error .invalidSyntax
  | some n => if IsInt64 n then .ok n else .error .valueOutOfRange

lemma isDigit_toDigits (n : ℕ) : ∀ c ∈ Nat.toDigits 10 n, c.isDigit = true := fun _ hc =>
  Nat.isDigit_of_mem_toDigits (by decide) le_rfl hc

lemma parseNat_toDigits (n : ℕ) : parseNat (Nat.toDigits 10 n) = some n := by
  have hall : (Nat.toDigits 10 n).all Char.isDigit = true := List.all_eq_true.mpr (isDigit_toDigits n)
  rw [parseNat, if_pos ⟨Nat.toDigits_ne_nil, hall⟩, Nat.ofDigitChars_ten_toDigits]

lemma signed_of_isDigit {ds : List Char} (h : ∀ c ∈ ds, c.isDigit = true) :
    signed ds = (parseNat ds).map fun n => (n : ℤ) := by
  unfold signed
  split
  · exact absurd (h '-' List.mem_cons_self) (by decide)
  · exact absurd (h '+' List.mem_cons_self) (by decide)
  · rfl

lemma signed_formatInt (n : ℤ) : signed (formatInt n) = some n := by
  cases n with
  | ofNat n =>
    rw [formatInt, signed_of_isDigit (isDigit_toDigits n), parseNat_toDigits]
    rfl
  | negSucc n =>
    rw [formatInt, signed, parseNat_toDigits]
    rfl

/-- What is written is read back. -/
theorem parseInt_formatInt {n : ℤ} (h : IsInt64 n) : parseInt (formatInt n) = .ok n := by
  rw [parseInt, signed_formatInt]
  exact if_pos h

lemma isDigit_or_of_mem_formatInt {n : ℤ} {c : Char} (h : c ∈ formatInt n) :
    c = '-' ∨ c.isDigit = true := by
  cases n with
  | ofNat n => exact .inr (isDigit_toDigits n c h)
  | negSucc n => exact (List.mem_cons.mp h).imp_right (isDigit_toDigits _ c)

lemma formatInt_ne_nil (n : ℤ) : formatInt n ≠ [] := by
  cases n with
  | ofNat n => exact Nat.toDigits_ne_nil
  | negSucc n => exact List.cons_ne_nil _ _

end Workforce.Decimal
