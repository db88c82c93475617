import Workforce.Handlers

/-!
Delays that double with every attempt.

The delay is a product in 64-bit arithmetic and is capped only afterwards. Up to the first product
that does not fit it is what it should be; that first product is negative, so it passes the cap as
it is.
-/

namespace Workforce.Backoff

open Contract Handlers Decimal

/-! ### Products that wrap -/

lemma le_wrap64 (n : ℤ) : -2 ^ 63 ≤ wrap64 n := by
  unfold wrap64
  omega

lemma wrap64_modEq (n : ℤ) : wrap64 n ≡ n [ZMOD 2 ^ 64] := by
  calc wrap64 n
      ≡ n + 2 ^ 63 - 2 ^ 63 [ZMOD 2 ^ 64] := (Int.mod_modEq _ _).sub_right (2 ^ 63)
    _ = n := add_sub_cancel_right n _

lemma wrap64_congr {m n : ℤ} (h : m ≡ n [ZMOD 2 ^ 64]) : wrap64 m = wrap64 n := by
  unfold wrap64
  rw [(h.add_right (2 ^ 63) : (m + 2 ^ 63) % 2 ^ 64 = (n + 2 ^ 63) % 2 ^ 64)]

lemma wrap64_neg {n : ℤ} (h : 2 ^ 63 ≤ n) (h' : n < 2 ^ 64) : wrap64 n < 0 := by
  unfold wrap64
  omega

lemma iterate_double {d : ℤ} (hd : IsInt64 d) (k : ℕ) :
    (fun d => wrap64 (d * 2))^[k] d = wrap64 (d * 2 ^ k) := by
  induction k with
  | zero => simp [wrap64_eq hd]
  | succ k ih =>
    rw [Function.iterate_succ_apply', ih]
    calc wrap64 (wrap64 (d * 2 ^ k) * 2)
        = wrap64 (d * 2 ^ k * 2) := wrap64_congr ((wrap64_modEq _).mul_right 2)
      _ = wrap64 (d * 2 ^ (k + 1)) := by rw [pow_succ, mul_assoc]

/-! ### Capped products -/

/-- The cap, which is applied last; zero is none. -/
def capped (cap delay : ℤ) : ℤ := if 0 < cap ∧ cap < delay then cap else delay

/-- The delay after `k` doublings is the product, capped; it is positive and the longest so far. -/
structure Right (base cap : ℤ) (delay : ℕ → ℤ) (k : ℕ) : Prop where
  eq_min : 0 < cap → delay k = min (base * 2 ^ k) cap
  pos : 0 < delay k
  le_cap : 0 < cap → delay k ≤ cap
  mono : ∀ j ≤ k, delay j ≤ delay k

variable {base cap : ℤ} {delay : ℕ → ℤ}

lemma double_le (hbase : 0 < base) {j k : ℕ} (h : j ≤ k) : base * 2 ^ j ≤ base * 2 ^ k :=
  mul_le_mul_of_nonneg_left (pow_le_pow_right₀ (by norm_num) h) hbase.le

lemma capped_eq_min (hcap : 0 < cap) (d : ℤ) : capped cap d = min d cap := by
  unfold capped
  split_ifs <;> omega

lemma capped_mono {d e : ℤ} (h : d ≤ e) : capped cap d ≤ capped cap e := by
  unfold capped
  split_ifs <;> omega

/-- Going up by doubling, a product that does not fit is preceded by one that is less than twice
too large. -/
lemma exists_first_wrap (hbase : 0 < base) (hfits : base < 2 ^ 63) {n : ℕ}
    (h : 2 ^ 63 ≤ base * 2 ^ n) : ∃ k ≤ n, 2 ^ 63 ≤ base * 2 ^ k ∧ base * 2 ^ k < 2 ^ 64 := by
  induction n with
  | zero => omega
  | succ n ih =>
    rcases le_or_gt (2 ^ 63) (base * 2 ^ n) with hn | hn
    · obtain ⟨k, hk, hwrap⟩ := ih hn
      exact ⟨k, hk.trans n.le_succ, hwrap⟩
    · refine ⟨n + 1, le_rfl, h, ?_⟩
      rw [pow_succ, ← mul_assoc]
      omega

/-- **Delays are right exactly up to the last product that fits.** -/
lemma right_upto_iff (hbase : 0 < base) (hfits : base < 2 ^ 63)
    (hdelay : ∀ k, base * 2 ^ k < 2 ^ 64 → delay k = capped cap (wrap64 (base * 2 ^ k))) (n : ℕ) :
    (∀ k ≤ n, Right base cap delay k) ↔ base * 2 ^ n < 2 ^ 63 := by
  constructor
  · intro hright
    by_contra hlarge
    obtain ⟨k, hk, hwrap, hsmall⟩ := exists_first_wrap hbase hfits (not_lt.mp hlarge)
    have hneg := wrap64_neg hwrap hsmall
    have hpos := (hright k hk).pos
    rw [hdelay k hsmall, capped, if_neg (by omega)] at hpos
    omega
  · intro hn k hk
    have heq (j : ℕ) (hj : j ≤ k) : delay j = capped cap (base * 2 ^ j) := by
      have hlt : base * 2 ^ j < 2 ^ 63 := (double_le hbase (hj.trans hk)).trans_lt hn
      have hpos : 0 < base * 2 ^ j := by positivity
      rw [hdelay j (by omega), wrap64_eq ⟨by omega, hlt⟩]
    have hpos : 0 < base * 2 ^ k := by positivity
    refine ⟨fun hc => ?_, ?_, fun hc => ?_, fun j hj => ?_⟩
    · rw [heq k le_rfl, capped_eq_min hc]
    · rw [heq k le_rfl, capped]
      split_ifs <;> omega
    · rw [heq k le_rfl, capped_eq_min hc]
      exact min_le_right _ _
    · rw [heq k le_rfl, heq j hj]
      exact capped_mono (double_le hbase hj)

/-! ### Retries of a job -/

lemma retryDelay_eq {p : RetryPolicy} (h : 0 < p.RetryDelay) (hfits : IsInt64 p.RetryDelay)
    (k : ℕ) :
    retryDelay p ((k + 1 : ℕ) : ℤ) = capped p.MaxRetryDelay (wrap64 (p.RetryDelay * 2 ^ k)) := by
  unfold retryDelay capped
  have hk : (((k + 1 : ℕ) : ℤ) - 1).toNat = k := by omega
  rw [if_neg h.ne', hk, iterate_double hfits]

/-- **The retry delays are the capped products exactly up to the last product that fits into 64
bits.** The next one is negative, whatever the cap. -/
theorem retryDelay_right_iff (p : RetryPolicy) (n : ℕ) (hdelay : 0 < p.RetryDelay)
    (hfits : IsInt64 p.RetryDelay) :
    (∀ attempt : ℕ, 1 ≤ attempt → attempt ≤ n + 1 →
      (0 < p.MaxRetryDelay →
        retryDelay p attempt = min (p.RetryDelay * 2 ^ (attempt - 1)) p.MaxRetryDelay) ∧
      0 < retryDelay p attempt ∧
      (0 < p.MaxRetryDelay → retryDelay p attempt ≤ p.MaxRetryDelay) ∧
      ∀ earlier : ℕ, 1 ≤ earlier → earlier ≤ attempt →
        retryDelay p earlier ≤ retryDelay p attempt) ↔
      p.RetryDelay * 2 ^ n < 2 ^ 63 := by
  rw [← right_upto_iff hdelay hfits.2 (fun k _ => retryDelay_eq hdelay hfits k) n]
  constructor
  · intro h k hk
    obtain ⟨heq, hpos, hle, hmono⟩ := h (k + 1) (by omega) (by omega)
    exact ⟨heq, hpos, hle, fun j hj => hmono (j + 1) (by omega) (by omega)⟩
  · intro h attempt h1 hn
    obtain ⟨k, rfl⟩ := Nat.exists_eq_add_of_le' h1
    obtain ⟨heq, hpos, hle, hmono⟩ := h k (by omega)
    refine ⟨heq, hpos, hle, fun earlier he hle' => ?_⟩
    obtain ⟨j, rfl⟩ := Nat.exists_eq_add_of_le' he
    exact hmono j (by omega)

def seconds : RetryPolicy :=
  { MaxAttempts := 40, RetryDelay := 1000000000, MaxRetryDelay := 60000000000 }

theorem seconds_right_ten_times :
    retryDelay seconds (10 : ℕ) = min (1000000000 * 2 ^ 9) 60000000000 :=
  ((retryDelay_right_iff seconds 9 (by decide) (by decide)).mpr (by decide) 10
    (by decide) (by decide)).1 (by decide)

/-- **The thirty-fifth delay of the policy is negative.** -/
theorem seconds_negative :
    retryDelay seconds 35 = -1266874889709551616 ∧
      retryDelay seconds 35 ≠ min (1000000000 * 2 ^ 34) 60000000000 := by
  have h : retryDelay seconds 35 = -1266874889709551616 := by
    have h := retryDelay_eq (p := seconds) (by decide) (by decide) 34
    exact h.trans (by decide)
  rw [h]
  exact ⟨rfl, by decide⟩

end Workforce.Backoff
