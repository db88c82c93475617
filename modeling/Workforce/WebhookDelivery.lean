import Workforce.Backoff
import Workforce.FSStore

/-!
The delivery of webhooks.

A failed delivery is tried again after a delay that doubles every time. The delay is a float that is
converted to a 64-bit duration and multiplied by a second; the cap comes last. After thirty-four
failures the product does not fit any more.
-/

namespace Workforce.WebhookDelivery

open Tables Contract Runs Handlers Decimal FSStore Backoff

def second : Duration := 1000000000

/-- The conversion of a float to a 64-bit integer. What a value that does not fit becomes depends on
the machine. -/
structure Conversion where
  toInt64 : ℤ → ℤ
  toInt64_eq : ∀ n, IsInt64 n → toInt64 n = n

structure WebhookDispatcherConfig where
  WebhookMaxBackoff : Duration := 0
  /-- Zero is no limit. -/
  MaxWebhookAttempts : ℤ := 0

def NewWebhookDispatcher (cfg : WebhookDispatcherConfig) : WebhookDispatcherConfig :=
  if cfg.WebhookMaxBackoff ≤ 0 then { cfg with WebhookMaxBackoff := 5 * 60 * second } else cfg

variable (cfg : WebhookDispatcherConfig) (conv : Conversion)

/-- The delay of an attempt: a power of two of seconds, cut off at the maximum. -/
def backoff (attempts : ℤ) : Duration :=
  -- a power with a negative exponent is converted to zero
  let power := if attempts < 1 then 0 else conv.toInt64 (2 ^ (attempts - 1).toNat)
  let backoff := wrap64 (power * second)
  if cfg.WebhookMaxBackoff < backoff then cfg.WebhookMaxBackoff else backoff

/-- The delivery of an entry has been given up. -/
def Exhausted (e : WebhookEntry) : Prop :=
  0 < cfg.MaxWebhookAttempts ∧ cfg.MaxWebhookAttempts ≤ wrap64 (e.Attempts + 1)

instance (e : WebhookEntry) : Decidable (Exhausted cfg e) := by
  unfold Exhausted
  infer_instance

/-- Count the attempt and set the time of the next one, which is returned; it is zero when there is
none. -/
def scheduleRetry (e : WebhookEntry) (now : Time) (webhooks : Webhooks) : Time × Webhooks :=
  if Exhausted cfg e then (0, webhooks.erase e.ID)
  else
    let attempts := wrap64 (e.Attempts + 1)
    let next := now + backoff cfg conv attempts
    (next, webhooks.modify e.ID (nacked attempts next))

variable {cfg conv}

lemma maxBackoff_pos (cfg : WebhookDispatcherConfig) :
    0 < (NewWebhookDispatcher cfg).WebhookMaxBackoff := by
  unfold NewWebhookDispatcher second
  split_ifs with h
  · norm_num
  · exact not_le.mp h

/-! ### Runs of failures -/

/-- The delivery of the entry fails, at this time, and is put off by this delay. -/
def Fails (cfg : WebhookDispatcherConfig) (conv : Conversion) (id : String) (s : Webhooks)
    (l : Time × Duration) (t : Webhooks) : Prop :=
  ∃ e, s.get id = some e ∧ ¬Exhausted cfg e ∧ scheduleRetry cfg conv e l.1 s = (l.1 + l.2, t)

variable {id : String} {s t : Webhooks} {tr : List (Webhooks × Time × Duration)}

lemma nacked_ID (attempts : ℤ) (next : Time) (e : WebhookEntry) :
    (nacked attempts next e).ID = e.ID := rfl

lemma fails_iff {l : Time × Duration} : Fails cfg conv id s l t ↔
    ∃ e, s.get id = some e ∧ ¬Exhausted cfg e ∧ l.2 = backoff cfg conv (wrap64 (e.Attempts + 1)) ∧
      t = s.modify id (nacked (wrap64 (e.Attempts + 1)) (l.1 + l.2)) := by
  refine exists_congr fun e => and_congr_right fun he => and_congr_right fun hopen => ?_
  obtain rfl : e.ID = id := key_of_get he
  unfold scheduleRetry
  rw [if_neg hopen, Prod.mk.injEq, add_right_inj]
  constructor
  · rintro ⟨hdelay, rfl⟩
    exact ⟨hdelay.symm, by rw [hdelay]⟩
  · rintro ⟨hdelay, rfl⟩
    exact ⟨hdelay.symm, by rw [hdelay]⟩

def delays (tr : List (Webhooks × Time × Duration)) : List Duration := tr.map fun p => p.2.2

/-- The attempts are counted one by one, so the delays of a run are those of the attempts in
turn. -/
lemma delays_of_run {a : ℕ} {e : WebhookEntry} (he : s.get id = some e) (ha : e.Attempts = a)
    (h : Run (Fails cfg conv id) s tr t) (k : ℕ) (hk : k < tr.length) (hfits : a + k + 1 < 2 ^ 63) :
    (delays tr)[k]? = some (backoff cfg conv ((a + k + 1 : ℕ) : ℤ)) := by
  induction h generalizing a e k with
  | nil _ => exact absurd hk (Nat.not_lt_zero k)
  | @cons s u t l tr hstep hrun ih =>
    obtain ⟨e', he', -, hdelay, hu⟩ := fails_iff.mp hstep
    rw [he, Option.some.injEq] at he'
    subst he'
    have hcount : wrap64 (e.Attempts + 1) = ((a + 1 : ℕ) : ℤ) := by
      rw [ha, wrap64_eq ⟨by omega, by omega⟩]
      rfl
    rw [hcount] at hdelay hu
    cases k with
    | zero => exact congrArg some hdelay
    | succ k =>
      have hget : u.get id = some (nacked ((a + 1 : ℕ) : ℤ) (l.1 + l.2) e) := by
        rw [hu, get_modify _ _ _ (nacked_ID _ _), if_pos rfl, he]
        rfl
      have hrest := ih hget rfl k (Nat.lt_of_succ_lt_succ hk) (by omega)
      rw [show a + (k + 1) + 1 = a + 1 + k + 1 by omega]
      exact hrest

lemma backoff_eq (hcap : 0 < cfg.WebhookMaxBackoff) (k : ℕ) (h : second * 2 ^ k < 2 ^ 64) :
    backoff cfg conv ((k + 1 : ℕ) : ℤ) =
      capped cfg.WebhookMaxBackoff (wrap64 (second * 2 ^ k)) := by
  have hk : (((k + 1 : ℕ) : ℤ) - 1).toNat = k := by omega
  have hpos : (0 : ℤ) < 2 ^ k := by positivity
  have hpower : conv.toInt64 (2 ^ k) = 2 ^ k := by
    have h' : (1000000000 : ℤ) * 2 ^ k < 2 ^ 64 := h
    exact conv.toInt64_eq _ ⟨by omega, by omega⟩
  have hone : ¬((k + 1 : ℕ) : ℤ) < 1 := by omega
  unfold backoff capped
  simp only [hone, if_false, hk, hpower, hcap, true_and, mul_comm]

/-- An entry without a limit can fail at any times. -/
lemma exists_run_of_unlimited (hmax : cfg.MaxWebhookAttempts = 0) {e : WebhookEntry}
    (he : s.get id = some e) (times : List Time) :
    ∃ tr t, Run (Fails cfg conv id) s tr t ∧ tr.map (fun p => p.2.1) = times := by
  induction times generalizing s e with
  | nil => exact ⟨[], s, .nil s, rfl⟩
  | cons now times ih =>
    have hopen : ¬Exhausted cfg e := fun h => absurd h.1 (by omega)
    let attempts := wrap64 (e.Attempts + 1)
    let delay := backoff cfg conv attempts
    have hget : (s.modify id (nacked attempts (now + delay))).get id =
        some (nacked attempts (now + delay) e) := by
      rw [get_modify _ _ _ (nacked_ID _ _), if_pos rfl, he]
      rfl
    obtain ⟨tr, t, hrun, htimes⟩ := ih hget
    refine ⟨(s, now, delay) :: tr, t, .cons (fails_iff.mpr ⟨e, he, hopen, rfl, rfl⟩) hrun, ?_⟩
    rw [List.map_cons, htimes]

/-- **The delays of failed deliveries are right exactly as long as there are no more than
thirty-four.** Without a limit on the attempts there can be any number. -/
theorem delays_right_iff (cfg : WebhookDispatcherConfig) (conv : Conversion) (s : Webhooks)
    (e : WebhookEntry) (he : s.get e.ID = some e) (hnew : e.Attempts = 0) :
    (cfg.MaxWebhookAttempts = 0 → ∀ times : List Time, ∃ tr t,
      Run (Fails (NewWebhookDispatcher cfg) conv e.ID) s tr t ∧ tr.map (fun p => p.2.1) = times) ∧
    ∀ tr t, Run (Fails (NewWebhookDispatcher cfg) conv e.ID) s tr t →
      ((∀ n delay, (delays tr)[n]? = some delay →
        delay = min (2 ^ n * second) (NewWebhookDispatcher cfg).WebhookMaxBackoff ∧
        0 < delay ∧ delay ≤ (NewWebhookDispatcher cfg).WebhookMaxBackoff ∧
        ∀ m earlier, m ≤ n → (delays tr)[m]? = some earlier → earlier ≤ delay) ↔
      tr.length ≤ 34) := by
  have hcap := maxBackoff_pos cfg
  refine ⟨fun hmax times => exists_run_of_unlimited ?_ he times, fun tr t h => ?_⟩
  · unfold NewWebhookDispatcher
    split_ifs <;> exact hmax
  have hget (k : ℕ) (hk : k < tr.length) (hk' : k < 35) : (delays tr)[k]? =
      some (backoff (NewWebhookDispatcher cfg) conv ((k + 1 : ℕ) : ℤ)) := by
    have := delays_of_run he (a := 0) hnew h k hk (by omega)
    rwa [Nat.zero_add] at this
  have hright (n : ℕ) : (∀ k ≤ n, Right second (NewWebhookDispatcher cfg).WebhookMaxBackoff
      (fun k => backoff (NewWebhookDispatcher cfg) conv ((k + 1 : ℕ) : ℤ)) k) ↔
        second * 2 ^ n < 2 ^ 63 :=
    right_upto_iff (by decide) (by decide) (backoff_eq hcap) n
  constructor
  · intro hall
    by_contra hlong
    refine absurd ((hright 34).mp fun k hk => ?_) (by decide)
    obtain ⟨heq, hpos, hle, hmono⟩ := hall k _ (hget k (by omega) (by omega))
    refine ⟨fun _ => by rw [heq, mul_comm], hpos, fun _ => hle, fun j hj => ?_⟩
    exact hmono j _ hj (hget j (by omega) (by omega))
  · intro hlen n delay hn
    have hlt : n < tr.length := by
      have := (List.getElem?_eq_some_iff.mp hn).1
      rwa [delays, List.length_map] at this
    have hr := (hright 33).mpr (by decide) n (by omega)
    rw [hget n hlt (by omega), Option.some.injEq] at hn
    subst hn
    refine ⟨by rw [mul_comm]; exact hr.eq_min hcap, hr.pos, hr.le_cap hcap,
      fun m earlier hm hearlier => ?_⟩
    rw [hget m (by omega) (by omega), Option.some.injEq] at hearlier
    subst hearlier
    exact hr.mono m hm

/-- A conversion that gives the smallest integer for what does not fit. -/
def smallest : Conversion where
  toInt64 n := if IsInt64 n then n else -2 ^ 63
  toInt64_eq _ h := if_pos h

def undelivered : Webhooks := (Table.empty _).put { ID := "w" }

theorem two_failures_right :
    ∃ tr t, Run (Fails (NewWebhookDispatcher {}) smallest "w") undelivered tr t ∧
      tr.length = 2 ∧ ∀ n delay, (delays tr)[n]? = some delay →
        delay = min (2 ^ n * second) (5 * 60 * second) := by
  have h := delays_right_iff {} smallest undelivered { ID := "w" } (by decide) rfl
  obtain ⟨tr, t, hrun, htimes⟩ := h.1 rfl [0, 1]
  have hlen : tr.length = 2 := by rw [← List.length_map, htimes]; rfl
  exact ⟨tr, t, hrun, hlen, fun n delay hn => ((h.2 tr t hrun).mpr (by omega) n delay hn).1⟩

/-- **The thirty-fifth delay lies forty years in the past.** -/
theorem thirty_fifth_delay_negative :
    ∃ tr t, Run (Fails (NewWebhookDispatcher {}) smallest "w") undelivered tr t ∧
      (delays tr)[34]? = some (-1266874889709551616) := by
  have hentry : undelivered.get "w" = some { ID := "w" } := by decide
  obtain ⟨tr, t, hrun, htimes⟩ : ∃ tr t,
      Run (Fails (NewWebhookDispatcher {}) smallest "w") undelivered tr t ∧
        tr.map (fun p => p.2.1) = List.replicate 35 0 :=
    exists_run_of_unlimited rfl hentry _
  have hlen : tr.length = 35 := by
    rw [← List.length_map, htimes, List.length_replicate]
  have hdelay := delays_of_run (a := 0) hentry rfl hrun 34 (by omega) (by decide)
  exact ⟨tr, t, hrun, hdelay.trans (by decide)⟩

end Workforce.WebhookDelivery
