import Workforce.WebhookDelivery

/-!
How long the delivery loop sleeps.

A round takes the entries that are due, and sleeps until the earliest retry it has scheduled, or for
an hour if it has scheduled none. Entries that an earlier round has put off are not looked at: the
round may sleep past them.
-/

namespace Workforce.WebhookTimer

open Tables Contract Runs Handlers FSStore Backoff WebhookDelivery Decimal

def hour : Duration := 3600 * second

/-- The start of the Unix clock, counted from the zero time. -/
def unixEpoch : Time := 62135596800 * second

/-- An entry taken by a round and, if its delivery fails, the time at which it is put off. -/
abbrev Attempt := WebhookEntry × Option Time

/-- The earlier of two times, the second of which may be zero for none. -/
def earlier (nextWake next : Time) : Time :=
  if next ≠ 0 ∧ (nextWake = 0 ∨ next < nextWake) then next else nextWake

section Round

variable (cfg : WebhookDispatcherConfig) (conv : Conversion)

def attempt (x : Webhooks × Time) (a : Attempt) : Webhooks × Time :=
  match a.2 with
  | none => (x.1.erase a.1.ID, x.2)
  | some now =>
    let (next, webhooks) := scheduleRetry cfg conv a.1 now x.1
    (webhooks, earlier x.2 next)

/-- The sleep that a round returns, and what it leaves in the store. -/
def processPending (attempts : List Attempt) (finished : Time) (webhooks : Webhooks) :
    Duration × Webhooks :=
  let (webhooks, nextWake) := attempts.foldl (attempt cfg conv) (webhooks, 0)
  let delay := nextWake - finished
  (if nextWake = 0 then hour else if delay < 0 then 0 else delay, webhooks)

/-- The entries are the ones that are due when the round starts, in some order, and the clock goes
on until it has finished. -/
structure Round (webhooks : Webhooks) (started : Time) (attempts : List Attempt)
    (finished : Time) : Prop where
  clock : unixEpoch ≤ started
  due : (attempts.map Prod.fst).Perm
    (webhooks.values.filter fun e => e.NextAttemptAt ≤ started)
  times : ∀ a ∈ attempts, ∀ now ∈ a.2, started ≤ now ∧ now ≤ finished
  order : started ≤ finished

/-- The time an attempt is put off to. -/
def retryAt (a : Attempt) : Option Time :=
  a.2.bind fun now =>
    if Exhausted cfg a.1 then none else some (now + backoff cfg conv (wrap64 (a.1.Attempts + 1)))

/-- Every entry that is not due when the round starts is further off than any sleep is long, or
one of the deliveries fails, not for the last time, long enough before the entry is due. -/
def Awaits (webhooks : Webhooks) (started : Time) (attempts : List Attempt) (finished : Time) :
    Prop :=
  ∀ e ∈ webhooks.values, started < e.NextAttemptAt →
    finished + max hour cfg.WebhookMaxBackoff ≤ e.NextAttemptAt ∨
      ∃ a ∈ attempts, ∃ now ∈ a.2, ¬Exhausted cfg a.1 ∧
        now + cfg.WebhookMaxBackoff ≤ e.NextAttemptAt

end Round

variable {cfg : WebhookDispatcherConfig} {conv : Conversion} {attempts : List Attempt}
  {webhooks : Webhooks} {started finished : Time} {x : Webhooks × Time}

/-! ### What a round does to the store -/

/-- One attempt changes its own entry only: it is removed or put off. -/
lemma get_attempt (a : Attempt) (id : String) :
    (attempt cfg conv x a).1.get id = if id = a.1.ID then (retryAt cfg conv a).bind fun next =>
      (x.1.get id).map (nacked (wrap64 (a.1.Attempts + 1)) next) else x.1.get id := by
  unfold attempt retryAt scheduleRetry
  rcases a with ⟨e, _ | now⟩
  · exact get_erase _ _ _
  · by_cases hex : Exhausted cfg e
    · simp only [hex, if_true, Option.bind_some]
      exact get_erase _ _ _
    · simp only [hex, if_false, Option.bind_some]
      rw [get_modify _ _ _ (nacked_ID _ _)]
      split_ifs with hid
      · rw [hid]
      · rfl

lemma wake_attempt (a : Attempt) :
    (attempt cfg conv x a).2 = (retryAt cfg conv a).elim x.2 (earlier x.2) := by
  unfold attempt retryAt scheduleRetry
  rcases a with ⟨e, _ | now⟩
  · rfl
  · by_cases hex : Exhausted cfg e <;> simp [hex, earlier]

/-- What is in the store after the round was not taken, or has been put off. -/
lemma get_foldl_cases {id : String} {e : WebhookEntry}
    (h : (attempts.foldl (attempt cfg conv) x).1.get id = some e) :
    (x.1.get id = some e ∧ ∀ a ∈ attempts, a.1.ID ≠ id) ∨
      ∃ a ∈ attempts, retryAt cfg conv a = some e.NextAttemptAt := by
  induction attempts generalizing x with
  | nil => exact .inl ⟨h, fun _ ha => nomatch ha⟩
  | cons a rest ih =>
    rcases ih h with ⟨hget, hrest⟩ | ⟨b, hb, hnext⟩
    · rw [get_attempt] at hget
      split_ifs at hget with hid
      · -- the entry of this attempt, which is still there only if it was put off
        obtain ⟨next, hnext, hput⟩ := Option.bind_eq_some_iff.mp hget
        obtain ⟨old, -, rfl⟩ := Option.map_eq_some_iff.mp hput
        exact .inr ⟨a, List.mem_cons_self, hnext⟩
      · exact .inl ⟨hget, List.forall_mem_cons.mpr ⟨Ne.symm hid, hrest⟩⟩
    · exact .inr ⟨b, List.mem_cons_of_mem a hb, hnext⟩

/-! ### When the loop wakes -/

def retries (cfg : WebhookDispatcherConfig) (conv : Conversion) (attempts : List Attempt) :
    List Time := attempts.filterMap (retryAt cfg conv)

lemma wake_foldl : (attempts.foldl (attempt cfg conv) x).2 =
    (retries cfg conv attempts).foldl earlier x.2 := by
  induction attempts generalizing x with
  | nil => rfl
  | cons a rest ih =>
    rw [List.foldl_cons, ih, wake_attempt, retries, retries, List.filterMap_cons]
    cases retryAt cfg conv a <;> rfl

/-- Among times that are not zero, the fold finds the earliest. -/
lemma foldl_earlier {l : List Time} (hl : ∀ w ∈ l, w ≠ 0) (wake : Time) :
    (l.foldl earlier wake = 0 ↔ wake = 0 ∧ l = []) ∧
    (l.foldl earlier wake ≠ 0 → l.foldl earlier wake = wake ∨ l.foldl earlier wake ∈ l) ∧
    (wake ≠ 0 → l.foldl earlier wake ≤ wake) ∧ ∀ w ∈ l, l.foldl earlier wake ≤ w := by
  induction l generalizing wake with
  | nil => simp
  | cons next l ih =>
    obtain ⟨hnext, hl⟩ := List.forall_mem_cons.mp hl
    have hfirst : earlier wake next ≠ 0 ∧ (earlier wake next = wake ∨ earlier wake next = next) ∧
        earlier wake next ≤ next ∧ (wake ≠ 0 → earlier wake next ≤ wake) := by
      unfold earlier
      split_ifs with h
      · exact ⟨hnext, .inr rfl, le_rfl, fun hw => (h.2.resolve_left hw).le⟩
      · rw [not_and, not_or, not_lt] at h
        exact ⟨(h hnext).1, .inl rfl, (h hnext).2, fun _ => le_rfl⟩
    obtain ⟨hne, hor, hle, hle'⟩ := hfirst
    obtain ⟨hzero, hmem, hleft, hright⟩ := ih hl (earlier wake next)
    rw [List.foldl_cons]
    refine ⟨?_, fun h => ?_, fun hw => (hleft hne).trans (hle' hw),
      List.forall_mem_cons.mpr ⟨(hleft hne).trans hle, hright⟩⟩
    · simp [hzero, hne]
    · rcases hmem h with heq | hmem
      · rw [heq]
        exact hor.imp_right fun h => by rw [h]; exact List.mem_cons_self
      · exact .inr (List.mem_cons_of_mem _ hmem)

lemma backoff_le (attempts : ℤ) : backoff cfg conv attempts ≤ cfg.WebhookMaxBackoff := by
  unfold backoff
  dsimp only
  generalize wrap64 _ = delay
  split_ifs with h
  · exact le_rfl
  · exact not_lt.mp h

lemma le_backoff (hcap : 0 < cfg.WebhookMaxBackoff) (attempts : ℤ) :
    -2 ^ 63 ≤ backoff cfg conv attempts := by
  unfold backoff
  dsimp only
  generalize (if attempts < 1 then 0 else _) * second = product
  split_ifs
  · linarith
  · exact le_wrap64 product

lemma mem_retries {next : Time} :
    next ∈ retries cfg conv attempts ↔ ∃ a ∈ attempts, retryAt cfg conv a = some next :=
  List.mem_filterMap

/-- With a clock of today a retry is never scheduled at the zero time. -/
lemma retries_ne_zero (hcap : 0 < cfg.WebhookMaxBackoff)
    (h : Round webhooks started attempts finished) : ∀ w ∈ retries cfg conv attempts, w ≠ 0 := by
  rintro w hw rfl
  obtain ⟨a, ha, hnext⟩ := mem_retries.mp hw
  obtain ⟨now, hnow, hnext⟩ := Option.bind_eq_some_iff.mp hnext
  split_ifs at hnext with hex
  rw [Option.some.injEq] at hnext
  have hclock : 2 ^ 63 < started := lt_of_lt_of_le (by decide) h.clock
  have hlow := @le_backoff cfg conv hcap (wrap64 (a.1.Attempts + 1))
  have hstart := (h.times a ha now hnow).1
  linarith

/-- The round sleeps for an hour, or until the earliest of its retries. -/
lemma sleep_cases (hcap : 0 < cfg.WebhookMaxBackoff)
    (h : Round webhooks started attempts finished) :
    (retries cfg conv attempts = [] ∧ (processPending cfg conv attempts finished webhooks).1 = hour) ∨
      ∃ wake ∈ retries cfg conv attempts, (∀ w ∈ retries cfg conv attempts, wake ≤ w) ∧
        finished + (processPending cfg conv attempts finished webhooks).1 = max finished wake := by
  obtain ⟨hzero, hmem, -, hle⟩ := foldl_earlier (@retries_ne_zero cfg conv _ _ _ _ hcap h) 0
  unfold processPending
  dsimp only
  rw [wake_foldl]
  dsimp only
  by_cases hw : (retries cfg conv attempts).foldl earlier 0 = 0
  · exact .inl ⟨(hzero.mp hw).2, if_pos hw⟩
  · refine .inr ⟨_, (hmem hw).resolve_left hw, hle, ?_⟩
    split_ifs with hpast
    · rw [add_zero, max_eq_left (by linarith)]
    · rw [add_sub_cancel, max_eq_right (by linarith)]

/-- The alarm is set no later than any entry in the store is due, or rings at once. -/
def NoneLate (webhooks : Webhooks) (now alarm : Time) : Prop :=
  ∀ e ∈ webhooks.values, alarm ≤ max now e.NextAttemptAt

/-- Every retry comes within the longest delay after the round. -/
lemma retries_le (h : Round webhooks started attempts finished) :
    ∀ w ∈ retries cfg conv attempts, w ≤ finished + cfg.WebhookMaxBackoff := by
  intro w hw
  obtain ⟨a, ha, hnext⟩ := mem_retries.mp hw
  obtain ⟨now, hnow, hnext⟩ := Option.bind_eq_some_iff.mp hnext
  split_ifs at hnext
  cases hnext
  have hdelay := @backoff_le cfg conv (wrap64 (a.1.Attempts + 1))
  have htime := (h.times a ha now hnow).2
  linarith

/-- The alarm rings no later than any retry of the round. -/
lemma alarm_le_retry (hcap : 0 < cfg.WebhookMaxBackoff)
    (h : Round webhooks started attempts finished) {next : Time}
    (hnext : next ∈ retries cfg conv attempts) :
    finished + (processPending cfg conv attempts finished webhooks).1 ≤ max finished next := by
  rcases @sleep_cases cfg conv _ _ _ _ hcap h with ⟨hnone, -⟩ | ⟨wake, -, hleast, hsleep⟩
  · rw [hnone] at hnext
    cases hnext
  · rw [hsleep]
    exact max_le_max_left _ (hleast next hnext)

/-- **One round** does not sleep past anything if it awaits what is not due. -/
lemma noneLate_of_awaits (hcap : 0 < cfg.WebhookMaxBackoff)
    (h : Round webhooks started attempts finished)
    (hawaits : Awaits cfg webhooks started attempts finished) :
    NoneLate (processPending cfg conv attempts finished webhooks).2 finished
      (finished + (processPending cfg conv attempts finished webhooks).1) := by
  intro e he
  rw [mem_values] at he
  rcases get_foldl_cases he with ⟨hold, hother⟩ | ⟨a, ha, hnext⟩
  · have hmem : e ∈ webhooks.values := mem_values.mpr hold
    have hwaits : started < e.NextAttemptAt := by
      by_contra hdue
      have htaken : e ∈ webhooks.values.filter fun e => e.NextAttemptAt ≤ started :=
        List.mem_filter.mpr ⟨hmem, decide_eq_true (not_lt.mp hdue)⟩
      obtain ⟨a, ha, rfl⟩ := List.mem_map.mp (h.due.mem_iff.mpr htaken)
      exact hother a ha rfl
    rcases hawaits e hmem hwaits with hfar | ⟨a, ha, now, hnow, hex, hsoon⟩
    · have hhour := le_max_left hour cfg.WebhookMaxBackoff
      have hlongest := le_max_right hour cfg.WebhookMaxBackoff
      rcases @sleep_cases cfg conv _ _ _ _ hcap h with ⟨-, hsleep⟩ | ⟨wake, hwake, -, hsleep⟩
      · rw [hsleep]
        exact le_max_of_le_right (by linarith)
      · rw [hsleep]
        have hretry := retries_le h wake hwake
        exact max_le_max_left _ (by linarith)
    · have hretry : retryAt cfg conv a =
          some (now + backoff cfg conv (wrap64 (a.1.Attempts + 1))) := by
        rw [retryAt, Option.mem_def.mp hnow, Option.bind_some, if_neg hex]
      have hdelay := @backoff_le cfg conv (wrap64 (a.1.Attempts + 1))
      exact (alarm_le_retry hcap h (mem_retries.mpr ⟨a, ha, hretry⟩)).trans
        (max_le_max_left _ (by linarith))
  · exact alarm_le_retry hcap h (mem_retries.mpr ⟨a, ha, hnext⟩)

/-! ### Runs of the loop -/

/-- The delivery loop between two rounds: it sleeps until the alarm. -/
structure Loop where
  webhooks : Webhooks
  now : Time
  alarm : Time

inductive Event
  /-- An entry is stored, due at once, and the loop is woken. -/
  | enqueue (entry : WebhookEntry)
  | round (started : Time) (attempts : List Attempt) (finished : Time)

def step (cfg : WebhookDispatcherConfig) (conv : Conversion) (s : Loop) : Event → Loop → Prop
  | .enqueue entry, t =>
    s.now ≤ entry.NextAttemptAt ∧
      t = ⟨s.webhooks.put entry, entry.NextAttemptAt, entry.NextAttemptAt⟩
  | .round started attempts finished, t =>
    s.now ≤ started ∧ s.alarm ≤ started ∧ Round s.webhooks started attempts finished ∧
      t = ⟨(processPending cfg conv attempts finished s.webhooks).2, finished,
        finished + (processPending cfg conv attempts finished s.webhooks).1⟩

/-- A round awaits what it does not take. -/
def Awaited (cfg : WebhookDispatcherConfig) (s : Loop) : Event → Prop
  | .enqueue _ => True
  | .round started attempts finished => Awaits cfg s.webhooks started attempts finished

/-- **No retry is late** in a run whose rounds all await what is not due. The loop starts with a
round at once. -/
theorem none_late (cfg : WebhookDispatcherConfig) (conv : Conversion) (s t : Loop)
    (tr : List (Loop × Event)) (hstart : s.alarm = s.now)
    (h : Run (step (NewWebhookDispatcher cfg) conv) s tr t)
    (hawaited : Meets (Awaited (NewWebhookDispatcher cfg)) tr) :
    ∀ u ∈ states tr t, NoneLate u.webhooks u.now u.alarm := by
  refine h.invariant (I := fun u => NoneLate u.webhooks u.now u.alarm) (fun a l b _ hl hstep => ?_)
    hawaited fun e _ => hstart ▸ le_max_left _ _
  cases l with
  | enqueue entry =>
    obtain ⟨-, rfl⟩ := hstep
    exact fun e _ => le_max_left _ _
  | round started attempts finished =>
    obtain ⟨-, -, hround, rfl⟩ := hstep
    exact noneLate_of_awaits (maxBackoff_pos cfg) hround hl

def down : WebhookEntry := { ID := "a", NextAttemptAt := unixEpoch }

/-- An entry that is due, and one that is due two hours later. -/
def begun : Loop :=
  ⟨((Table.empty _).put { ID := "c", NextAttemptAt := unixEpoch + 2 * hour }).put down, unixEpoch,
    unixEpoch⟩

def failedRound : Event := .round unixEpoch [(down, some unixEpoch)] unixEpoch

def asleep : Loop :=
  ⟨(processPending (NewWebhookDispatcher {}) smallest [(down, some unixEpoch)] unixEpoch
    begun.webhooks).2, unixEpoch, unixEpoch + second⟩

lemma step_failedRound : step (NewWebhookDispatcher {}) smallest begun failedRound asleep :=
  ⟨le_rfl, le_rfl, ⟨le_rfl, by decide, by decide, le_rfl⟩,
    congrArg (Loop.mk _ unixEpoch) (by decide)⟩

theorem waiting_entry_not_late :
    Run (step (NewWebhookDispatcher {}) smallest) begun [(begun, failedRound)] asleep ∧
    ∀ u ∈ states [(begun, failedRound)] asleep, NoneLate u.webhooks u.now u.alarm := by
  have hrun : Run (step (NewWebhookDispatcher {}) smallest) begun [(begun, failedRound)] asleep :=
    .cons step_failedRound (.nil _)
  refine ⟨hrun, none_late {} smallest begun asleep _ rfl hrun ?_⟩
  rw [meets_cons]
  refine ⟨fun e he hwaits => .inl ?_, meets_nil⟩
  revert e
  decide

/-- Half a second later another event is enqueued, and delivered at once. -/
def fresh : WebhookEntry := { ID := "b", NextAttemptAt := unixEpoch + 500000000 }

def woken : Loop := ⟨asleep.webhooks.put fresh, unixEpoch + 500000000, unixEpoch + 500000000⟩

def overslept : Loop :=
  ⟨(processPending (NewWebhookDispatcher {}) smallest [(fresh, none)] (unixEpoch + 500000000)
    woken.webhooks).2, unixEpoch + 500000000, unixEpoch + 500000000 + hour⟩

/-- **A successful delivery puts the others off for an hour.** The first entry is due half a second
after the last round, which sleeps for an hour. -/
theorem retry_overslept :
    (∃ tr, Run (step (NewWebhookDispatcher {}) smallest) begun tr overslept) ∧
    (overslept.webhooks.get "a").map WebhookEntry.NextAttemptAt = some (unixEpoch + second) ∧
    overslept.alarm = unixEpoch + 500000000 + hour ∧
    ¬NoneLate overslept.webhooks overslept.now overslept.alarm := by
  have henqueue : step (NewWebhookDispatcher {}) smallest asleep (.enqueue fresh) woken :=
    ⟨by decide, rfl⟩
  have hround : step (NewWebhookDispatcher {}) smallest woken
      (.round (unixEpoch + 500000000) [(fresh, none)] (unixEpoch + 500000000)) overslept :=
    ⟨le_rfl, le_rfl, ⟨by decide, by decide, by decide, le_rfl⟩,
      congrArg (Loop.mk _ (unixEpoch + 500000000)) (by decide)⟩
  refine ⟨⟨_, .cons step_failedRound (.cons henqueue (.cons hround (.nil _)))⟩, by decide, rfl,
    fun h => ?_⟩
  have hlate := h (nacked 1 (unixEpoch + second) down) (by decide)
  exact absurd hlate (by decide)

end Workforce.WebhookTimer
