import Mathlib.Data.List.DropRight
import Workforce.Json
import Workforce.LogSubscribers

/-!
The lines of a log, as it is written and when it is read again.

A subscriber takes every chunk it receives for whole lines. A client that comes after the run has
ended reads what the store has kept, in pieces of any size, and takes for a line only what a newline
ends. One store puts a newline behind whatever is appended, the other one does not: there chunks run
into each other, and what comes after the last newline is never shown.
-/

namespace Workforce.LogReplay

open Json LogSubscribers

/-! ### Live -/

/-- What `AppendRunLog` keeps, and sends to the subscribers. -/
def chunk (store : Store) (data : Bytes) : Bytes :=
  match store with
  | .MemStore => data
  | .FSStore => data ++ [newline]

def kept (store : Store) (datas : List Bytes) : Bytes := (datas.map (chunk store)).flatten

/-- The chunks for a subscriber that comes after the first `k` appends, none of them dropped. -/
def SubscribeRunLogs (store : Store) (k : ℕ) (datas : List Bytes) : List Bytes :=
  let buf := kept store (datas.take k)
  (if buf = [] then [] else [buf]) ++ (datas.drop k).map (chunk store)

def trimRight (bs : Bytes) : Bytes := bs.rdropWhile (· = newline)

def linesOf (chunk : Bytes) : List Bytes := ((trimRight chunk).splitOn newline).filter (· ≠ [])

/-- The log lines sent to a client while the run goes on. -/
def handleRunLogsStream (chunks : List Bytes) : List Bytes := chunks.flatMap linesOf

/-! ### Replay -/

/-- One byte; the state is the line read so far and the log lines sent. -/
def emitByte (s : Bytes × List Bytes) (b : UInt8) : Bytes × List Bytes :=
  if b = newline then if s.1 ≠ [] then ([], s.2 ++ [s.1]) else s else (s.1 ++ [b], s.2)

/-- The log lines sent to a client when the run has ended; what is left of the state at the end of
the file is dropped. -/
def emitLogLines (reads : List Bytes) : List Bytes :=
  (reads.foldl (fun s buf => buf.foldl emitByte s) ([], [])).2

/-- A line is shown unless it is empty. -/
def shown (line : Bytes) : List Bytes := if line = [] then [] else [line]

/-- The lines that end in the bytes. -/
def ended (line : Bytes) : Bytes → List Bytes
  | [] => []
  | b :: bs => if b = newline then shown line ++ ended [] bs else ended (line ++ [b]) bs

/-- The line that does not. -/
def left (line : Bytes) : Bytes → Bytes
  | [] => line
  | b :: bs => left (if b = newline then [] else line ++ [b]) bs

variable {store : Store} {line a b c d : Bytes} {cs ds : List Bytes}

lemma foldl_emitByte (line : Bytes) (out : List Bytes) (bs : Bytes) :
    bs.foldl emitByte (line, out) = (left line bs, out ++ ended line bs) := by
  induction bs generalizing line out with
  | nil => simp [left, ended]
  | cons b bs ih =>
    rw [List.foldl_cons, left, ended]
    by_cases hb : b = newline
    · by_cases hline : line = []
      · simp [emitByte, hb, hline, ih, shown]
      · simp [emitByte, hb, hline, ih, shown]
    · simp [emitByte, hb, ih]

lemma emitLogLines_eq (reads : List Bytes) : emitLogLines reads = ended [] reads.flatten := by
  rw [emitLogLines, ← List.foldl_flatten, foldl_emitByte, List.nil_append]

lemma ended_append : ended line (a ++ b) = ended line a ++ ended (left line a) b := by
  induction a generalizing line with
  | nil => rfl
  | cons x a ih =>
    rw [List.cons_append, ended, ended, left, ih, ih]
    split_ifs <;> simp

lemma left_append : left line (a ++ b) = left (left line a) b := by
  induction a generalizing line with
  | nil => rfl
  | cons x a ih => exact ih

lemma left_eq_nil_iff : left [] d = [] ↔ d = [] ∨ d.getLast? = some newline := by
  induction d using List.reverseRecOn with
  | nil => simp [left]
  | append_singleton d b =>
    rw [left_append]
    simp [left]

/-! ### The lines of a chunk -/

lemma modifyHead_nil (l : List Bytes) : l.modifyHead (([] : Bytes) ++ ·) = l :=
  congrFun List.modifyHead_id l

lemma filter_splitOn (line bs : Bytes) :
    ((bs.splitOn newline).modifyHead (line ++ ·)).filter (· ≠ []) =
      ended line bs ++ shown (left line bs) := by
  induction bs generalizing line with
  | nil =>
    by_cases hline : line = []
    · simp [ended, left, shown, hline]
    · simp [ended, left, shown, hline]
  | cons b bs ih =>
    have hcons : (b :: bs).splitOn newline = if b = newline then [] :: bs.splitOn newline
        else (bs.splitOn newline).modifyHead (b :: ·) := by
      simp [List.splitOn, List.splitOnP_cons_eq_if_modifyHead]
    rw [hcons, ended, left]
    by_cases hb : b = newline
    · have hrest := ih []
      rw [modifyHead_nil] at hrest
      by_cases hline : line = []
      · simpa [hb, hline, shown] using hrest
      · simpa [hb, hline, shown] using hrest
    · simpa [hb, List.modifyHead_modifyHead, Function.comp_def] using ih (line ++ [b])

lemma linesOf_eq (c : Bytes) : linesOf c = ended [] c ++ shown (left [] c) := by
  have hsplit := filter_splitOn [] (trimRight c)
  rw [modifyHead_nil] at hsplit
  rw [linesOf, hsplit]
  clear hsplit
  induction c using List.reverseRecOn with
  | nil => rfl
  | append_singleton c b ih =>
    by_cases hb : b = newline
    · -- a newline at the end shows what is left of the chunk before it
      rw [trimRight, List.rdropWhile_concat_pos _ _ _ (by simpa using hb), ← trimRight, ih,
        ended_append, left_append]
      simp [ended, left, hb, shown]
    · rw [trimRight, List.rdropWhile_concat_neg _ _ _ (by simpa using hb)]

/-! ### Chunks that run into each other -/

/-- Whatever does not end with a newline is followed by one. -/
def Clean : List Bytes → Prop
  | [] => True
  | d :: ds =>
    (d = [] ∨ d.getLast? = some newline ∨ ds.flatten.head? = some newline) ∧ Clean ds

lemma length_ended_congr {line' : Bytes} (h : line ≠ []) (h' : line' ≠ []) :
    (ended line b).length = (ended line' b).length := by
  induction b generalizing line line' with
  | nil => rfl
  | cons x b ih =>
    rw [ended, ended]
    split_ifs
    · simp [shown, h, h']
    · exact ih (by simp) (by simp)

lemma ended_join (h : line = [] ∨ b.head? = some newline) :
    ended line b = shown line ++ ended [] b := by
  rcases h with rfl | h
  · simp [shown]
  · obtain ⟨rest, rfl⟩ := List.head?_eq_some_iff.mp h
    simp [ended, shown]

/-- A line that goes on in the next chunk is counted once. -/
lemma length_ended_lt (h : ¬(line = [] ∨ b.head? = some newline)) :
    (ended line b).length < (shown line ++ ended [] b).length := by
  obtain ⟨hline, hhead⟩ := not_or.mp h
  cases b with
  | nil => simp [ended, shown, hline]
  | cons x b =>
    have hx : x ≠ newline := by simpa using hhead
    have hcount := @length_ended_congr (line ++ [x]) b [x] (by simp) (by simp)
    simp [ended, shown, hline, hx, hcount]

lemma length_ended_le : (ended line b).length ≤ (shown line ++ ended [] b).length := by
  by_cases h : line = [] ∨ b.head? = some newline
  · rw [ended_join h]
  · exact (length_ended_lt h).le

lemma length_replay_le (cs : List Bytes) :
    (ended [] cs.flatten).length ≤ (handleRunLogsStream cs).length := by
  induction cs with
  | nil => rfl
  | cons c cs ih =>
    have hle : (ended (left [] c) cs.flatten).length ≤ _ := length_ended_le
    rw [List.flatten_cons, ended_append, handleRunLogsStream, List.flatMap_cons, linesOf_eq]
    simp only [List.length_append] at hle ih ⊢
    rw [handleRunLogsStream] at ih
    omega

/-- A subscriber that has been there from the start. -/
lemma replay_iff_clean : ended [] cs.flatten = handleRunLogsStream cs ↔ Clean cs := by
  induction cs with
  | nil => exact iff_of_true rfl trivial
  | cons c cs ih =>
    rw [List.flatten_cons, ended_append, handleRunLogsStream, List.flatMap_cons, linesOf_eq,
      List.append_assoc, List.append_cancel_left_eq, Clean, ← or_assoc, ← left_eq_nil_iff]
    refine ⟨fun h => ?_, fun ⟨hjoin, hclean⟩ => ?_⟩
    · have hjoin : left [] c = [] ∨ cs.flatten.head? = some newline := by
        by_contra hno
        have hlt := length_ended_lt hno
        have hle := length_replay_le cs
        rw [h, handleRunLogsStream.eq_def] at *
        simp only [List.length_append] at hlt
        omega
      rw [ended_join hjoin, List.append_cancel_left_eq] at h
      exact ⟨hjoin, ih.mp h⟩
    · rw [ended_join hjoin, ih.mpr hclean]
      rfl

lemma clean_merge (h : Clean (cs ++ ds)) : Clean (cs.flatten :: ds) := by
  induction cs with
  | nil => exact ⟨.inl rfl, h⟩
  | cons c cs ih =>
    obtain ⟨hflat, hds⟩ := ih h.2
    have hc : c = [] ∨ c.getLast? = some newline ∨ (cs ++ ds).flatten.head? = some newline := h.1
    refine ⟨?_, hds⟩
    rcases hnil : cs.flatten with _ | ⟨x, rest⟩
    · simpa [hnil] using hc
    · rw [hnil] at hflat
      rw [List.flatten_cons, hnil, List.getLast?_append_of_ne_nil _ (List.cons_ne_nil _ _)]
      exact .inr (hflat.resolve_left (List.cons_ne_nil _ _))

lemma clean_FSStore (datas : List Bytes) : Clean (datas.map (chunk .FSStore)) := by
  induction datas with
  | nil => trivial
  | cons data datas ih => exact ⟨.inr (.inl (by simp [chunk])), ih⟩

lemma streamed_eq (k : ℕ) (datas : List Bytes) :
    handleRunLogsStream (SubscribeRunLogs store k datas) =
      handleRunLogsStream (kept store (datas.take k) :: (datas.drop k).map (chunk store)) := by
  unfold SubscribeRunLogs
  dsimp only
  split_ifs with hbuf
  · rw [hbuf]
    rfl
  · rfl

/-- **Replay agrees with the stream** whenever a client subscribes and however the log is read,
exactly if in the store that keeps the bytes as they are whatever does not end with a newline is
followed by one. -/
theorem replay_agrees_iff (store : Store) (datas : List Bytes) :
    (∀ (k : ℕ) (reads : List Bytes), reads.flatten = kept store datas →
      emitLogLines reads = handleRunLogsStream (SubscribeRunLogs store k datas)) ↔
      (store = .MemStore → Clean datas) := by
  have hclean : Clean (datas.map (chunk store)) ↔ (store = .MemStore → Clean datas) := by
    cases store with
    | MemStore =>
      rw [show chunk .MemStore = id from rfl, List.map_id]
      exact ⟨fun h _ => h, fun h => h rfl⟩
    | FSStore => exact iff_of_true (clean_FSStore datas) (fun h => nomatch h)
  rw [← hclean]
  constructor
  · intro h
    have h0 := h 0 [kept store datas] (by simp)
    rw [emitLogLines_eq, streamed_eq, List.take_zero, List.drop_zero] at h0
    refine replay_iff_clean.mp (Eq.trans ?_ h0)
    simp [kept]
  · intro h k reads hreads
    have hsplit : (datas.take k).map (chunk store) ++ (datas.drop k).map (chunk store) =
        datas.map (chunk store) := by
      rw [← List.map_append, List.take_append_drop]
    have hmerged := replay_iff_clean.mpr (clean_merge (hsplit ▸ h))
    rw [emitLogLines_eq, streamed_eq, hreads, kept, ← hsplit, List.flatten_append]
    exact hmerged

/-- **Lines without an end.** A worker sends the lines of a task without their newlines. The client
that has subscribed gets `a` and `b`; the one that comes when the run has ended gets nothing. -/
theorem lines_never_replayed :
    handleRunLogsStream (SubscribeRunLogs .MemStore 0 [[0x61], [0x62]]) = [[0x61], [0x62]] ∧
      ∀ reads : List Bytes, reads.flatten = kept .MemStore [[0x61], [0x62]] →
        emitLogLines reads = [] := by
  refine ⟨by decide, fun reads h => ?_⟩
  rw [emitLogLines_eq, h]
  decide

end Workforce.LogReplay
