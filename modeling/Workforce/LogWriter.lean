import Workforce.WorkerSide

/-!
The writer that turns what a binary prints into log frames.

It keeps what it has of the present line in a buffer and cuts a line off for every line end it
finds. Whatever the chunks are, the frames and the buffer together are the bytes written, which
leaves only one way to cut them.
-/

namespace Workforce.LogWriter

open WorkerSide Contract

/-! ### Cutting a stream into lines -/

/-- The stream is the lines, each with its line end, and then the rest. -/
structure Lined (stream : Bytes) (lines : List Bytes) (rest : Bytes) : Prop where
  eq : stream = lines.flatMap (· ++ [lineEnd]) ++ rest
  lines : ∀ line ∈ lines, lineEnd ∉ line
  rest : lineEnd ∉ rest

variable {s p rest rest' : Bytes} {lines lines' : List Bytes}

lemma Lined.splitOn (h : Lined s lines rest) : s.splitOn lineEnd = lines ++ [rest] := by
  obtain ⟨rfl, hlines, hrest⟩ := h
  induction lines with
  | nil => exact List.splitOn_eq_singleton hrest
  | cons line lines ih =>
    obtain ⟨hline, hlines⟩ := List.forall_mem_cons.mp hlines
    have hne : ∀ b ∈ line, (b == lineEnd) = false := fun b hb => by
      rw [beq_eq_false_iff_ne]
      rintro rfl
      exact hline hb
    rw [List.flatMap_cons, List.append_assoc, List.append_assoc]
    exact (List.splitOnP_append_cons_of_forall_mem hne lineEnd (beq_self_eq_true _) _).trans
      (congrArg (line :: ·) (ih hlines))

lemma Lined.append (h : Lined s lines rest) (h' : Lined (rest ++ p) lines' rest') :
    Lined (s ++ p) (lines ++ lines') rest' := by
  refine ⟨?_, fun line hline => ?_, h'.rest⟩
  · calc s ++ p = lines.flatMap (· ++ [lineEnd]) ++ (rest ++ p) := by rw [h.eq, List.append_assoc]
      _ = (lines ++ lines').flatMap (· ++ [lineEnd]) ++ rest' := by
        rw [h'.eq, List.flatMap_append, List.append_assoc]
  · exact (List.mem_append.mp hline).elim (h.lines line) (h'.lines line)

lemma lined_forward (buf : Bytes) : Lined buf (forward buf).1 (forward buf).2 := by
  fun_induction forward buf with
  | case1 buf hnone => exact ⟨rfl, (fun _ h => nomatch h), List.idxOf?_eq_none_iff.mp hnone⟩
  | case2 buf idx hidx r ih =>
    obtain ⟨hlt, hat, hbefore⟩ := List.idxOf?_eq_some_iff.mp hidx
    refine ⟨?_, List.forall_mem_cons.mpr ⟨fun hmem => ?_, ih.lines⟩, ih.rest⟩
    · rw [List.flatMap_cons, List.append_assoc, List.append_assoc, ← ih.eq, List.singleton_append,
        ← hat, ← List.drop_eq_getElem_cons hlt, List.take_append_drop]
    · -- the index is that of the first line end
      obtain ⟨k, hk, hkat⟩ := List.mem_take_iff_getElem.mp hmem
      exact hbefore k (by omega) hkat

/-! ### Writes -/

variable {l : logLineWriter} {ps qs : List Bytes}

/-- By induction on the writes: the lines sent and the buffer are the stream so far. -/
lemma lined_writes (h : Lined s lines l.buf) (ps : List Bytes) :
    ∃ sent, (l.writes ps).2.1 = sent.map (.log l.jobID l.runID) ∧
      Lined (s ++ ps.flatten) (lines ++ sent) (l.writes ps).1.buf := by
  induction ps generalizing l s lines with
  | nil => exact ⟨[], rfl, by simpa [logLineWriter.writes] using h⟩
  | cons p ps ih =>
    obtain ⟨sent, hsent, hlined⟩ := ih (l := (l.Write p).1) (h.append (lined_forward (l.buf ++ p)))
    refine ⟨(forward (l.buf ++ p)).1 ++ sent, ?_, ?_⟩
    · rw [List.map_append, logLineWriter.writes]
      exact congrArg (_ ++ ·) hsent
    · rwa [List.append_assoc, List.append_assoc] at hlined

lemma reported_writes (l : logLineWriter) (ps : List Bytes) :
    (l.writes ps).2.2 = ps.map List.length := by
  induction ps generalizing l with
  | nil => rfl
  | cons p ps ih => exact congrArg (p.length :: ·) (ih _)

lemma lined_new (jobID runID : String) : Lined [] [] (logLineWriter.mk jobID runID []).buf :=
  ⟨rfl, (fun _ h => nomatch h), List.not_mem_nil⟩

/-- **The frames are the lines of the output, however it is split.** For any writes on a new
writer the payloads sent are the stream's segments that end in a line end, without it and in
order, the buffer has what comes after the last line end, and every write reports all its bytes.
Another splitting of the same output gives the same frames and the same buffer. -/
theorem writes_send_lines (jobID runID : String) (ps : List Bytes) :
    (∃ lines, ((logLineWriter.mk jobID runID []).writes ps).2.1 = lines.map (.log jobID runID) ∧
      Lined ps.flatten lines ((logLineWriter.mk jobID runID []).writes ps).1.buf) ∧
    ((logLineWriter.mk jobID runID []).writes ps).2.2 = ps.map List.length ∧
    ∀ qs : List Bytes, qs.flatten = ps.flatten →
      ((logLineWriter.mk jobID runID []).writes qs).2.1 =
        ((logLineWriter.mk jobID runID []).writes ps).2.1 ∧
      ((logLineWriter.mk jobID runID []).writes qs).1.buf =
        ((logLineWriter.mk jobID runID []).writes ps).1.buf := by
  obtain ⟨lines, hsent, hlined⟩ := lined_writes (lined_new jobID runID) ps
  refine ⟨⟨lines, hsent, hlined⟩, reported_writes _ ps, fun qs hflat => ?_⟩
  obtain ⟨lines', hsent', hlined'⟩ := lined_writes (lined_new jobID runID) qs
  rw [hflat] at hlined'
  have hparts : lines' ++ [_] = lines ++ [_] := hlined'.splitOn.symm.trans hlined.splitOn
  obtain ⟨rfl, hbuf⟩ := List.append_inj' hparts rfl
  exact ⟨hsent'.trans hsent.symm, List.singleton_inj.mp hbuf⟩

/-- A line end at the border of two writes, before it or after it. -/
theorem writes_send_lines_border :
    ((logLineWriter.mk "j" "r" []).writes [[65, 10], [66]]).2.1 =
      ((logLineWriter.mk "j" "r" []).writes [[65], [10, 66]]).2.1 :=
  ((writes_send_lines "j" "r" [[65], [10, 66]]).2.2 [[65, 10], [66]] rfl).1

end Workforce.LogWriter
