import Workforce.JournalLines

/-!
A journal that lost its end.

Whatever byte the file is cut at, the entries before the cut are read and the torn one is not:
no beginning of an object is valid JSON, and no object has a line end in it. The entries are
applied unless one of them cannot be read at all, because of a payload that is a string but not
base64, or that is nested too deep for the line around it.
-/

namespace Workforce.TornTail

open Json Payloads Lines StoredRecords JournalLines
open FSStore (Maps)
open Contract hiding Bytes

/-- An entry that was queued and written. -/
structure Written (sp : Spelling) where
  entry : FSStore.journalEntry
  ts : Time
  queued : journalEntry
  value : Value
  fits : EntryFits entry
  made : entryOf sp ts entry = some queued
  encoded : encodeEntry sp queued = some value

namespace Written

variable {sp : Spelling}

def object (w : Written sp) : Bytes := render w.value

variable (w : Written sp)

lemma wellFormed : WellFormed (maxNestingDepth + 1) w.value :=
  (line_object w.fits w.made w.encoded).2.1

lemma oneLine : OneLine w.object := oneLine_render w.wellFormed

lemma object_ne_nil : w.object ≠ [] := by
  obtain ⟨ms, hms⟩ := (line_object w.fits w.made w.encoded).1
  simp [object, hms, render]

lemma newline_notMem : newline ∉ w.object := fun h => absurd (w.oneLine _ h) (by decide)

lemma parse_object : parse maxNestingDepth w.object =
    if depth w.value ≤ maxNestingDepth then some w.value else none :=
  parse_render_eq w.wellFormed

lemma parse_torn {p missing : Bytes} (h : p ++ missing = w.object) (hm : missing ≠ []) :
    parse maxNestingDepth p = none := by
  obtain ⟨ms, hms⟩ := (line_object w.fits w.made w.encoded).1
  have hwf := w.wellFormed
  rw [object, hms] at h
  rw [hms] at hwf
  have hcut := parse_cut hwf h hm
  rcases hp : parse maxNestingDepth p with _ | v
  · rfl
  · rw [parse_mono (by omega) hp] at hcut
    cases hcut

/-- The line can be read: each payload by itself, and all of them in their place. -/
def Legible : Prop :=
  ∀ r ∈ entryPayloads w.entry, Readable r ∧ depth (payloadValue r) + 2 ≤ maxNestingDepth

lemma legible_iff :
    w.Legible ↔ (rereadEntry w.entry).isSome ∧ depth w.value ≤ maxNestingDepth := by
  rw [rereadEntry_isSome, (line_object w.fits w.made w.encoded).2.2]
  exact forall₂_and

lemma valid_iff : Valid w.object ↔ depth w.value ≤ maxNestingDepth := by
  rw [Valid, w.parse_object]
  split_ifs with h
  · exact iff_of_true rfl h
  · exact iff_of_false (by simp) h

lemma unmarshal_object (h : depth w.value ≤ maxNestingDepth) :
    unmarshal decodeEntry w.object = some w.queued := by
  rw [unmarshal, w.parse_object, if_pos h]
  exact decodeEntry_of_encode w.fits w.made w.encoded

lemma apply (jsonError : Bytes → String) (m : Maps) :
    applyJournalEntry jsonError w.queued m =
      match rereadEntry w.entry with
      | some e => .ok (FSStore.applyJournalEntry e m)
      | none => .error (jsonError w.queued.Data) := by
  obtain ⟨values, hvalues, -⟩ := Option.map_eq_some_iff.mp w.encoded
  obtain ⟨-, data, -, -, hdata, -⟩ := entryValues_cases hvalues
  exact apply_entry jsonError w.fits w.made hdata m

end Written

variable {sp : Spelling} (jsonError : Bytes → String)

def journalFile (ws : List (Written sp)) : Bytes := file Written.object ws

/-- The entries whose object lies before the cut. -/
def complete (ws : List (Written sp)) (n : ℕ) : List (Written sp) :=
  whole Written.object ws n

def applyAll (ws : List (Written sp)) (m : Maps) : Except String Maps :=
  ws.foldlM (fun m w => applyJournalEntry jsonError w.queued m) m

/-- Exactly the entries before the cut are read, in their order, and replaying the rest of the
file applies them all. -/
def Replays (ws : List (Written sp)) (n : ℕ) : Prop :=
  entriesRead (scanned maxLine ((journalFile ws).take n)) = (complete ws n).map Written.queued ∧
    ∀ m, ∃ m', applyAll jsonError (complete ws n) m = .ok m' ∧
      replayJournal jsonError (some ((journalFile ws).take n)) m = .ok m'

/-! ### Reading lines -/

section Reading

variable {jsonError} {ws : List (Written sp)} {rest : List Bytes} {m m' : Maps}

lemma length_entriesRead (lines : List Bytes) : (entriesRead lines).length ≤ lines.length := by
  fun_induction entriesRead lines with
  | case1 | case2 | case3 => simp
  | case4 line lines hv e he ih => simpa using ih

/-- The entries are read up to the first that is too deep. -/
lemma entriesRead_objects (hrest : entriesRead rest = []) :
    entriesRead (ws.map Written.object ++ rest) = ws.map Written.queued ↔
      ∀ w ∈ ws, depth w.value ≤ maxNestingDepth := by
  induction ws with
  | nil => simpa using hrest
  | cons w ws ih =>
    rw [List.map_cons, List.cons_append, entriesRead, List.forall_mem_cons, ← ih]
    by_cases hd : depth w.value ≤ maxNestingDepth
    · rw [if_neg (not_not.mpr (w.valid_iff.mpr hd)), w.unmarshal_object hd]
      simp [hd]
    · rw [if_pos (mt w.valid_iff.mp hd)]
      simp [hd]

lemma replayLines_objects {tooLong : Prop} [Decidable tooLong]
    (hd : ∀ w ∈ ws, depth w.value ≤ maxNestingDepth) (h : applyAll jsonError ws m = .ok m') :
    replayLines jsonError tooLong (ws.map Written.object ++ rest) m =
      replayLines jsonError tooLong rest m' := by
  induction ws generalizing m with
  | nil =>
    cases h
    rfl
  | cons w ws ih =>
    obtain ⟨hw, hws⟩ := List.forall_mem_cons.mp hd
    rw [applyAll, List.foldlM_cons] at h
    rcases happ : applyJournalEntry jsonError w.queued m with err | m₁
    · rw [happ] at h
      cases h
    · rw [happ] at h
      rw [List.map_cons, List.cons_append, replayLines, if_neg (not_not.mpr (w.valid_iff.mpr hw)),
        w.unmarshal_object hw]
      simp only [happ]
      exact ih hws h

/-- An entry whose data cannot be read ends the replay with an error. -/
lemma replayLines_refused {tooLong : Prop} [Decidable tooLong] {w : Written sp}
    (hd : depth w.value ≤ maxNestingDepth) (h : rereadEntry w.entry = none) (m : Maps) :
    replayLines jsonError tooLong (w.object :: rest) m =
      .error ("replay op=" ++ w.queued.Op.text ++ ": " ++ jsonError w.queued.Data) := by
  rw [replayLines, if_neg (not_not.mpr (w.valid_iff.mpr hd)), w.unmarshal_object hd]
  simp only [w.apply, h]

/-- **Applying the entries** is replaying them with the payloads that are read. -/
lemma applyAll_eq {es : List FSStore.journalEntry}
    (h : ws.mapM (fun w => rereadEntry w.entry) = some es) (m : Maps) :
    applyAll jsonError ws m = .ok (FSStore.replayEntries es m) := by
  have hall := mapM_eq_some.mp h
  clear h
  induction hall generalizing m with
  | nil => rfl
  | @cons w e ws es hw hws ih =>
    rw [applyAll, List.foldlM_cons, w.apply, hw]
    exact ih (FSStore.applyJournalEntry e m)

lemma isSome_of_applyAll (h : applyAll jsonError ws m = .ok m') :
    ∀ w ∈ ws, (rereadEntry w.entry).isSome := by
  induction ws generalizing m with
  | nil => simp
  | cons w ws ih =>
    rw [applyAll, List.foldlM_cons, w.apply] at h
    rcases hw : rereadEntry w.entry with _ | e
    · rw [hw] at h
      cases h
    · rw [hw] at h
      exact List.forall_mem_cons.mpr ⟨by rw [hw]; rfl, ih h⟩

end Reading

/-! ### Reading what is left -/

section Cut

variable {ws : List (Written sp)} {n : ℕ}

def tail (ws : List (Written sp)) (n : ℕ) : List Bytes :=
  if torn Written.object ws n = [] then [] else [torn Written.object ws n]

lemma tail_cases {line : Bytes} (h : line ∈ tail ws n) :
    ∃ w ∈ ws, ∃ missing, line ++ missing = w.object ∧ missing ≠ [] := by
  unfold tail at h
  split_ifs at h with hnil
  · cases h
  · cases List.mem_singleton.mp h
    exact (torn_cases n).resolve_left hnil

lemma segments_journalFile (ws : List (Written sp)) (n : ℕ) :
    segments [] ((journalFile ws).take n) = (complete ws n).map Written.object ++ tail ws n :=
  segments_take (fun w _ => w.newline_notMem) (fun w _ => w.object_ne_nil) n

lemma complete_length (ws : List (Written sp)) : complete ws (journalFile ws).length = ws :=
  (whole_length ws).1

lemma tail_length (ws : List (Written sp)) : tail ws (journalFile ws).length = [] :=
  if_pos (whole_length ws).2

lemma dropCR_of_oneLine {line : Bytes} (h : OneLine line) : dropCR line = line := by
  refine if_neg fun hlast => ?_
  exact absurd (h _ (List.mem_of_getLast? hlast)) (by decide)

lemma oneLine_segments {line : Bytes}
    (h : line ∈ (complete ws n).map Written.object ++ tail ws n) : OneLine line := by
  rcases List.mem_append.mp h with h | h
  · obtain ⟨w, -, rfl⟩ := List.mem_map.mp h
    exact w.oneLine
  · obtain ⟨w, -, missing, hw, -⟩ := tail_cases h
    have hall : OneLine (line ++ missing) := hw ▸ w.oneLine
    exact (oneLine_append.mp hall).1

lemma scanned_journalFile (ws : List (Written sp)) (n : ℕ) :
    scanned maxLine ((journalFile ws).take n) =
      ((complete ws n).map Written.object ++ tail ws n).takeWhile
        fun line => line.length < maxLine := by
  rw [scanned, segments_journalFile]
  refine (List.map_congr_left fun line hline => ?_).trans (List.map_id _)
  exact dropCR_of_oneLine (oneLine_segments (List.takeWhile_subset _ hline))

lemma entriesRead_tail (ws : List (Written sp)) (n : ℕ) : entriesRead (tail ws n) = [] := by
  rcases h : tail ws n with _ | ⟨line, lines⟩
  · rfl
  · obtain ⟨w, -, missing, hw, hm⟩ := tail_cases (h ▸ List.mem_cons_self : line ∈ tail ws n)
    refine if_pos ?_
    rw [Valid, w.parse_torn hw hm]
    simp

lemma replayLines_tail {tooLong : Prop} [Decidable tooLong] (h : ¬tooLong) (m : Maps) :
    replayLines jsonError tooLong (tail ws n) m = .ok m := by
  rcases ht : tail ws n with _ | ⟨line, lines⟩
  · exact if_neg h
  · obtain ⟨w, -, missing, hw, hm⟩ := tail_cases (ht ▸ List.mem_cons_self : line ∈ tail ws n)
    refine if_pos ?_
    rw [Valid, w.parse_torn hw hm]
    simp

lemma not_tooLong_iff : ¬TooLong maxLine ((journalFile ws).take n) ↔
    ∀ line ∈ (complete ws n).map Written.object ++ tail ws n, line.length < maxLine := by
  rw [TooLong, segments_journalFile]
  push Not
  rfl

/-- If as many entries are read as there are before the cut, their lines were handed out. -/
lemma takeWhile_of_length {objects rest : List Bytes} {p : Bytes → Bool}
    (h : objects.length ≤ ((objects ++ rest).takeWhile p).length) :
    (objects ++ rest).takeWhile p = objects ++ rest.takeWhile p ∧ ∀ o ∈ objects, p o := by
  rw [List.takeWhile_append] at h ⊢
  have hlen := (List.takeWhile_prefix p (l := objects)).length_le
  split_ifs at h ⊢ with hall
  · have heq := (List.takeWhile_prefix p (l := objects)).eq_of_length hall
    exact ⟨rfl, List.takeWhile_eq_self_iff.mp heq⟩
  · omega

/-- The lines that are handed out when all the entries before the cut are read. -/
lemma scanned_of_trace
    (h : entriesRead (scanned maxLine ((journalFile ws).take n)) =
      (complete ws n).map Written.queued) :
    (∀ w ∈ complete ws n, w.object.length < maxLine) ∧
      scanned maxLine ((journalFile ws).take n) = (complete ws n).map Written.object ++
        (tail ws n).takeWhile fun line => line.length < maxLine := by
  have hlen := length_entriesRead (scanned maxLine ((journalFile ws).take n))
  rw [h, List.length_map, ← List.length_map Written.object, scanned_journalFile] at hlen
  obtain ⟨hsplit, hshort⟩ := takeWhile_of_length hlen
  rw [scanned_journalFile]
  exact ⟨fun w hw => by simpa using hshort _ (List.mem_map_of_mem hw), hsplit⟩

lemma takeWhile_tail (p : Bytes → Bool) (ws : List (Written sp)) (n : ℕ) :
    (tail ws n).takeWhile p = tail ws n ∨ (tail ws n).takeWhile p = [] := by
  unfold tail
  split_ifs
  · exact .inl rfl
  · rw [List.takeWhile_cons]
    split_ifs
    · exact .inl rfl
    · exact .inr rfl

/-- If the entries before the cut are read and applied, each can be read and no line is too long. -/
lemma legible_of_trace {jsonError : Bytes → String} {m m₁ m₂ : Maps}
    (htrace : entriesRead (scanned maxLine ((journalFile ws).take n)) =
      (complete ws n).map Written.queued)
    (hall : applyAll jsonError (complete ws n) m = .ok m₁)
    (hreplay : replayJournal jsonError (some ((journalFile ws).take n)) m = .ok m₂) :
    (∀ w ∈ complete ws n, w.Legible) ∧ ¬TooLong maxLine ((journalFile ws).take n) := by
  obtain ⟨hshort, hlines⟩ := scanned_of_trace htrace
  have hd : ∀ w ∈ complete ws n, depth w.value ≤ maxNestingDepth := by
    refine (entriesRead_objects ?_).mp (hlines ▸ htrace)
    rcases takeWhile_tail _ ws n with htail | htail <;> rw [htail]
    · exact entriesRead_tail ws n
    · rfl
  refine ⟨fun w hw => w.legible_iff.mpr ⟨isSome_of_applyAll hall w hw, hd w hw⟩, fun hlong => ?_⟩
  -- a line that is too long is the torn one, and the reader stops there with an error
  have htail : ((tail ws n).takeWhile fun line => line.length < maxLine) = [] := by
    refine (takeWhile_tail _ ws n).resolve_left fun hself => ?_
    refine not_tooLong_iff.mpr (fun line hline => ?_) hlong
    rcases List.mem_append.mp hline with hline | hline
    · obtain ⟨w, hw, rfl⟩ := List.mem_map.mp hline
      exact hshort w hw
    · simpa using List.takeWhile_eq_self_iff.mp hself line hline
  rw [replayJournal, hlines, replayLines_objects hd hall, htail, replayLines, if_pos hlong]
    at hreplay
  cases hreplay

section Legible

variable (hlegible : ∀ w ∈ complete ws n, w.Legible)
  (hshort : ¬TooLong maxLine ((journalFile ws).take n))

include hshort in
lemma scanned_of_short :
    scanned maxLine ((journalFile ws).take n) =
      (complete ws n).map Written.object ++ tail ws n := by
  rw [scanned_journalFile, List.takeWhile_eq_self_iff]
  simpa using not_tooLong_iff.mp hshort

include hlegible

lemma depth_of_legible : ∀ w ∈ complete ws n, depth w.value ≤ maxNestingDepth :=
  fun w hw => (w.legible_iff.mp (hlegible w hw)).2

lemma exists_reread_of_legible :
    ∃ es, (complete ws n).mapM (fun w => rereadEntry w.entry) = some es :=
  Option.isSome_iff_exists.mp
    (mapM_isSome_iff.mpr fun w hw => (w.legible_iff.mp (hlegible w hw)).1)

include hshort

lemma trace_of_legible : entriesRead (scanned maxLine ((journalFile ws).take n)) =
    (complete ws n).map Written.queued := by
  rw [scanned_of_short hshort]
  exact (entriesRead_objects (entriesRead_tail ws n)).mpr (depth_of_legible hlegible)

lemma replayJournal_of_legible {es : List FSStore.journalEntry}
    (hes : (complete ws n).mapM (fun w => rereadEntry w.entry) = some es) (m : Maps) :
    replayJournal jsonError (some ((journalFile ws).take n)) m =
      .ok (FSStore.replayEntries es m) := by
  rw [replayJournal, scanned_of_short hshort,
    replayLines_objects (depth_of_legible hlegible) (applyAll_eq hes m),
    replayLines_tail jsonError hshort]

end Legible

variable (ws n) in
/-- **Cut journals.** Exactly the entries before the cut are applied if and only if each of them
can be read and no line is too long for the buffer. -/
theorem replays_iff_legible :
    Replays jsonError ws n ↔
      (∀ w ∈ complete ws n, w.Legible) ∧ ¬TooLong maxLine ((journalFile ws).take n) := by
  constructor
  · rintro ⟨htrace, happlied⟩
    obtain ⟨m', hall, hreplay⟩ := happlied .empty
    exact legible_of_trace htrace hall hreplay
  · rintro ⟨hlegible, hshort⟩
    obtain ⟨es, hes⟩ := exists_reread_of_legible hlegible
    exact ⟨trace_of_legible hlegible hshort, fun m =>
      ⟨_, applyAll_eq hes m, replayJournal_of_legible jsonError hlegible hshort hes m⟩⟩

variable (ws n) in
/-- **Torn tails.** In a journal whose lines all fit into the buffer, cut at any byte, exactly the
entries whose object lies before the cut are applied, in their order, if and only if each of these
can be read. -/
theorem replays_iff (hshort : ∀ w ∈ ws, w.object.length < maxLine) :
    Replays jsonError ws n ↔ ∀ w ∈ complete ws n, w.Legible := by
  rw [replays_iff_legible, and_iff_left]
  refine not_tooLong_iff.mpr fun line hline => ?_
  rcases List.mem_append.mp hline with hline | hline
  · obtain ⟨w, hw, rfl⟩ := List.mem_map.mp hline
    exact hshort w (whole_subset n w hw)
  · obtain ⟨w, hw, missing, hline, -⟩ := tail_cases hline
    have hle : line.length ≤ w.object.length := by
      rw [← hline, List.length_append]
      omega
    exact lt_of_le_of_lt hle (hshort w hw)

end Cut

/-! ### Two journals -/

def utc : Spelling := default

/-- An entry that can be written, at the zero time. -/
def write (e : FSStore.journalEntry) (fits : EntryFits e) (hmade : (entryOf utc 0 e).isSome)
    (hencoded : (encodeEntry utc ((entryOf utc 0 e).get hmade)).isSome) : Written utc where
  entry := e
  ts := 0
  queued := (entryOf utc 0 e).get hmade
  value := (encodeEntry utc ((entryOf utc 0 e).get hmade)).get hencoded
  fits := fits
  made := (Option.some_get hmade).symm
  encoded := (Option.some_get hencoded).symm

def deletion : Written utc :=
  write (.taskDefDelete "t") trivial rfl (by decide +kernel)

def hiJob : Job := { ID := "j", Payload := some (render (encodeString "hi")) }

lemma hiJob_fits : StoredEntities.JobFits hiJob :=
  ⟨by decide, by decide, by decide, by simp [hiJob]⟩

def hiEntry : Written utc := write (.job hiJob) hiJob_fits (by decide +kernel) (by decide +kernel)

theorem replays_deletion :
    complete [deletion, deletion] 150 = [deletion] ∧
      Replays (fun _ => "") [deletion, deletion] 150 := by
  have hcomplete : complete [deletion, deletion] 150 = [deletion] := by
    have hfirst : deletion.object.length ≤ 150 := by decide +kernel
    have hsecond : ¬deletion.object.length ≤ 150 - (deletion.object.length + 1) := by
      decide +kernel
    simp only [complete, whole, if_pos hfirst, if_neg hsecond]
  refine ⟨hcomplete, (replays_iff _ _ _ fun w hw => ?_).mpr fun w hw => ?_⟩
  · have heq : w = deletion := by simpa using hw
    rw [heq]
    decide +kernel
  · rw [hcomplete, List.mem_singleton] at hw
    rw [hw]
    exact fun r hr => by cases hr

/-- The payload `"hi"` is written inline and taken for base64 when it is read: the store does not
open any more. -/
theorem hi_refused :
    hiEntry.object.length < maxLine ∧
      complete [hiEntry] (journalFile [hiEntry]).length = [hiEntry] ∧
      ¬Replays (fun _ => "illegal base64 data") [hiEntry] (journalFile [hiEntry]).length ∧
      replayJournal (fun _ => "illegal base64 data") (some (journalFile [hiEntry])) .empty =
        .error "replay op=job: illegal base64 data" := by
  have hshort : hiEntry.object.length < maxLine := by decide +kernel
  have hcomplete := complete_length [hiEntry]
  have hlines : scanned maxLine (journalFile [hiEntry]) = [hiEntry.object] := by
    have hscan := scanned_journalFile [hiEntry] (journalFile [hiEntry]).length
    rw [List.take_length, hcomplete, tail_length, List.append_nil] at hscan
    simp [hscan, hshort]
  have hdepth : depth hiEntry.value ≤ maxNestingDepth := by
    refine (line_object hiEntry.fits hiEntry.made hiEntry.encoded).2.2.mpr ?_
    show ∀ r ∈ [hiJob.Payload, hiJob.Result], depth (payloadValue r) + 2 ≤ maxNestingDepth
    decide +kernel
  have hnone : rereadEntry hiEntry.entry = none := by decide +kernel
  have hop : hiEntry.queued.Op = .job := by
    obtain ⟨v, -, hq⟩ := dataEntry_cases hiEntry.made
    rw [hq]
  have herror :
      replayJournal (fun _ => "illegal base64 data") (some (journalFile [hiEntry])) .empty =
        .error "replay op=job: illegal base64 data" := by
    rw [replayJournal, hlines, replayLines_refused hdepth hnone, hop]
    rfl
  refine ⟨hshort, hcomplete, fun h => ?_, herror⟩
  obtain ⟨m', -, hok⟩ := h.2 .empty
  rw [List.take_length, herror] at hok
  cases hok

end Workforce.TornTail
