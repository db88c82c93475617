import Workforce.Argv

/-!
The reader of messages written like a command line.

A single quote opens and closes a stretch of a line in which a space does not end the word; the
quotes themselves are dropped. A line must not end inside such a stretch.
-/

namespace Workforce.QuotedArgv

open Argv Decimal

def quoteChar : Char := Char.ofNat 39

/-! ### Reading -/

/-- The words of the rest of a line: whether a quote is open, and the word begun before it. -/
def words : Bool → List Char → List Char → Option (List (List Char))
  | quoted, w, [] => if quoted then none else some [w]
  | quoted, w, c :: cs =>
    if c = quoteChar then words (!quoted) w cs
    else if c = ' ' ∧ quoted = false then (words false [] cs).map (w :: ·)
    else words quoted (w ++ [c]) cs

/-- Read one message: a line of text, and the bytes it announces. What follows them is left. -/
def read (text : String) (bytes : List UInt8) : Option (Message × List UInt8) :=
  let line := text.toList.takeWhile (· ≠ '\n')
  let rest := String.ofList (text.toList.dropWhile (· ≠ '\n')).tail
  let stream := rest.toUTF8.data.toList ++ bytes
  match words false [] line with
  | some (verb :: ws) => do
    let payload ← payloadOf stream (ws.dropWhile (· ≠ terminator))
    return (⟨String.ofList verb, (ws.takeWhile (· ≠ terminator)).filterMap flagOf, payload⟩,
      stream.drop payload.length)
  | _ => none

/-- A string that is one word of one line as it stands. -/
def Clean (s : List Char) : Prop := ' ' ∉ s ∧ '\n' ∉ s ∧ quoteChar ∉ s

instance : DecidablePred Clean := fun _ => inferInstanceAs (Decidable (_ ∧ _))

/-- A string that can stand between quotes. -/
def Quotable (s : List Char) : Prop := '\n' ∉ s ∧ quoteChar ∉ s

instance : DecidablePred Quotable := fun _ => inferInstanceAs (Decidable (_ ∧ _))

/-! ### The words of a line -/

variable {quoted : Bool} {s w cs : List Char} {ws : List (List Char)}

lemma words_append (hspace : ' ' ∉ s) (hquote : quoteChar ∉ s) (w cs : List Char) :
    words false w (s ++ cs) = words false (w ++ s) cs := by
  induction s generalizing w with
  | nil => rw [List.nil_append, List.append_nil]
  | cons c s ih =>
    obtain ⟨hc, hspace⟩ := not_or.mp (mt List.mem_cons.mpr hspace)
    obtain ⟨hq, hquote⟩ := not_or.mp (mt List.mem_cons.mpr hquote)
    rw [List.cons_append, words, if_neg (Ne.symm hq), if_neg (fun h => hc h.1.symm),
      ih hspace hquote, List.append_assoc]
    rfl

lemma words_space (w cs : List Char) :
    words false w (' ' :: cs) = (words false [] cs).map (w :: ·) := by
  rw [words, if_neg (by decide), if_pos ⟨rfl, rfl⟩]

lemma words_quoted (hquote : quoteChar ∉ s) (w cs : List Char) :
    words true w (s ++ quoteChar :: cs) = words false (w ++ s) cs := by
  induction s generalizing w with
  | nil => rw [List.nil_append, words, if_pos rfl, List.append_nil]; rfl
  | cons c s ih =>
    obtain ⟨hq, hquote⟩ := not_or.mp (mt List.mem_cons.mpr hquote)
    rw [List.cons_append, words, if_neg (Ne.symm hq), if_neg (fun h => nomatch h.2),
      ih hquote, List.append_assoc]
    rfl

/-- Words have no quotes, and nothing in them that the line has not. -/
lemma mem_words (h : words quoted w cs = some ws) (hw : quoteChar ∉ w) {v : List Char}
    (hv : v ∈ ws) : quoteChar ∉ v ∧ v ⊆ w ++ cs := by
  induction cs generalizing quoted w ws with
  | nil =>
    rw [words] at h
    split_ifs at h
    cases h
    rw [List.mem_singleton.mp hv, List.append_nil]
    exact ⟨hw, List.Subset.refl _⟩
  | cons c cs ih =>
    have hsub : w ++ cs ⊆ w ++ c :: cs :=
      List.append_subset.mpr ⟨List.subset_append_left _ _,
        List.Subset.trans (List.subset_cons_self c cs) (List.subset_append_right _ _)⟩
    rw [words] at h
    split_ifs at h with hq hspace
    · obtain ⟨hno, hin⟩ := ih h hw hv
      exact ⟨hno, List.Subset.trans hin hsub⟩
    · obtain ⟨ws', hws', rfl⟩ := Option.map_eq_some_iff.mp h
      rcases List.mem_cons.mp hv with rfl | hv
      · exact ⟨hw, List.subset_append_left _ _⟩
      · obtain ⟨hno, hin⟩ := ih hws' List.not_mem_nil hv
        exact ⟨hno, List.Subset.trans hin (List.Subset.trans (List.subset_append_right w cs) hsub)⟩
    · have hw' : quoteChar ∉ w ++ [c] := by simp [hw, Ne.symm hq]
      obtain ⟨hno, hin⟩ := ih h hw' hv
      rw [List.append_assoc] at hin
      exact ⟨hno, hin⟩

lemma words_line {verb : String} (hverb : Clean verb.toList) (hws : ∀ w ∈ ws, Clean w)
    (cs : List Char) : words false [] (line verb ws ++ ' ' :: cs) =
      (words false [] cs).map fun rest => verb.toList :: ws ++ rest := by
  suffices h : ∀ v : List Char, Clean v → words false [] (v ++ ws.flatMap (fun w => ' ' :: w) ++
      ' ' :: cs) = (words false [] cs).map fun rest => v :: ws ++ rest from h _ hverb
  induction ws with
  | nil =>
    intro v hv
    rw [List.flatMap_nil, List.append_nil, words_append hv.1 hv.2.2, words_space]
    rfl
  | cons w ws ih =>
    intro v hv
    obtain ⟨hw, hws⟩ := List.forall_mem_cons.mp hws
    rw [List.flatMap_cons, List.append_assoc, words_append hv.1 hv.2.2, List.nil_append,
      List.cons_append, List.cons_append, words_space]
    rw [ih hws w hw, Option.map_map]
    rfl

lemma words_clean (hws : ∀ w ∈ ws, Clean w) (v : List Char) :
    words false v (ws.flatMap fun w => ' ' :: w) = some (v :: ws) := by
  induction ws generalizing v with
  | nil => rfl
  | cons w ws ih =>
    obtain ⟨hw, hws⟩ := List.forall_mem_cons.mp hws
    rw [List.flatMap_cons, List.cons_append, words_space, words_append hw.1 hw.2.2, List.nil_append,
      ih hws, Option.map_some]

lemma words_last (hspace : ' ' ∉ s) (hquote : quoteChar ∉ s) : words false [] s = some [s] := by
  have h := words_append hspace hquote [] []
  rwa [List.append_nil, List.nil_append, words, if_neg (by decide)] at h

/-! ### What the reader returns -/

variable {text : String} {bytes rest : List UInt8} {m : Message}

lemma exists_words (h : read text bytes = some (m, rest)) :
    ∃ verb ws, words false [] (text.toList.takeWhile (· ≠ '\n')) = some (verb :: ws) ∧
      m.flags = (ws.takeWhile (· ≠ terminator)).filterMap flagOf := by
  unfold read at h
  dsimp only at h
  split at h
  next verb ws hws =>
    obtain ⟨payload, -, hm⟩ := Option.bind_eq_some_iff.mp h
    cases hm
    exact ⟨verb, ws, hws, rfl⟩
  · cases h

/-- No value that is read has a quote or a line end in it. -/
theorem quotable_of_read (h : read text bytes = some (m, rest)) :
    ∀ f ∈ m.flags, Quotable f.2.toList := by
  intro f hf
  obtain ⟨verb, ws, hws, hflags⟩ := exists_words h
  rw [hflags] at hf
  obtain ⟨word, hword, hflag⟩ := List.mem_filterMap.mp hf
  have hmem : word ∈ verb :: ws :=
    List.mem_cons_of_mem _ ((List.takeWhile_sublist _).subset hword)
  obtain ⟨hquote, hline⟩ := mem_words hws List.not_mem_nil hmem
  refine ⟨fun hn => ?_, fun hq => hquote (value_subset hflag hq)⟩
  simpa using List.mem_takeWhile_imp (hline (value_subset hflag hn))

/-- A name that can stand before the equals sign of a flag. -/
def IsName (name : String) : Prop := Clean name.toList ∧ '=' ∉ name.toList

instance : DecidablePred IsName := fun _ => inferInstanceAs (Decidable (_ ∧ _))

lemma clean_flag {name value : String} (hname : IsName name) (hvalue : Clean value.toList) :
    Clean (flag name value) := by
  obtain ⟨⟨h1, h2, h3⟩, -⟩ := hname
  obtain ⟨h4, h5, h6⟩ := hvalue
  refine ⟨?_, ?_, ?_⟩
  · simp [flag, h1, h4]
  · simp [flag, h2, h5]
  · simp only [flag, List.mem_cons, List.mem_append, not_or]
    exact ⟨by decide, by decide, h3, by decide, h6⟩

lemma flag_ne_terminator (name value : String) : flag name value ≠ terminator := by
  simp [flag, terminator]

/-- Flags by their names, all in one piece. -/
def CleanFlags (fs : FlagSet) : Prop := ∀ f ∈ fs, IsName f.1 ∧ Clean f.2.toList

lemma cleanFlags_nil : CleanFlags [] := fun _ h => nomatch h

lemma cleanFlags_cons {name value : String} {fs : FlagSet} (hname : IsName name)
    (hvalue : Clean value.toList) (h : CleanFlags fs) : CleanFlags ((name, value) :: fs) :=
  List.forall_mem_cons.mpr ⟨⟨hname, hvalue⟩, h⟩

lemma clean_flags {fs : FlagSet} (h : CleanFlags fs) :
    ∀ w ∈ fs.map fun f => flag f.1 f.2, Clean w := by
  intro w hw
  obtain ⟨f, hf, rfl⟩ := List.mem_map.mp hw
  exact clean_flag (h f hf).1 (h f hf).2

lemma takeWhile_flags (fs : FlagSet) (ws : List (List Char)) :
    ((fs.map fun f => flag f.1 f.2) ++ ws).takeWhile (· ≠ terminator) =
      (fs.map fun f => flag f.1 f.2) ++ ws.takeWhile (· ≠ terminator) := by
  refine List.takeWhile_append_of_pos fun w hw => ?_
  obtain ⟨f, -, rfl⟩ := List.mem_map.mp hw
  exact decide_eq_true (flag_ne_terminator _ _)

lemma dropWhile_flags (fs : FlagSet) (ws : List (List Char)) :
    ((fs.map fun f => flag f.1 f.2) ++ ws).dropWhile (· ≠ terminator) =
      ws.dropWhile (· ≠ terminator) := by
  refine List.dropWhile_append_of_pos fun w hw => ?_
  obtain ⟨f, -, rfl⟩ := List.mem_map.mp hw
  exact decide_eq_true (flag_ne_terminator _ _)

lemma filterMap_flags {fs : FlagSet} (h : CleanFlags fs) :
    (fs.map fun f => flag f.1 f.2).filterMap flagOf = fs := by
  rw [List.filterMap_map]
  calc fs.filterMap (flagOf ∘ fun f => flag f.1 f.2) = fs.filterMap some :=
        List.filterMap_congr fun f hf => flagOf_flag (h f hf).1.2 f.2
    _ = fs := List.filterMap_some

lemma newline_notMem_flags {verb : String} {fs : FlagSet} (hverb : Clean verb.toList)
    (hfs : CleanFlags fs) : '\n' ∉ line verb (fs.map fun f => flag f.1 f.2) :=
  newline_notMem_line hverb.2.1 fun w hw => (clean_flags hfs w hw).2.1

/-- **A flag that is read back is clean**: after flags that are, a value that comes back as it
was written has no quote, no line end, and no space, at which the word would have ended. -/
theorem clean_of_repeated {verb name value : String} {fs : FlagSet} {tail : List Char}
    {more : List String} (hverb : Clean verb.toList) (hfs : CleanFlags fs) (hname : IsName name)
    (htext : text.toList =
      line verb (fs.map fun f => flag f.1 f.2) ++ ' ' :: (flag name value ++ tail))
    (h : read text bytes = some (m, rest))
    (hvalues : GetRepeated m.flags name = GetRepeated fs name ++ value :: more) :
    Clean value.toList := by
  obtain ⟨hline, hquote⟩ : Quotable value.toList := by
    have hmem : value ∈ GetRepeated m.flags name := by simp [hvalues]
    obtain ⟨f, hf, rfl⟩ := List.mem_map.mp hmem
    exact quotable_of_read h f (List.mem_of_mem_filter hf)
  refine ⟨fun hspace => ?_, hline, hquote⟩
  -- the word ends at the first space of the value
  obtain ⟨a, b, hab, ha⟩ := List.eq_append_cons_of_mem hspace
  have hclean : Clean a := by
    refine ⟨ha, fun h => hline ?_, fun h => hquote ?_⟩ <;> rw [hab] <;>
      exact List.mem_append_left _ h
  obtain ⟨verb', ws, hws, hflags⟩ := exists_words h
  have hflag : flag name value = flag name (String.ofList a) ++ ' ' :: b := by
    simp [flag, hab]
  have hnl : '\n' ∉ line verb (fs.map fun f => flag f.1 f.2) ++ ' ' :: flag name value := by
    simp only [List.mem_append, List.mem_cons, not_or]
    refine ⟨newline_notMem_flags hverb hfs, by decide, ?_⟩
    simp [flag, hname.1.2.1, hline]
  have htake : text.toList.takeWhile (· ≠ '\n') =
      line verb (fs.map fun f => flag f.1 f.2) ++ ' ' ::
        (flag name (String.ofList a) ++ ' ' :: (b ++ tail.takeWhile (· ≠ '\n'))) := by
    have hall : ∀ c ∈ line verb (fs.map fun f => flag f.1 f.2) ++ ' ' :: flag name value,
        decide (c ≠ '\n') = true := fun c hc => decide_eq_true fun heq => hnl (heq ▸ hc)
    rw [htext, ← List.cons_append, ← List.append_assoc, List.takeWhile_append_of_pos hall, hflag]
    simp
  have hword : Clean (flag name (String.ofList a)) := clean_flag hname (by simpa using hclean)
  rw [htake, words_line hverb (clean_flags hfs), words_append hword.1 hword.2.2, List.nil_append,
    words_space, Option.map_map] at hws
  obtain ⟨ws', -, heq⟩ := Option.map_eq_some_iff.mp hws
  rw [Function.comp_apply, List.cons_append, List.cons.injEq] at heq
  obtain ⟨-, rfl⟩ := heq
  rw [hflags, takeWhile_flags, List.filterMap_append, filterMap_flags hfs, GetRepeated,
    List.filter_append, List.map_append, ← GetRepeated, List.append_cancel_left_eq] at hvalues
  simp only [List.takeWhile_cons, flag_ne_terminator, ne_eq, not_false_eq_true, decide_true,
    if_true, List.filterMap_cons, flagOf_flag hname.2, List.filter_cons, List.map_cons,
    List.cons.injEq] at hvalues
  have hval := congrArg String.toList hvalues.1
  rw [String.toList_ofList, hab] at hval
  have hlen := congrArg List.length hval
  simp at hlen

lemma exists_repeated {flags : FlagSet} {name value : String} (h : Lookup flags name = some value) :
    ∃ more, GetRepeated flags name = value :: more := by
  unfold GetRepeated
  obtain ⟨f, hf, rfl⟩ := Option.map_eq_some_iff.mp h
  rw [← List.head?_filter] at hf
  obtain ⟨more, hmore⟩ := List.head?_eq_some_iff.mp hf
  exact ⟨_, by rw [hmore, List.map_cons]⟩

/-- The first flag of its name. -/
lemma clean_of_lookup {verb name value : String} {fs : FlagSet} {tail : List Char}
    (hverb : Clean verb.toList) (hfs : CleanFlags fs) (hnew : ∀ f ∈ fs, f.1 ≠ name)
    (hname : IsName name)
    (htext : text.toList =
      line verb (fs.map fun f => flag f.1 f.2) ++ ' ' :: (flag name value ++ tail))
    (h : read text bytes = some (m, rest)) (hlookup : Lookup m.flags name = some value) :
    Clean value.toList := by
  obtain ⟨more, hmore⟩ := exists_repeated hlookup
  have hvalues : GetRepeated m.flags name = GetRepeated fs name ++ value :: more := by
    rw [hmore, GetRepeated, List.filter_eq_nil_iff.mpr (by simpa using hnew)]
    rfl
  exact clean_of_repeated hverb hfs hname htext h hvalues

/-! ### Lines of clean words -/

lemma read_of_words {l : List Char} {verb : List Char} (htext : text.toList = l ++ ['\n'])
    (hl : '\n' ∉ l) (hwords : words false [] l = some (verb :: ws)) :
    read text bytes = (payloadOf bytes (ws.dropWhile (· ≠ terminator))).map fun payload =>
      (⟨String.ofList verb, (ws.takeWhile (· ≠ terminator)).filterMap flagOf, payload⟩,
        bytes.drop payload.length) := by
  have hall : ∀ c ∈ l, decide (c ≠ '\n') = true :=
    fun c hc => decide_eq_true fun heq => hl (heq ▸ hc)
  have htake : text.toList.takeWhile (· ≠ '\n') = l := by
    rw [htext, List.takeWhile_append_of_pos hall]
    simp
  have hdrop : (text.toList.dropWhile (· ≠ '\n')).tail = [] := by
    rw [htext, List.dropWhile_append_of_pos hall]
    simp
  unfold read
  rw [htake, hdrop]
  simp only [hwords]
  simp [Option.map_eq_bind]

lemma words_flags {verb : String} {fs : FlagSet} (hverb : Clean verb.toList)
    (hfs : CleanFlags fs) {cs : List Char} (hcs : words false [] cs = some ws) :
    words false [] (line verb (fs.map fun f => flag f.1 f.2) ++ ' ' :: cs) =
      some (verb.toList :: ((fs.map fun f => flag f.1 f.2) ++ ws)) := by
  rw [words_line hverb (clean_flags hfs), hcs]
  rfl

/-- **Clean words.** -/
lemma read_words {verb : String} (hverb : Clean verb.toList) (hws : ∀ w ∈ ws, Clean w)
    (htext : text.toList = line verb ws ++ ['\n']) :
    read text bytes = (payloadOf bytes (ws.dropWhile (· ≠ terminator))).map fun payload =>
      (⟨verb, (ws.takeWhile (· ≠ terminator)).filterMap flagOf, payload⟩,
        bytes.drop payload.length) := by
  have hwords : words false [] (line verb ws) = some (verb.toList :: ws) := by
    rw [line, words_append hverb.1 hverb.2.2, List.nil_append, words_clean hws]
  rw [read_of_words htext (newline_notMem_line hverb.2.1 fun w hw => (hws w hw).2.1) hwords,
    String.ofList_toList]

/-- **Flags and one more word.** -/
lemma read_flags {verb : String} {fs : FlagSet} {w cs : List Char} {flags : FlagSet}
    (hverb : Clean verb.toList) (hfs : CleanFlags fs) (hcs : words false [] cs = some [w])
    (hnl : '\n' ∉ cs) (hw : w ≠ terminator) (hflag : [w].filterMap flagOf = flags)
    (htext : text.toList = line verb (fs.map fun f => flag f.1 f.2) ++ ' ' :: cs ++ ['\n']) :
    read text [] = some (⟨verb, fs ++ flags, []⟩, []) := by
  have hl : '\n' ∉ line verb (fs.map fun f => flag f.1 f.2) ++ ' ' :: cs := by
    simp only [List.mem_append, List.mem_cons, not_or]
    exact ⟨newline_notMem_flags hverb hfs, by decide, hnl⟩
  rw [read_of_words htext hl (words_flags hverb hfs hcs), dropWhile_flags, takeWhile_flags,
    List.filterMap_append, filterMap_flags hfs]
  simp only [List.dropWhile_cons, List.takeWhile_cons, hw, ne_eq, not_false_eq_true, decide_true,
    if_true, List.dropWhile_nil, List.takeWhile_nil, hflag, payloadOf, Option.map_some]
  simp

/-- **Flags and a payload.** -/
lemma read_payload {verb : String} {fs : FlagSet} {data : List UInt8}
    (hverb : Clean verb.toList) (hfs : CleanFlags fs)
    (htext : text.toList = line verb (fs.map fun f => flag f.1 f.2) ++
      ' ' :: (terminator ++ ' ' :: formatInt data.length) ++ ['\n']) :
    read text data = some (⟨verb, fs, data⟩, []) := by
  have hdigits : ∀ c ∈ formatInt data.length, c.isDigit = true := isDigit_toDigits _
  have hspace : ' ' ∉ formatInt data.length := fun h => absurd (hdigits _ h) (by decide)
  have hquote : quoteChar ∉ formatInt data.length := fun h => absurd (hdigits _ h) (by decide)
  have hnl : '\n' ∉ formatInt data.length := fun h => absurd (hdigits _ h) (by decide)
  have hcs : words false [] (terminator ++ ' ' :: formatInt data.length) =
      some [terminator, formatInt data.length] := by
    rw [words_append (by decide) (by decide), List.nil_append, words_space,
      words_last hspace hquote]
    rfl
  have hl : '\n' ∉ line verb (fs.map fun f => flag f.1 f.2) ++
      ' ' :: (terminator ++ ' ' :: formatInt data.length) := by
    simp only [List.mem_append, List.mem_cons, not_or]
    exact ⟨newline_notMem_flags hverb hfs, by decide, by decide, by decide, hnl⟩
  rw [read_of_words htext hl (words_flags hverb hfs hcs), dropWhile_flags, takeWhile_flags,
    List.filterMap_append, filterMap_flags hfs]
  have hlen : parseNat (formatInt data.length) = some data.length := parseNat_toDigits _
  simp [payloadOf, hlen]

/-- **Clean flags**, the last of them by itself. -/
lemma read_clean {verb name value : String} {fs : FlagSet} (hverb : Clean verb.toList)
    (hfs : CleanFlags fs) (hname : IsName name) (hvalue : Clean value.toList)
    (htext : text.toList =
      line verb (fs.map fun f => flag f.1 f.2) ++ ' ' :: flag name value ++ ['\n']) :
    read text [] = some (⟨verb, fs ++ [(name, value)], []⟩, []) := by
  have hflag := clean_flag hname hvalue
  exact read_flags hverb hfs (words_last hflag.1 hflag.2.2) hflag.2.1 (flag_ne_terminator _ _)
    (by simp [flagOf_flag hname.2]) htext

/-! ### A quoted flag at the end of a line -/

def quotedFlag (name value : String) : List Char :=
  flag name "" ++ quoteChar :: (value.toList ++ [quoteChar])

lemma words_quotedFlag {name value : String} (hname : IsName name)
    (hvalue : quoteChar ∉ value.toList) :
    words false [] (quotedFlag name value) = some [flag name value] := by
  have hflag : Clean (flag name "") := clean_flag hname (by decide)
  rw [quotedFlag, words_append hflag.1 hflag.2.2, words, if_pos rfl, Bool.not_false,
    words_quoted hvalue, words, if_neg (by decide)]
  simp [flag]

/-- A line cannot end inside quotes. -/
lemma words_unclosed (hquote : quoteChar ∉ s) (w : List Char) : words true w s = none := by
  induction s generalizing w with
  | nil => rfl
  | cons c s ih =>
    obtain ⟨hq, hquote⟩ := not_or.mp (mt List.mem_cons.mpr hquote)
    rw [words, if_neg (Ne.symm hq), if_neg (fun h => nomatch h.2), ih hquote]

section Quoted

variable {verb name value : String} {fs : FlagSet} (hverb : Clean verb.toList)
  (hfs : CleanFlags fs) (hname : IsName name)
  (htext : text.toList =
    line verb (fs.map fun f => flag f.1 f.2) ++ ' ' :: quotedFlag name value ++ ['\n'])

include hverb hfs hname htext

/-- **Flags, and a last one with its value in quotes.** -/
lemma read_quoted (hvalue : Quotable value.toList) :
    read text [] = some (⟨verb, fs ++ [(name, value)], []⟩, []) := by
  have hnl : '\n' ∉ quotedFlag name value := by
    have hflag : Clean (flag name "") := clean_flag hname (by decide)
    simp only [quotedFlag, List.mem_append, List.mem_cons, List.not_mem_nil, or_false, not_or]
    exact ⟨hflag.2.1, by decide, hvalue.1, by decide⟩
  exact read_flags hverb hfs (words_quotedFlag hname hvalue.2) hnl (flag_ne_terminator _ _)
    (by simp [flagOf_flag hname.2]) htext

/-- A value with a line end in it breaks the line inside the quotes. -/
lemma read_broken (hline : '\n' ∈ value.toList) (hquote : quoteChar ∉ value.toList) :
    read text bytes = none := by
  obtain ⟨a, b, hab, ha⟩ := List.eq_append_cons_of_mem hline
  have hflag : Clean (flag name "") := clean_flag hname (by decide)
  have hqa : quoteChar ∉ a := fun h => hquote (hab ▸ List.mem_append_left _ h)
  have hall : ∀ c ∈ line verb (fs.map fun f => flag f.1 f.2) ++
      ' ' :: (flag name "" ++ quoteChar :: a), decide (c ≠ '\n') = true := by
    intro c hc
    refine decide_eq_true fun heq => ?_
    subst heq
    simp only [List.mem_append, List.mem_cons] at hc
    rcases hc with hc | hc | hc | hc | hc
    · exact newline_notMem_flags hverb hfs hc
    · exact absurd hc (by decide)
    · exact hflag.2.1 hc
    · exact absurd hc (by decide)
    · exact ha hc
  have htake : text.toList.takeWhile (· ≠ '\n') = line verb (fs.map fun f => flag f.1 f.2) ++
      ' ' :: (flag name "" ++ quoteChar :: a) := by
    have hsplit : text.toList = (line verb (fs.map fun f => flag f.1 f.2) ++
        ' ' :: (flag name "" ++ quoteChar :: a)) ++ '\n' :: (b ++ [quoteChar] ++ ['\n']) := by
      rw [htext, quotedFlag, hab]
      simp
    rw [hsplit, List.takeWhile_append_of_pos hall]
    simp
  have hwords : words false [] (text.toList.takeWhile (· ≠ '\n')) = none := by
    rw [htake, words_line hverb (clean_flags hfs), words_append hflag.1 hflag.2.2, words,
      if_pos rfl, Bool.not_false, words_unclosed hqa]
    rfl
  unfold read
  dsimp only
  rw [hwords]

end Quoted

end Workforce.QuotedArgv
