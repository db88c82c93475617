import Mathlib.Tactic

/-!
JSON texts, read byte by byte.

The scanner is the usual pushdown machine: a mode for the place inside the present value and a
stack of the arrays and objects that are still open, bounded by a nesting limit. It builds the
value as it goes. Strings and numbers are kept as they are spelled, so a value determines its
compact text, and reading that text gives the value back.
-/

namespace Workforce.Json

abbrev Bytes := List UInt8

/-- A JSON value. Strings are kept without their quotes and with their escapes. -/
inductive Value
  | null
  | bool (b : Bool)
  | num (text : Bytes)
  | str (raw : Bytes)
  | arr (elems : List Value)
  | obj (members : List (Bytes × Value))

/-! ### Characters -/

abbrev quoteMark : UInt8 := 0x22
abbrev comma : UInt8 := 0x2c
abbrev colon : UInt8 := 0x3a
abbrev openBracket : UInt8 := 0x5b
abbrev backslash : UInt8 := 0x5c
abbrev closeBracket : UInt8 := 0x5d
abbrev openBrace : UInt8 := 0x7b
abbrev closeBrace : UInt8 := 0x7d
abbrev space : UInt8 := 0x20
abbrev newline : UInt8 := 0x0a

def isSpace (b : UInt8) : Bool := b = space || b = 0x09 || b = 0x0d || b = newline

def isDigit (b : UInt8) : Bool := 0x30 ≤ b && b ≤ 0x39

def isHex (b : UInt8) : Bool := isDigit b || (0x61 ≤ b && b ≤ 0x66) || (0x41 ≤ b && b ≤ 0x46)

/-! ### Strings and numbers -/

/-- Where the scanner is inside a string: between characters, after a backslash, or with
`left + 1` hexadecimal digits to come. -/
inductive StrMode
  | plain
  | escape
  | hex (left : ℕ)
  deriving DecidableEq

def StrMode.step (m : StrMode) (b : UInt8) : Option StrMode :=
  match m with
  | .plain =>
    if b = quoteMark then none
    else if b = backslash then some .escape
    else if b < 0x20 then none
    else some .plain
  | .escape =>
    -- b f n r t \ / "
    if b ∈ [0x62, 0x66, 0x6e, 0x72, 0x74, backslash, 0x2f, quoteMark] then some .plain
    else if b = 0x75 then some (.hex 3)
    else none
  | .hex left =>
    if isHex b then some (match left with | 0 => .plain | n + 1 => .hex n) else none

inductive NumMode
  | start | neg | zero | int | dot | frac | e | sign | exp
  deriving DecidableEq

def NumMode.point (b : UInt8) : Option NumMode :=
  if b = 0x2e then some .dot else if b = 0x65 ∨ b = 0x45 then some .e else none

def NumMode.first (b : UInt8) : Option NumMode :=
  if b = 0x30 then some .zero else if isDigit b then some .int else none

def NumMode.step (m : NumMode) (b : UInt8) : Option NumMode :=
  match m with
  | .start => if b = 0x2d then some .neg else first b
  | .neg => first b
  | .zero => point b
  | .int => if isDigit b then some .int else point b
  | .dot => if isDigit b then some .frac else none
  | .frac => if isDigit b then some .frac else if b = 0x65 ∨ b = 0x45 then some .e else none
  | .e => if b = 0x2b ∨ b = 0x2d then some .sign else if isDigit b then some .exp else none
  | .sign | .exp => if isDigit b then some .exp else none

def NumMode.final : NumMode → Bool
  | .zero | .int | .frac | .exp => true
  | _ => false

def StrOk (raw : Bytes) : Prop := raw.foldlM StrMode.step .plain = some .plain

def NumOk (text : Bytes) : Prop := ∃ m, text.foldlM NumMode.step .start = some m ∧ m.final = true

instance : DecidablePred StrOk := fun raw => by unfold StrOk; infer_instance

/-! ### The scanner -/

/-- An open array with the elements before the present one, or an open object with the members
before the present one, at a key or at the value of a key. -/
inductive Frame
  | arr (done : List Value)
  | key (done : List (Bytes × Value))
  | val (done : List (Bytes × Value)) (k : Bytes)

inductive Mode
  | beginValue
  | beginValueOrEmpty
  | beginStringOrEmpty
  | beginString
  | inString (m : StrMode) (raw : Bytes)
  | inNumber (m : NumMode) (text : Bytes)
  | inLiteral (rest : Bytes) (v : Value)
  | endValue (v : Value)

structure Scanner where
  mode : Mode
  frames : List Frame

/-- After a value: what follows it depends on what it is part of. -/
def endValue (v : Value) (fs : List Frame) (b : UInt8) : Option Scanner :=
  if isSpace b then some ⟨.endValue v, fs⟩
  else match fs with
    | [] => none
    | .key done :: fs =>
      match v with
      | .str k => if b = colon then some ⟨.beginValue, .val done k :: fs⟩ else none
      | _ => none
    | .val done k :: fs =>
      if b = comma then some ⟨.beginString, .key (done ++ [(k, v)]) :: fs⟩
      else if b = closeBrace then some ⟨.endValue (.obj (done ++ [(k, v)])), fs⟩
      else none
    | .arr done :: fs =>
      if b = comma then some ⟨.beginValue, .arr (done ++ [v]) :: fs⟩
      else if b = closeBracket then some ⟨.endValue (.arr (done ++ [v])), fs⟩
      else none

/-- Open an array or an object, unless that exceeds the nesting limit. -/
def push (limit : ℕ) (mode : Mode) (f : Frame) (fs : List Frame) : Option Scanner :=
  if fs.length + 1 ≤ limit then some ⟨mode, f :: fs⟩ else none

def pop (v : Value) : List Frame → Option Scanner
  | [] => none
  | _ :: fs => some ⟨.endValue v, fs⟩

def beginValue (limit : ℕ) (fs : List Frame) (b : UInt8) : Option Scanner :=
  if isSpace b then some ⟨.beginValue, fs⟩
  else if b = openBrace then push limit .beginStringOrEmpty (.key []) fs
  else if b = openBracket then push limit .beginValueOrEmpty (.arr []) fs
  else if b = quoteMark then some ⟨.inString .plain [], fs⟩
  else if b = 0x74 then some ⟨.inLiteral [0x72, 0x75, 0x65] (.bool true), fs⟩
  else if b = 0x66 then some ⟨.inLiteral [0x61, 0x6c, 0x73, 0x65] (.bool false), fs⟩
  else if b = 0x6e then some ⟨.inLiteral [0x75, 0x6c, 0x6c] .null, fs⟩
  else (NumMode.start.step b).map fun m => ⟨.inNumber m [b], fs⟩

def beginString (fs : List Frame) (b : UInt8) : Option Scanner :=
  if isSpace b then some ⟨.beginString, fs⟩
  else if b = quoteMark then some ⟨.inString .plain [], fs⟩
  else none

namespace Scanner

def step (limit : ℕ) (s : Scanner) (b : UInt8) : Option Scanner :=
  match s.mode with
  | .beginValue => Json.beginValue limit s.frames b
  | .beginValueOrEmpty =>
    if isSpace b then some s
    else if b = closeBracket then pop (.arr []) s.frames
    else Json.beginValue limit s.frames b
  | .beginStringOrEmpty =>
    if isSpace b then some s
    else if b = closeBrace then pop (.obj []) s.frames
    else Json.beginString s.frames b
  | .beginString => Json.beginString s.frames b
  | .inString m raw =>
    if m = .plain ∧ b = quoteMark then some ⟨.endValue (.str raw), s.frames⟩
    else (m.step b).map fun m => ⟨.inString m (raw ++ [b]), s.frames⟩
  | .inNumber m text =>
    match m.step b with
    | some m => some ⟨.inNumber m (text ++ [b]), s.frames⟩
    | none => if m.final then Json.endValue (.num text) s.frames b else none
  | .inLiteral rest v =>
    match rest with
    | [] => none
    | [c] => if b = c then some ⟨.endValue v, s.frames⟩ else none
    | c :: rest => if b = c then some ⟨.inLiteral rest v, s.frames⟩ else none
  | .endValue v => Json.endValue v s.frames b

def run (limit : ℕ) (s : Scanner) (bs : Bytes) : Option Scanner := bs.foldlM (step limit) s

/-- The end of the text counts as a space. -/
def finish (limit : ℕ) (s : Scanner) : Option Value :=
  match s.step limit space with
  | some ⟨.endValue v, []⟩ => some v
  | _ => none

def start : Scanner := ⟨.beginValue, []⟩

end Scanner

def parse (limit : ℕ) (bs : Bytes) : Option Value :=
  (Scanner.start.run limit bs).bind (Scanner.finish limit)

/-! ### The compact text of a value -/

mutual

def render : Value → Bytes
  | .null => [0x6e, 0x75, 0x6c, 0x6c]
  | .bool true => [0x74, 0x72, 0x75, 0x65]
  | .bool false => [0x66, 0x61, 0x6c, 0x73, 0x65]
  | .num text => text
  | .str raw => quoteMark :: raw ++ [quoteMark]
  | .arr elems => openBracket :: renderElems elems ++ [closeBracket]
  | .obj members => openBrace :: renderMembers members ++ [closeBrace]

def renderElems : List Value → Bytes
  | [] => []
  | [v] => render v
  | v :: vs => render v ++ comma :: renderElems vs

def renderMembers : List (Bytes × Value) → Bytes
  | [] => []
  | [(k, v)] => quoteMark :: k ++ quoteMark :: colon :: render v
  | (k, v) :: ms => quoteMark :: k ++ quoteMark :: colon :: render v ++ comma :: renderMembers ms

end

/-- A value whose strings and numbers are spelled right, nested at most `d` deep. -/
inductive WellFormed : ℕ → Value → Prop
  | null {d : ℕ} : WellFormed d .null
  | bool {d : ℕ} (b : Bool) : WellFormed d (.bool b)
  | num {d : ℕ} {text : Bytes} (h : NumOk text) : WellFormed d (.num text)
  | str {d : ℕ} {raw : Bytes} (h : StrOk raw) : WellFormed d (.str raw)
  | arr {d : ℕ} {elems : List Value} (h : ∀ v ∈ elems, WellFormed d v) :
      WellFormed (d + 1) (.arr elems)
  | obj {d : ℕ} {members : List (Bytes × Value)} (hk : ∀ m ∈ members, StrOk m.1)
      (h : ∀ m ∈ members, WellFormed d m.2) : WellFormed (d + 1) (.obj members)

/-! ### Reading a text back -/

variable {limit d : ℕ} {v : Value} {fs : List Frame}

namespace Scanner

@[simp] lemma run_nil (s : Scanner) : s.run limit [] = some s := rfl

lemma run_cons (s : Scanner) (b : UInt8) (bs : Bytes) :
    s.run limit (b :: bs) = (s.step limit b).bind fun t => t.run limit bs := rfl

lemma run_append (s : Scanner) (bs bs' : Bytes) :
    s.run limit (bs ++ bs') = (s.run limit bs).bind fun t => t.run limit bs' :=
  List.foldlM_append

lemma run_of_step {s t : Scanner} {b : UInt8} (h : s.step limit b = some t) (bs : Bytes) :
    s.run limit (b :: bs) = t.run limit bs := by
  rw [run_cons, h]
  rfl

lemma run_of_run {s t : Scanner} {bs : Bytes} (h : s.run limit bs = some t) (bs' : Bytes) :
    s.run limit (bs ++ bs') = t.run limit bs' := by
  rw [run_append, h]
  rfl

end Scanner

open Scanner

lemma run_inString {m m' : StrMode} {raw : Bytes} (h : raw.foldlM StrMode.step m = some m')
    (acc : Bytes) :
    Scanner.run limit ⟨.inString m acc, fs⟩ raw = some ⟨.inString m' (acc ++ raw), fs⟩ := by
  induction raw generalizing m acc with
  | nil =>
    cases h
    rw [List.append_nil]
    rfl
  | cons b raw ih =>
    obtain ⟨m₁, hm₁, h⟩ := Option.bind_eq_some_iff.mp h
    -- a closing quote is no byte of the inside of a string
    have hq : ¬(m = .plain ∧ b = quoteMark) := by
      rintro ⟨rfl, rfl⟩
      cases hm₁
    have hs : Scanner.step limit ⟨.inString m acc, fs⟩ b =
        some ⟨.inString m₁ (acc ++ [b]), fs⟩ := by
      simp only [Scanner.step, if_neg hq, hm₁, Option.map_some]
    rw [run_of_step hs, ih h, List.append_assoc]
    rfl

lemma run_inNumber {m m' : NumMode} {text : Bytes} (h : text.foldlM NumMode.step m = some m')
    (acc : Bytes) :
    Scanner.run limit ⟨.inNumber m acc, fs⟩ text = some ⟨.inNumber m' (acc ++ text), fs⟩ := by
  induction text generalizing m acc with
  | nil =>
    cases h
    rw [List.append_nil]
    rfl
  | cons b text ih =>
    obtain ⟨m₁, hm₁, h⟩ := Option.bind_eq_some_iff.mp h
    have hs : Scanner.step limit ⟨.inNumber m acc, fs⟩ b =
        some ⟨.inNumber m₁ (acc ++ [b]), fs⟩ := by
      simp only [Scanner.step, hm₁]
    rw [run_of_step hs, ih h, List.append_assoc]
    rfl

lemma run_quoted {raw : Bytes} (h : StrOk raw) (bs : Bytes) :
    Scanner.run limit ⟨.inString .plain [], fs⟩ (raw ++ quoteMark :: bs) =
      Scanner.run limit ⟨.endValue (.str raw), fs⟩ bs := by
  rw [run_of_run (run_inString h [])]
  exact run_of_step rfl bs

lemma NumMode.first_byte {m : NumMode} {b : UInt8} (h : NumMode.start.step b = some m) :
    b = 0x2d ∨ isDigit b = true := by
  by_contra hb
  obtain ⟨hminus, hdigit⟩ := not_or.mp hb
  have hzero : b ≠ 0x30 := by
    rintro rfl
    exact hdigit rfl
  simp [NumMode.step, NumMode.first, hminus, hzero, hdigit] at h

lemma isDigit_iff {b : UInt8} : isDigit b = true ↔ 48 ≤ b.toNat ∧ b.toNat ≤ 57 := by
  simp [isDigit, UInt8.le_iff_toNat_le]

lemma beginValue_of_number (limit : ℕ) (fs : List Frame) {m : NumMode} {b : UInt8}
    (h : NumMode.start.step b = some m) :
    beginValue limit fs b = some ⟨.inNumber m [b], fs⟩ ∧ isSpace b = false ∧ b ≠ closeBracket := by
  have hb : 45 ≤ b.toNat ∧ b.toNat ≤ 57 := by
    rcases NumMode.first_byte h with rfl | hd
    · decide
    · have hd := isDigit_iff.mp hd
      omega
  have hne (c : UInt8) (hc : c.toNat < 45 ∨ 57 < c.toNat) : b ≠ c := by
    rintro rfl
    omega
  have hspace : isSpace b = false := by
    simp [isSpace, hne space (by decide), hne 0x09 (by decide), hne 0x0d (by decide),
      hne newline (by decide)]
  refine ⟨?_, hspace, hne _ (by decide)⟩
  simp [beginValue, hspace, hne openBrace (by decide), hne openBracket (by decide),
    hne quoteMark (by decide), hne 0x74 (by decide), hne 0x66 (by decide),
    hne 0x6e (by decide), h]

/-- The scanner has read the value: what follows it is treated as after a value. -/
def Reads (limit : ℕ) (v : Value) (fs : List Frame) (s : Scanner) : Prop :=
  ∀ b, (∀ m : NumMode, m.step b = none) → s.step limit b = endValue v fs b

lemma reads_endValue : Reads limit v fs ⟨.endValue v, fs⟩ := fun _ _ => rfl

lemma reads_number {m : NumMode} {text : Bytes} (h : m.final = true) :
    Reads limit (.num text) fs ⟨.inNumber m text, fs⟩ := by
  intro b hb
  simp only [Scanner.step, hb m, if_pos h]

lemma comma_not_number (m : NumMode) : m.step comma = none := by cases m <;> decide
lemma closeBrace_not_number (m : NumMode) : m.step closeBrace = none := by cases m <;> decide
lemma closeBracket_not_number (m : NumMode) : m.step closeBracket = none := by cases m <;> decide
lemma space_not_number (m : NumMode) : m.step space = none := by cases m <;> decide

/-- The first byte of a value is neither a space nor the end of an array. -/
lemma render_head (h : WellFormed d v) :
    ∃ b bs, render v = b :: bs ∧ isSpace b = false ∧ b ≠ closeBracket := by
  cases h with
  | null => exact ⟨_, _, rfl, by decide, by decide⟩
  | bool b => cases b <;> exact ⟨_, _, rfl, by decide, by decide⟩
  | num h =>
    obtain ⟨m, h, hm⟩ := h
    rename_i text
    cases text with
    | nil =>
      cases h
      exact absurd hm (by decide)
    | cons b bs =>
      obtain ⟨m₁, hm₁, -⟩ := Option.bind_eq_some_iff.mp h
      exact ⟨b, bs, rfl, (beginValue_of_number 0 [] hm₁).2⟩
  | str | arr | obj => exact ⟨_, _, rfl, by decide, by decide⟩

/-- Wherever there is room for `d` more levels, the text of the value is read. -/
def Readable (limit d : ℕ) (v : Value) : Prop :=
  ∀ fs : List Frame, fs.length + d ≤ limit →
    ∃ s, Scanner.run limit ⟨.beginValue, fs⟩ (render v) = some s ∧ Reads limit v fs s

lemma Readable.run_then (h : Readable limit d v) (fs : List Frame)
    (hfs : fs.length + d ≤ limit) {b : UInt8} (hb : ∀ m : NumMode, m.step b = none) {t : Scanner}
    (ht : endValue v fs b = some t)
    (bs : Bytes) : Scanner.run limit ⟨.beginValue, fs⟩ (render v ++ b :: bs) = t.run limit bs := by
  obtain ⟨s, hs, hreads⟩ := h fs hfs
  rw [run_of_run hs, run_of_step ((hreads b hb).trans ht)]

lemma run_elems (fs : List Frame) {vs : List Value} (h : ∀ w ∈ v :: vs, Readable limit d w)
    (hfs : fs.length + 1 + d ≤ limit) (done : List Value) (bs : Bytes) :
    Scanner.run limit ⟨.beginValue, .arr done :: fs⟩
        (renderElems (v :: vs) ++ closeBracket :: bs) =
      Scanner.run limit ⟨.endValue (.arr (done ++ v :: vs)), fs⟩ bs := by
  induction vs generalizing v done with
  | nil =>
    exact (h v (by simp)).run_then (.arr done :: fs) hfs closeBracket_not_number rfl bs
  | cons w vs ih =>
    have hnext := (h v (by simp)).run_then (.arr done :: fs) hfs comma_not_number rfl
      (renderElems (w :: vs) ++ closeBracket :: bs)
    have hrest := ih (List.forall_mem_cons.mp h).2 (done ++ [v])
    have htext : renderElems (v :: w :: vs) ++ closeBracket :: bs =
        render v ++ comma :: (renderElems (w :: vs) ++ closeBracket :: bs) := by
      simp [renderElems]
    rw [htext, hnext, hrest, List.append_assoc]
    rfl

lemma run_member {k : Bytes} (hk : StrOk k) (h : Readable limit d v)
    (hfs : fs.length + 1 + d ≤ limit) (done : List (Bytes × Value)) {b : UInt8}
    (hb : ∀ m : NumMode, m.step b = none) {t : Scanner}
    (ht : endValue v (.val done k :: fs) b = some t) (bs : Bytes) :
    Scanner.run limit ⟨.beginString, .key done :: fs⟩
        (quoteMark :: k ++ quoteMark :: colon :: render v ++ b :: bs) = t.run limit bs := by
  have hopen : Scanner.step limit ⟨.beginString, .key done :: fs⟩ quoteMark =
      some ⟨.inString .plain [], .key done :: fs⟩ := rfl
  have hcolon : Scanner.step limit ⟨.endValue (.str k), .key done :: fs⟩ colon =
      some ⟨.beginValue, .val done k :: fs⟩ := rfl
  have htext : quoteMark :: k ++ quoteMark :: colon :: render v ++ b :: bs =
      quoteMark :: (k ++ quoteMark :: colon :: (render v ++ b :: bs)) := by simp
  rw [htext, run_of_step hopen, run_quoted hk, run_of_step hcolon]
  exact h.run_then (.val done k :: fs) hfs hb ht bs

lemma run_members (fs : List Frame) {m : Bytes × Value} {ms : List (Bytes × Value)}
    (hk : ∀ n ∈ m :: ms, StrOk n.1) (h : ∀ n ∈ m :: ms, Readable limit d n.2)
    (hfs : fs.length + 1 + d ≤ limit) (done : List (Bytes × Value)) (bs : Bytes) :
    Scanner.run limit ⟨.beginString, .key done :: fs⟩
        (renderMembers (m :: ms) ++ closeBrace :: bs) =
      Scanner.run limit ⟨.endValue (.obj (done ++ m :: ms)), fs⟩ bs := by
  induction ms generalizing m done with
  | nil =>
    exact run_member (hk m (by simp)) (h m (by simp)) hfs done closeBrace_not_number rfl bs
  | cons n ms ih =>
    have hnext := run_member (hk m (by simp)) (h m (by simp)) hfs done comma_not_number rfl
      (renderMembers (n :: ms) ++ closeBrace :: bs)
    have hrest := ih (List.forall_mem_cons.mp hk).2 (List.forall_mem_cons.mp h).2 (done ++ [m])
    have htext : renderMembers (m :: n :: ms) ++ closeBrace :: bs =
        quoteMark :: m.1 ++ quoteMark :: colon :: render m.2 ++
          comma :: (renderMembers (n :: ms) ++ closeBrace :: bs) := by
      simp [renderMembers]
    rw [htext, hnext, hrest, List.append_assoc]
    rfl

/-- **Scanning a compact text.** -/
theorem readable (h : WellFormed d v) : Readable limit d v := by
  induction h with
  | null => exact fun fs _ => ⟨_, rfl, reads_endValue⟩
  | bool b =>
    cases b
    · exact fun fs _ => ⟨_, rfl, reads_endValue⟩
    · exact fun fs _ => ⟨_, rfl, reads_endValue⟩
  | @num d text h =>
    intro fs _
    obtain ⟨m, h, hm⟩ := h
    cases text with
    | nil =>
      cases h
      cases hm
    | cons b text =>
      obtain ⟨m₁, hm₁, h⟩ := Option.bind_eq_some_iff.mp h
      have hs : Scanner.step limit ⟨.beginValue, fs⟩ b = some ⟨.inNumber m₁ [b], fs⟩ :=
        (beginValue_of_number limit fs hm₁).1
      exact ⟨_, (run_of_step hs text).trans (run_inNumber h [b]), reads_number hm⟩
  | @str d raw h =>
    intro fs _
    have hs : Scanner.step limit ⟨.beginValue, fs⟩ quoteMark =
        some ⟨.inString .plain [], fs⟩ := rfl
    exact ⟨_, (run_of_step hs _).trans (run_quoted h []), reads_endValue⟩
  | @arr d elems h ih =>
    intro fs hfs
    have hs : Scanner.step limit ⟨.beginValue, fs⟩ openBracket =
        some ⟨.beginValueOrEmpty, .arr [] :: fs⟩ :=
      if_pos (show fs.length + 1 ≤ limit by omega)
    refine ⟨⟨.endValue (.arr elems), fs⟩, ?_, reads_endValue⟩
    rw [render, List.cons_append, run_of_step hs]
    cases elems with
    | nil => rfl
    | cons w vs =>
      -- the first element is entered through the mode that also allows the end
      have hrun := run_elems fs (fun w' hw' => ih w' hw') (by omega) [] []
      refine Eq.trans ?_ hrun
      obtain ⟨b, bs, hb, hspace, hne⟩ := render_head (h w (by simp))
      have hhead : ∃ bs', renderElems (w :: vs) ++ [closeBracket] = b :: bs' := by
        cases vs with
        | nil => exact ⟨bs ++ [closeBracket], by simp [renderElems, hb]⟩
        | cons w' vs =>
          exact ⟨bs ++ comma :: renderElems (w' :: vs) ++ [closeBracket], by simp [renderElems, hb]⟩
      obtain ⟨bs', hbs'⟩ := hhead
      rw [hbs', run_cons, run_cons]
      simp [Scanner.step, hspace, hne]
  | @obj d members hk h ih =>
    intro fs hfs
    have hs : Scanner.step limit ⟨.beginValue, fs⟩ openBrace =
        some ⟨.beginStringOrEmpty, .key [] :: fs⟩ :=
      if_pos (show fs.length + 1 ≤ limit by omega)
    refine ⟨⟨.endValue (.obj members), fs⟩, ?_, reads_endValue⟩
    rw [render, List.cons_append, run_of_step hs]
    cases members with
    | nil => rfl
    | cons m ms =>
      have hrun := run_members fs hk (fun n hn => ih n hn) (by omega) [] []
      refine Eq.trans ?_ hrun
      cases ms <;> rfl

/-- **Round trip.** The compact text of a well-formed value is valid and stands for it. -/
theorem parse_render (h : WellFormed limit v) : parse limit (render v) = some v := by
  have hread : Readable limit limit v := readable h
  obtain ⟨s, hs, hreads⟩ := hread [] (by simp)
  rw [parse, show Scanner.start = ⟨.beginValue, []⟩ from rfl, hs, Option.bind_some,
    Scanner.finish, hreads space space_not_number]
  rfl

end Workforce.Json
