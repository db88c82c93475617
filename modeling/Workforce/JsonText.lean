import Workforce.Decimal
import Workforce.JsonScan

/-!
Texts and integers in JSON: how they are spelled and how they are read back.

The spelling of a text is a sequence of chunks, one for each character: its UTF-8 code or an
escape. Reading goes chunk by chunk as well. The characters that must not stand in HTML are
spelled by their codes, also in strings that were spelled elsewhere; what a value means does
not depend on its spelling.
-/

namespace Workforce.Json

/-! ### Chunks -/

section Chunks

variable {α : Type} {next : Bytes → α × ℕ}

/-- Read a text chunk by chunk: `next` gives what the first chunk stands for and how many bytes
it takes beside the first; `k` bytes of the present chunk are still to be skipped. -/
def chunks (next : Bytes → α × ℕ) : ℕ → Bytes → List α
  | _, [] => []
  | k + 1, _ :: bs => chunks next k bs
  | 0, b :: bs => (next (b :: bs)).1 :: chunks next (next (b :: bs)).2 bs

lemma chunks_skip (k : ℕ) (bs : Bytes) : chunks next k bs = chunks next 0 (bs.drop k) := by
  induction k generalizing bs with
  | zero => rfl
  | succ k ih =>
    cases bs with
    | nil => rfl
    | cons b bs => exact ih bs

lemma chunks_append {chunk bs : Bytes} {x : α} (hne : chunk ≠ [])
    (h : next (chunk ++ bs) = (x, chunk.length - 1)) :
    chunks next 0 (chunk ++ bs) = x :: chunks next 0 bs := by
  obtain ⟨b, chunk, rfl⟩ := List.exists_cons_of_ne_nil hne
  rw [List.cons_append, chunks, ← List.cons_append, h, List.length_cons, Nat.add_sub_cancel,
    chunks_skip, List.drop_left]

lemma length_chunks_le (k : ℕ) (bs : Bytes) : (chunks next k bs).length ≤ bs.length := by
  induction bs generalizing k with
  | nil => cases k <;> exact le_rfl
  | cons b bs ih =>
    cases k with
    | zero => exact Nat.succ_le_succ (ih _)
    | succ k => exact Nat.le_succ_of_le (ih k)

end Chunks

/-! ### Escapes by code -/

def hexDigit (n : ℕ) : UInt8 := if n < 10 then .ofNat (48 + n) else .ofNat (87 + n)

def hexVal (b : UInt8) : Option ℕ :=
  if isDigit b then some (b.toNat - 48)
  else if 0x61 ≤ b ∧ b ≤ 0x66 then some (b.toNat - 87)
  else if 0x41 ≤ b ∧ b ≤ 0x46 then some (b.toNat - 55)
  else none

/-- An escape by the four digits of a code. -/
def hexEscape (n : ℕ) : Bytes :=
  [backslash, 0x75, hexDigit (n / 4096 % 16), hexDigit (n / 256 % 16), hexDigit (n / 16 % 16),
    hexDigit (n % 16)]

def hex4 : Bytes → Option ℕ
  | a :: b :: c :: d :: _ => do
    return (← hexVal a) * 4096 + (← hexVal b) * 256 + (← hexVal c) * 16 + (← hexVal d)
  | _ => none

variable {n u d : ℕ}

lemma hexVal_hexDigit (h : n < 16) : hexVal (hexDigit n) = some n := by
  have hall : ∀ k : Fin 16, hexVal (hexDigit k) = some k.1 := by decide
  exact hall ⟨n, h⟩

lemma isHex_hexDigit (h : n < 16) : isHex (hexDigit n) = true := by
  have hall : ∀ k : Fin 16, isHex (hexDigit k) = true := by decide
  exact hall ⟨n, h⟩

lemma hex4_hexEscape (h : n < 65536) (bs : Bytes) : hex4 ((hexEscape n).drop 2 ++ bs) = some n := by
  have hsum : n / 4096 % 16 * 4096 + n / 256 % 16 * 256 + n / 16 % 16 * 16 + n % 16 = n := by omega
  simp [hexEscape, hex4, hexVal_hexDigit (Nat.mod_lt _ (by decide : 16 > 0)), hsum]

/-! ### Spelling a text -/

/-- The characters that are spelled by their code. -/
def NeedsCode (c : Char) : Prop :=
  c.toNat < 0x20 ∨ c = '<' ∨ c = '>' ∨ c = '&' ∨ c.toNat = 0x2028 ∨ c.toNat = 0x2029

instance : DecidablePred NeedsCode := fun c => by unfold NeedsCode; infer_instance

def quoteChar (c : Char) : Bytes :=
  if c = '"' then [backslash, quoteMark]
  else if c = '\\' then [backslash, backslash]
  else if c.toNat = 0x08 then [backslash, 0x62]
  else if c.toNat = 0x0c then [backslash, 0x66]
  else if c.toNat = 0x0a then [backslash, 0x6e]
  else if c.toNat = 0x0d then [backslash, 0x72]
  else if c.toNat = 0x09 then [backslash, 0x74]
  else if NeedsCode c then hexEscape c.toNat
  else String.utf8EncodeChar c

def quote (s : List Char) : Bytes := s.flatMap quoteChar

/-! ### Reading a text -/

/-- What a chunk stands for: a character, a byte that is no UTF-8, or half a surrogate pair. -/
inductive Symbol
  | char (c : Char)
  | stray (b : UInt8)
  | lone (code : ℕ)
  deriving DecidableEq

def replacementChar : Char := Char.ofNat 0xfffd

/-- The character a symbol is read as. -/
def Symbol.toChar : Symbol → Char
  | .char c => c
  | .stray _ | .lone _ => replacementChar

/-- The character a surrogate pair stands for. -/
def surrogatePair (hi lo : ℕ) : Option Char :=
  if 0xd800 ≤ hi ∧ hi < 0xdc00 ∧ 0xdc00 ≤ lo ∧ lo < 0xe000 then
    some (Char.ofNat ((hi - 0xd800) * 1024 + (lo - 0xdc00) + 0x10000))
  else none

/-- The other half of a surrogate pair, if its escape comes next. -/
def lowHalf (hi : ℕ) : Bytes → Option Char
  | 0x5c :: 0x75 :: bs => (hex4 bs).bind (surrogatePair hi)
  | _ => none

/-- What follows the `\u` of an escape: its symbol and the bytes taken after the backslash. -/
def codeEscape (bs : Bytes) : Symbol × ℕ :=
  match hex4 bs with
  | none => (.stray backslash, 0)
  | some u =>
    if 0xd800 ≤ u ∧ u < 0xe000 then
      match lowHalf u (bs.drop 4) with
      | some c => (.char c, 11)
      | none => (.lone u, 5)
    else (.char (Char.ofNat u), 5)

def escapeChar (b : UInt8) : Char :=
  if b = 0x62 then Char.ofNat 0x08
  else if b = 0x66 then Char.ofNat 0x0c
  else if b = 0x6e then Char.ofNat 0x0a
  else if b = 0x72 then Char.ofNat 0x0d
  else if b = 0x74 then Char.ofNat 0x09
  else Char.ofNat b.toNat

/-- The character whose UTF-8 code comes first. -/
def decodeFirst (bs : Bytes) : Option Char := (bs.take 4).toByteArray.utf8DecodeChar? 0

/-- The first symbol of the inside of a string, and how many bytes it takes beside one. -/
def nextSymbol : Bytes → Symbol × ℕ
  | [] => (.stray backslash, 0)
  | b :: bs =>
    if b = backslash then
      match bs with
      | [] => (.stray backslash, 0)
      | e :: bs => if e = 0x75 then codeEscape bs else (.char (escapeChar e), 1)
    else if b < 0x80 then (.char (Char.ofNat b.toNat), 0)
    else
      match decodeFirst (b :: bs) with
      | some c => (.char c, c.utf8Size - 1)
      | none => (.stray b, 0)

def symbols (raw : Bytes) : List Symbol := chunks nextSymbol 0 raw

def unquote (raw : Bytes) : List Char := (symbols raw).map Symbol.toChar

/-! ### Round trip -/

lemma codeEscape_hexEscape (h : n < 0xd800) (bs : Bytes) :
    codeEscape ((hexEscape n).drop 2 ++ bs) = (.char (Char.ofNat n), 5) := by
  rw [codeEscape, hex4_hexEscape (by omega)]
  exact if_neg (by omega)

variable {c : Char}

/-- A code of several bytes has none of the bytes below `0x80`. -/
lemma utf8EncodeChar_high (h : 0x80 ≤ c.toNat) : ∀ b ∈ String.utf8EncodeChar c, 0x80 ≤ b.toNat := by
  have hv : c.val.toNat = c.toNat := rfl
  intro b hb
  unfold String.utf8EncodeChar at hb
  simp only [hv] at hb
  split_ifs at hb <;>
  · simp only [List.mem_cons, List.not_mem_nil, or_false] at hb
    rcases hb with rfl | rfl | rfl | rfl <;> simp <;> omega

lemma utf8EncodeChar_low (h : c.toNat < 0x80) :
    String.utf8EncodeChar c = [UInt8.ofNat c.toNat] := by
  have hv : c.val.toNat = c.toNat := rfl
  unfold String.utf8EncodeChar
  exact if_pos (by omega)

lemma ofNat_lt (h : n < 0x80) : (UInt8.ofNat n).toNat = n := by
  exact Nat.mod_eq_of_lt (by omega)

variable {bs raw tail : Bytes}

lemma decodeFirst_iff : decodeFirst bs = some c ↔ ∃ rest, bs = String.utf8EncodeChar c ++ rest := by
  have hfour : (String.utf8EncodeChar c).length ≤ 4 := by
    rw [String.length_utf8EncodeChar]
    exact c.utf8Size_le_four
  constructor
  · intro h
    have h := ByteArray.eq_of_utf8DecodeChar?_eq_some h
    have h := congrArg (fun a : ByteArray => a.data.toList) h
    simp only [List.toList_data_toByteArray, ByteArray.data_append, Array.toList_append] at h
    obtain ⟨ext, hext⟩ : ∃ ext, bs.take 4 = String.utf8EncodeChar c ++ ext := ⟨_, h⟩
    refine ⟨ext ++ bs.drop 4, ?_⟩
    rw [← List.append_assoc, ← hext, List.take_append_drop]
  · rintro ⟨rest, rfl⟩
    rw [decodeFirst, List.take_append, List.take_of_length_le hfour, List.toByteArray_append]
    exact ByteArray.utf8DecodeChar?_utf8EncodeChar_append

variable {b : UInt8}

lemma nextSymbol_of_ne (h : b ≠ backslash) (bs : Bytes) :
    nextSymbol (b :: bs) =
      if b < 0x80 then (.char (Char.ofNat b.toNat), 0)
      else match decodeFirst (b :: bs) with
        | some c => (.char c, c.utf8Size - 1)
        | none => (.stray b, 0) := by
  exact if_neg h

lemma ne_backslash_of_high (h : 0x80 ≤ b.toNat) : b ≠ backslash := by
  rintro rfl
  exact absurd h (by decide)

lemma not_lt_of_high (h : 0x80 ≤ b.toNat) : ¬b < 0x80 := by
  exact Nat.not_lt.mpr h

lemma ne_backslash_of_mem (hc : c ≠ '\\') : ∀ b ∈ String.utf8EncodeChar c, b ≠ backslash := by
  rcases Nat.lt_or_ge c.toNat 0x80 with hlow | hhigh
  · rw [utf8EncodeChar_low hlow, List.forall_mem_singleton]
    intro hb
    have hb := congrArg UInt8.toNat hb
    rw [ofNat_lt hlow] at hb
    exact hc (Char.toNat_inj.mp hb)
  · exact fun b hb => ne_backslash_of_high (utf8EncodeChar_high hhigh b hb)

lemma nextSymbol_utf8 (hc : c ≠ '\\') (bs : Bytes) :
    nextSymbol (String.utf8EncodeChar c ++ bs) =
      (.char c, (String.utf8EncodeChar c).length - 1) := by
  have hne := ne_backslash_of_mem hc
  rcases Nat.lt_or_ge c.toNat 0x80 with hlow | hhigh
  · have hlt : UInt8.ofNat c.toNat < 0x80 := by
      rw [UInt8.lt_iff_toNat_lt, ofNat_lt hlow]
      exact hlow
    rw [utf8EncodeChar_low hlow, List.forall_mem_singleton] at hne
    rw [utf8EncodeChar_low hlow, List.singleton_append, nextSymbol_of_ne hne, if_pos hlt,
      ofNat_lt hlow, Char.ofNat_toNat]
    rfl
  · obtain ⟨b, code, hcode⟩ := List.exists_cons_of_ne_nil (String.utf8EncodeChar_ne_nil (c := c))
    have hb : 0x80 ≤ b.toNat := utf8EncodeChar_high hhigh b (by simp [hcode])
    have hdecode : decodeFirst (String.utf8EncodeChar c ++ bs) = some c :=
      decodeFirst_iff.mpr ⟨bs, rfl⟩
    rw [hcode, List.cons_append] at hdecode
    rw [hcode, List.cons_append, nextSymbol_of_ne (ne_backslash_of_high hb),
      if_neg (not_lt_of_high hb), hdecode, ← hcode, String.length_utf8EncodeChar]

lemma nextSymbol_quoteChar (c : Char) (bs : Bytes) :
    nextSymbol (quoteChar c ++ bs) = (.char c, (quoteChar c).length - 1) := by
  have hofNat {n : ℕ} (h : c.toNat = n) : Char.ofNat n = c := by rw [← h, Char.ofNat_toNat]
  unfold quoteChar
  split_ifs with h1 h2 h3 h4 h5 h6 h7 h8
  · subst h1
    rfl
  · subst h2
    rfl
  · rw [← hofNat h3]
    rfl
  · rw [← hofNat h4]
    rfl
  · rw [← hofNat h5]
    rfl
  · rw [← hofNat h6]
    rfl
  · rw [← hofNat h7]
    rfl
  · have hlt : c.toNat < 0xd800 := by
      rcases h8 with h | rfl | rfl | rfl | h | h
      · omega
      · decide
      · decide
      · decide
      · omega
      · omega
    have hcode := codeEscape_hexEscape hlt bs
    rw [Char.ofNat_toNat] at hcode
    exact hcode
  · exact nextSymbol_utf8 h2 bs

lemma quoteChar_ne_nil (c : Char) : quoteChar c ≠ [] := by
  unfold quoteChar
  split_ifs
  all_goals first | exact List.cons_ne_nil _ _ | exact String.utf8EncodeChar_ne_nil

lemma symbols_quote (s : List Char) : symbols (quote s) = s.map .char := by
  induction s with
  | nil => rfl
  | cons c s ih =>
    show chunks nextSymbol 0 (quoteChar c ++ quote s) = .char c :: s.map .char
    rw [chunks_append (quoteChar_ne_nil c) (nextSymbol_quoteChar c _)]
    exact congrArg (Symbol.char c :: ·) ih

/-- **Round trip.** A text is read back from its spelling. -/
theorem unquote_quote (s : List Char) : unquote (quote s) = s := by
  rw [unquote, symbols_quote, List.map_map]
  exact List.map_id s

/-! ### Spellings are string literals -/

lemma strOk_append {raw' : Bytes} (h : StrOk raw) (h' : StrOk raw') : StrOk (raw ++ raw') := by
  unfold StrOk at *
  rw [List.foldlM_append, h]
  exact h'

lemma strOk_hexEscape (n : ℕ) : StrOk (hexEscape n) := by
  have hstep (k m : ℕ) : (StrMode.hex (m + 1)).step (hexDigit (k % 16)) = some (.hex m) :=
    if_pos (isHex_hexDigit (Nat.mod_lt _ (by decide)))
  have hlast (k : ℕ) : (StrMode.hex 0).step (hexDigit (k % 16)) = some .plain :=
    if_pos (isHex_hexDigit (Nat.mod_lt _ (by decide)))
  have h1 : StrMode.plain.step backslash = some .escape := by decide
  have h2 : StrMode.escape.step 0x75 = some (.hex 3) := by decide
  simp [StrOk, hexEscape, h1, h2, hstep, hlast]

lemma strOk_of_plain (h : ∀ b ∈ raw, 0x20 ≤ b.toNat ∧ b ≠ quoteMark ∧ b ≠ backslash) :
    StrOk raw := by
  unfold StrOk
  induction raw with
  | nil => rfl
  | cons b raw ih =>
    obtain ⟨hlow, hq, hb⟩ := h b List.mem_cons_self
    have hstep : StrMode.plain.step b = some .plain := by
      have hnot : ¬b < 0x20 := by
        exact Nat.not_lt.mpr hlow
      simp [StrMode.step, hq, hb, hnot]
    rw [List.foldlM_cons, hstep]
    exact ih fun b' hb' => h b' (List.mem_cons_of_mem _ hb')

lemma strOk_quoteChar (c : Char) : StrOk (quoteChar c) := by
  unfold quoteChar
  split_ifs with h1 h2 h3 h4 h5 h6 h7 h8
  iterate 7 decide
  · exact strOk_hexEscape _
  · refine strOk_of_plain fun b hb => ?_
    rcases Nat.lt_or_ge c.toNat 0x80 with hlow | hhigh
    · rw [utf8EncodeChar_low hlow, List.mem_singleton] at hb
      subst hb
      have hne {d : Char} (hd : c ≠ d) {k : UInt8} (hk : k.toNat = d.toNat) :
          UInt8.ofNat c.toNat ≠ k := by
        intro he
        have he := congrArg UInt8.toNat he
        rw [ofNat_lt hlow, hk] at he
        exact hd (Char.toNat_inj.mp he)
      refine ⟨?_, hne h1 rfl, hne h2 rfl⟩
      rw [ofNat_lt hlow]
      exact Nat.not_lt.mp fun h => h8 (.inl h)
    · have hb := utf8EncodeChar_high hhigh b hb
      refine ⟨by omega, ?_, ?_⟩
      · rintro rfl
        exact absurd hb (by decide)
      · rintro rfl
        exact absurd hb (by decide)

theorem strOk_quote (s : List Char) : StrOk (quote s) := by
  induction s with
  | nil => rfl
  | cons c s ih => exact strOk_append (strOk_quoteChar c) ih

/-! ### Respelling for HTML -/

/-- Spell by code what must not stand in HTML: angle brackets, ampersands and the two line
separators of Unicode. Everything else stays as it is spelled. -/
def escapeHTML : Bytes → Bytes
  | 0xe2 :: 0x80 :: 0xa8 :: bs => hexEscape 0x2028 ++ escapeHTML bs
  | 0xe2 :: 0x80 :: 0xa9 :: bs => hexEscape 0x2029 ++ escapeHTML bs
  | b :: bs =>
    if b = 0x3c ∨ b = 0x3e ∨ b = 0x26 then hexEscape b.toNat ++ escapeHTML bs
    else b :: escapeHTML bs
  | [] => []

/-- Such a character stands for itself wherever it is. -/
lemma StrMode.plain_of_step {m m' : StrMode} (h : m.step b = some m')
    (hb : b ∈ [0x3c, 0x3e, 0x26, 0xe2]) : m = .plain ∧ m' = .plain := by
  have hhex : isHex b = false := by fin_cases hb <;> rfl
  cases m with
  | plain =>
    fin_cases hb <;> (cases h; exact ⟨rfl, rfl⟩)
  | escape => fin_cases hb <;> cases h
  | hex left => simp [StrMode.step, hhex] at h

lemma foldlM_hexEscape (n : ℕ) (bs : Bytes) :
    (hexEscape n ++ bs).foldlM StrMode.step .plain = bs.foldlM StrMode.step .plain := by
  have h : (hexEscape n).foldlM StrMode.step .plain = some .plain := strOk_hexEscape n
  rw [List.foldlM_append, h]
  rfl

lemma foldlM_escapeHTML {m m' : StrMode} (h : raw.foldlM StrMode.step m = some m') :
    (escapeHTML raw).foldlM StrMode.step m = some m' := by
  fun_induction escapeHTML raw generalizing m with
  | case1 bs ih | case2 bs ih =>
    obtain ⟨m₁, h₁, h⟩ := Option.bind_eq_some_iff.mp h
    obtain ⟨rfl, rfl⟩ := StrMode.plain_of_step h₁ (by decide)
    exact ih h
  | case3 b bs h1 h2 hb ih =>
    obtain ⟨m₁, h₁, h⟩ := Option.bind_eq_some_iff.mp h
    obtain ⟨rfl, rfl⟩ := StrMode.plain_of_step h₁ (by rcases hb with rfl | rfl | rfl <;> decide)
    rw [foldlM_hexEscape]
    exact ih h
  | case4 b bs h1 h2 hb ih =>
    rw [List.foldlM_cons] at h ⊢
    obtain ⟨m₁, h₁, h⟩ := Option.bind_eq_some_iff.mp h
    rw [h₁]
    exact ih h
  | case5 => exact h

lemma StrOk.escapeHTML (h : StrOk raw) : StrOk (escapeHTML raw) :=
  foldlM_escapeHTML h

/-! ### Respelling keeps the meaning -/

def htmlChars : List Char := ['<', '>', '&', Char.ofNat 0x2028, Char.ofNat 0x2029]

lemma htmlChars_coded : ∀ c ∈ htmlChars, NeedsCode c ∧ c.toNat < 0xd800 ∧ c ≠ '\\' :=
  List.forall_iff_forall_mem.mp (by decide)

/-- The first character is respelled, or the first byte stays as it is. -/
lemma escapeHTML_cases (b : UInt8) (bs : Bytes) :
    (∃ c ∈ htmlChars, ∃ rest, b :: bs = String.utf8EncodeChar c ++ rest ∧
      escapeHTML (b :: bs) = hexEscape c.toNat ++ escapeHTML rest) ∨
    escapeHTML (b :: bs) = b :: escapeHTML bs := by
  generalize hraw : b :: bs = raw
  fun_cases escapeHTML raw with
  | case1 rest => exact .inl ⟨Char.ofNat 0x2028, by decide, rest, rfl, rfl⟩
  | case2 rest => exact .inl ⟨Char.ofNat 0x2029, by decide, rest, rfl, rfl⟩
  | case3 b rest h1 h2 hb =>
    rcases hb with rfl | rfl | rfl
    · exact .inl ⟨'<', by decide, rest, rfl, rfl⟩
    · exact .inl ⟨'>', by decide, rest, rfl, rfl⟩
    · exact .inl ⟨'&', by decide, rest, rfl, rfl⟩
  | case4 b rest =>
    obtain ⟨rfl, rfl⟩ := List.cons.inj hraw
    exact .inr rfl
  | case5 => cases hraw

lemma escapeHTML_cons (h : b ∉ [0x3c, 0x3e, 0x26, 0xe2]) (bs : Bytes) :
    escapeHTML (b :: bs) = b :: escapeHTML bs := by
  simp only [List.mem_cons, List.not_mem_nil, or_false, not_or] at h
  obtain ⟨h1, h2, h3, h4⟩ := h
  rw [escapeHTML]
  · exact if_neg (by simp [h1, h2, h3])
  · rintro _ rfl
    exact absurd rfl h4
  · rintro _ rfl
    exact absurd rfl h4

lemma utf8EncodeChar_tail (h : String.utf8EncodeChar c = b :: tail) :
    ∀ t ∈ tail, 0x80 ≤ t.toNat ∧ t.toNat < 0xc0 := by
  unfold String.utf8EncodeChar at h
  dsimp only at h
  intro t ht
  split_ifs at h
  all_goals obtain ⟨-, rfl⟩ := List.cons.inj h
  · cases ht
  all_goals
    simp only [List.mem_cons, List.not_mem_nil, or_false] at ht
    rcases ht with rfl | rfl | rfl <;> simp <;> omega

lemma not_special_of_tail {t : UInt8} (h : 0x80 ≤ t.toNat ∧ t.toNat < 0xc0) :
    t ∉ [0x3c, 0x3e, 0x26, 0xe2] := by
  intro ht
  fin_cases ht <;> exact absurd h (by decide)

lemma escapeHTML_append {p : Bytes} (h : ∀ b ∈ p, b ∉ [0x3c, 0x3e, 0x26, 0xe2]) (rest : Bytes) :
    escapeHTML (p ++ rest) = p ++ escapeHTML rest := by
  induction p with
  | nil => rfl
  | cons b p ih =>
    obtain ⟨hb, hp⟩ := List.forall_mem_cons.mp h
    rw [List.cons_append, escapeHTML_cons hb, ih hp]
    rfl

lemma escapeHTML_tail (h : ∀ t ∈ tail, 0x80 ≤ t.toNat ∧ t.toNat < 0xc0) (rest : Bytes) :
    escapeHTML (tail ++ rest) = tail ++ escapeHTML rest :=
  escapeHTML_append (fun t ht => not_special_of_tail (h t ht)) rest

/-- Such bytes are not made up by respelling. -/
lemma tail_of_escapeHTML {rest : Bytes} (h : ∀ t ∈ tail, 0x80 ≤ t.toNat ∧ t.toNat < 0xc0)
    (he : escapeHTML bs = tail ++ rest) : ∃ rest', bs = tail ++ rest' := by
  induction tail generalizing bs with
  | nil => exact ⟨bs, rfl⟩
  | cons t tail ih =>
    obtain ⟨ht, htail⟩ := List.forall_mem_cons.mp h
    cases bs with
    | nil => cases he
    | cons b bs =>
      rcases escapeHTML_cases b bs with ⟨c, -, rest', -, heq⟩ | hcons
      · rw [heq] at he
        obtain ⟨rfl, -⟩ := List.cons.inj he
        exact absurd ht (by decide)
      · rw [hcons, List.cons_append, List.cons.injEq] at he
        obtain ⟨rfl, he⟩ := he
        obtain ⟨rest', rfl⟩ := ih htail he
        exact ⟨rest', rfl⟩

lemma decodeFirst_escapeHTML (bs : Bytes) :
    decodeFirst (b :: escapeHTML bs) = none ↔ decodeFirst (b :: bs) = none := by
  simp only [Option.eq_none_iff_forall_ne_some, ne_eq, decodeFirst_iff, not_exists]
  refine forall_congr' fun c => ?_
  obtain ⟨b', tail, hcode⟩ := List.exists_cons_of_ne_nil (String.utf8EncodeChar_ne_nil (c := c))
  have htail := utf8EncodeChar_tail hcode
  simp only [hcode, List.cons_append, List.cons.injEq]
  constructor
  · rintro h rest ⟨rfl, rfl⟩
    exact h (escapeHTML rest) ⟨rfl, escapeHTML_tail htail rest⟩
  · rintro h rest ⟨rfl, heq⟩
    obtain ⟨rest', rfl⟩ := tail_of_escapeHTML htail heq
    exact h rest' ⟨rfl, rfl⟩

/-- The first chunk of a spelling, what it is respelled as, and the symbol both stand for. -/
structure FirstChunk (raw chunk chunk' rest : Bytes) (x : Symbol) : Prop where
  split : raw = chunk ++ rest
  respelled : escapeHTML raw = chunk' ++ escapeHTML rest
  ok : StrOk rest
  ne : chunk ≠ []
  ne' : chunk' ≠ []
  reads : nextSymbol (chunk ++ rest) = (x, chunk.length - 1)
  reads' : nextSymbol (chunk' ++ escapeHTML rest) = (x, chunk'.length - 1)

lemma StrOk.of_cons (h : StrOk (b :: bs)) (hb : b ≠ backslash) : StrOk bs := by
  unfold StrOk at *
  obtain ⟨m, hm, h⟩ := Option.bind_eq_some_iff.mp h
  simp only [StrMode.step] at hm
  split_ifs at hm
  cases hm
  exact h

lemma StrOk.of_append {p rest : Bytes} (hp : ∀ b ∈ p, b ≠ backslash) (h : StrOk (p ++ rest)) :
    StrOk rest := by
  induction p with
  | nil => exact h
  | cons b p ih =>
    obtain ⟨hb, hp⟩ := List.forall_mem_cons.mp hp
    exact ih hp (StrOk.of_cons h hb)

lemma nextSymbol_hexEscape (h : n < 0xd800) (bs : Bytes) :
    nextSymbol (hexEscape n ++ bs) = (.char (Char.ofNat n), (hexEscape n).length - 1) :=
  codeEscape_hexEscape h bs

/-- A byte that is no backslash and stays as it is: the code of a character, or no UTF-8. -/
lemma firstChunk_plain (hb : b ≠ backslash) (h : StrOk (b :: bs))
    (hcons : escapeHTML (b :: bs) = b :: escapeHTML bs) :
    ∃ chunk chunk' rest x, FirstChunk (b :: bs) chunk chunk' rest x := by
  rcases hd : decodeFirst (b :: bs) with _ | c
  · have hhigh : ¬b < 0x80 := by
      intro hlow
      have hall : ∀ k : Fin 128, String.utf8EncodeChar (Char.ofNat k) = [.ofNat k.1] := by decide
      have hcode := hall ⟨b.toNat, hlow⟩
      rw [UInt8.ofNat_toNat] at hcode
      rw [decodeFirst_iff.mpr ⟨bs, by rw [hcode]; rfl⟩] at hd
      cases hd
    have hreads {bs : Bytes} (hd : decodeFirst (b :: bs) = none) :
        nextSymbol (b :: bs) = (.stray b, 0) := by
      rw [nextSymbol_of_ne hb, if_neg hhigh, hd]
    exact ⟨[b], [b], bs, _, rfl, hcons, h.of_cons hb, by simp, by simp, hreads hd,
      hreads ((decodeFirst_escapeHTML bs).mpr hd)⟩
  · obtain ⟨rest, heq⟩ := decodeFirst_iff.mp hd
    have hc : c ≠ '\\' := by
      rintro rfl
      exact hb (List.cons.inj heq).1
    obtain ⟨b', tail, hcode⟩ := List.exists_cons_of_ne_nil (String.utf8EncodeChar_ne_nil (c := c))
    refine ⟨String.utf8EncodeChar c, String.utf8EncodeChar c, rest, .char c, heq, ?_,
      StrOk.of_append (ne_backslash_of_mem hc) (heq ▸ h), String.utf8EncodeChar_ne_nil,
      String.utf8EncodeChar_ne_nil, nextSymbol_utf8 hc rest, nextSymbol_utf8 hc _⟩
    rw [hcode, List.cons_append, List.cons.injEq] at heq
    obtain ⟨rfl, rfl⟩ := heq
    rw [hcons, hcode, escapeHTML_tail (utf8EncodeChar_tail hcode), List.cons_append]

/-! ### Escapes -/

/-- The characters of the escapes that have no code. -/
def simpleEscapes : List UInt8 := [0x62, 0x66, 0x6e, 0x72, 0x74, backslash, 0x2f, quoteMark]

def Hex4 (hs : Bytes) : Prop := hs.length = 4 ∧ ∀ b ∈ hs, isHex b = true

lemma hex_of_foldlM (h : bs.foldlM StrMode.step (.hex n) = some .plain) :
    ∃ hs rest, bs = hs ++ rest ∧ hs.length = n + 1 ∧ (∀ b ∈ hs, isHex b = true) ∧ StrOk rest := by
  induction bs generalizing n with
  | nil => cases h
  | cons b bs ih =>
    obtain ⟨m, hm, h⟩ := Option.bind_eq_some_iff.mp h
    simp only [StrMode.step] at hm
    split_ifs at hm with hb
    cases n with
    | zero =>
      cases hm
      exact ⟨[b], bs, rfl, rfl, by simpa using hb, h⟩
    | succ n =>
      cases hm
      obtain ⟨hs, rest, rfl, hlen, hhex, hok⟩ := ih h
      exact ⟨b :: hs, rest, rfl, by simp [hlen], List.forall_mem_cons.mpr ⟨hb, hhex⟩, hok⟩

lemma escape_cases (h : StrOk (backslash :: bs)) :
    (∃ e rest, bs = e :: rest ∧ e ∈ simpleEscapes ∧ StrOk rest) ∨
      ∃ hs rest, bs = 0x75 :: (hs ++ rest) ∧ Hex4 hs ∧ StrOk rest := by
  unfold StrOk at h
  change bs.foldlM StrMode.step .escape = some .plain at h
  cases bs with
  | nil => cases h
  | cons e bs =>
    obtain ⟨m, hm, h⟩ := Option.bind_eq_some_iff.mp h
    simp only [StrMode.step] at hm
    split_ifs at hm with he hu
    · cases hm
      exact .inl ⟨e, bs, rfl, he, h⟩
    · cases hm
      obtain ⟨hs, rest, rfl, hlen, hhex, hok⟩ := hex_of_foldlM h
      exact .inr ⟨hs, rest, by rw [hu], ⟨hlen, hhex⟩, hok⟩

lemma hexVal_of_isHex (h : isHex b = true) : ∃ n, hexVal b = some n := by
  unfold hexVal
  simp only [isHex, Bool.or_eq_true, Bool.and_eq_true, decide_eq_true_eq] at h
  split_ifs with h1 h2 h3
  · exact ⟨_, rfl⟩
  · exact ⟨_, rfl⟩
  · exact ⟨_, rfl⟩
  · rcases h with (h | h) | h
    · exact absurd h h1
    · exact absurd h h2
    · exact absurd h h3

lemma Hex4.read {hs : Bytes} (h : Hex4 hs) : ∃ u, ∀ rest, hex4 (hs ++ rest) = some u := by
  obtain ⟨hlen, hhex⟩ := h
  obtain ⟨a, b, c, d, rfl⟩ := List.length_eq_four.mp hlen
  simp only [List.forall_mem_cons] at hhex
  obtain ⟨ha, hb, hc, hd, -⟩ := hhex
  obtain ⟨x, hx⟩ := hexVal_of_isHex ha
  obtain ⟨y, hy⟩ := hexVal_of_isHex hb
  obtain ⟨z, hz⟩ := hexVal_of_isHex hc
  obtain ⟨w, hw⟩ := hexVal_of_isHex hd
  exact ⟨x * 4096 + y * 256 + z * 16 + w, fun rest => by simp [hex4, hx, hy, hz, hw]⟩

lemma not_special_of_isHex (h : isHex b = true) : b ∉ [0x3c, 0x3e, 0x26, 0xe2] := by
  intro hb
  fin_cases hb <;> cases h

lemma escapeHTML_code {hs : Bytes} (h : Hex4 hs) (rest : Bytes) :
    escapeHTML (backslash :: 0x75 :: (hs ++ rest)) =
      backslash :: 0x75 :: (hs ++ escapeHTML rest) := by
  rw [escapeHTML_cons (by decide), escapeHTML_cons (by decide),
    escapeHTML_append fun b hb => not_special_of_isHex (h.2 b hb)]

lemma escapeHTML_simple {e : UInt8} (h : e ∈ simpleEscapes) (rest : Bytes) :
    escapeHTML (backslash :: e :: rest) = backslash :: e :: escapeHTML rest := by
  have he : e ∉ [0x3c, 0x3e, 0x26, 0xe2] := by fin_cases h <;> decide
  rw [escapeHTML_cons (by decide), escapeHTML_cons he]

lemma lowHalf_of_ne (h : b ≠ backslash) (bs : Bytes) : lowHalf u (b :: bs) = none := by
  unfold lowHalf
  split
  · rename_i heq
    exact absurd (List.cons.inj heq).1 h
  · rfl

lemma lowHalf_simple {e : UInt8} (h : e ∈ simpleEscapes) (bs : Bytes) :
    lowHalf u (backslash :: e :: bs) = none := by
  fin_cases h <;> rfl

lemma lowHalf_hexEscape (h : n < 0xdc00) (bs : Bytes) : lowHalf u (hexEscape n ++ bs) = none := by
  show (hex4 ((hexEscape n).drop 2 ++ bs)).bind (surrogatePair u) = none
  rw [hex4_hexEscape (by omega), Option.bind_some, surrogatePair, if_neg (by omega)]

/-- Unless an escape by code comes first, respelling makes none that completes a pair. -/
lemma lowHalf_none (h : StrOk bs)
    (hno : ¬∃ hs rest, bs = backslash :: 0x75 :: (hs ++ rest) ∧ Hex4 hs) :
    lowHalf u bs = none ∧ lowHalf u (escapeHTML bs) = none := by
  cases bs with
  | nil => exact ⟨rfl, rfl⟩
  | cons b bs =>
    by_cases hb : b = backslash
    · subst hb
      rcases escape_cases h with ⟨e, rest, rfl, he, -⟩ | ⟨hs, rest, rfl, hhs, -⟩
      · rw [escapeHTML_simple he]
        exact ⟨lowHalf_simple he _, lowHalf_simple he _⟩
      · exact absurd ⟨hs, rest, rfl, hhs⟩ hno
    · refine ⟨lowHalf_of_ne hb _, ?_⟩
      rcases escapeHTML_cases b bs with ⟨c, hc, rest, -, heq⟩ | hcons
      · rw [heq]
        exact lowHalf_hexEscape ((htmlChars_coded c hc).2.1.trans (by decide)) _
      · rw [hcons]
        exact lowHalf_of_ne hb _

lemma firstChunk_escape (h : StrOk (backslash :: bs)) :
    ∃ chunk chunk' rest x, FirstChunk (backslash :: bs) chunk chunk' rest x := by
  rcases escape_cases h with ⟨e, rest, rfl, he, hok⟩ | ⟨hs, rest, rfl, hhs, hok⟩
  · have hreads (rest : Bytes) :
        nextSymbol (backslash :: e :: rest) = (.char (escapeChar e), 1) := by
      have hne : e ≠ 0x75 := by
        rintro rfl
        exact absurd he (by decide)
      rw [nextSymbol, if_pos rfl]
      exact if_neg hne
    exact ⟨[backslash, e], [backslash, e], rest, _, rfl, escapeHTML_simple he rest, hok,
      by simp, by simp, hreads rest, hreads _⟩
  · obtain ⟨u, hu⟩ := hhs.read
    have hdrop (rest : Bytes) : (hs ++ rest).drop 4 = rest := by
      rw [← hhs.1, List.drop_left]
    have hreads (rest : Bytes) : nextSymbol (backslash :: 0x75 :: (hs ++ rest)) =
        if 0xd800 ≤ u ∧ u < 0xe000 then
          match lowHalf u rest with
          | some c => (.char c, 11)
          | none => (.lone u, 5)
        else (.char (Char.ofNat u), 5) := by
      show codeEscape (hs ++ rest) = _
      rw [codeEscape, hu, hdrop]
    have hsix : (backslash :: 0x75 :: hs).length - 1 = 5 := by simp [hhs.1]
    -- the chunk is the escape itself, unless it is the first half of a pair
    have hone {x : Symbol} (hr : nextSymbol (backslash :: 0x75 :: (hs ++ rest)) = (x, 5))
        (hr' : nextSymbol (backslash :: 0x75 :: (hs ++ escapeHTML rest)) = (x, 5)) :
        ∃ chunk chunk' rest' x,
          FirstChunk (backslash :: 0x75 :: (hs ++ rest)) chunk chunk' rest' x :=
      ⟨_, _, rest, x, rfl, escapeHTML_code hhs rest, hok, List.cons_ne_nil _ _,
        List.cons_ne_nil _ _, by rw [hsix]; exact hr, by rw [hsix]; exact hr'⟩
    by_cases hsur : 0xd800 ≤ u ∧ u < 0xe000
    · by_cases hcode : ∃ hs' rest', rest = backslash :: 0x75 :: (hs' ++ rest') ∧ Hex4 hs'
      · obtain ⟨hs', rest', rfl, hhs'⟩ := hcode
        obtain ⟨lo, hlo⟩ := hhs'.read
        have hlow (rest' : Bytes) :
            lowHalf u (backslash :: 0x75 :: (hs' ++ rest')) = surrogatePair u lo := by
          show (hex4 (hs' ++ rest')).bind (surrogatePair u) = _
          rw [hlo, Option.bind_some]
        rcases hpair : surrogatePair u lo with _ | c
        · refine hone (x := .lone u) ?_ ?_
          · rw [hreads, if_pos hsur, hlow, hpair]
          · rw [hreads, if_pos hsur, escapeHTML_code hhs', hlow, hpair]
        · have hok' : StrOk rest' := by
            rcases escape_cases hok with ⟨e, r, heq, he, -⟩ | ⟨hs'', r, heq, hhs'', hr⟩
            · obtain ⟨rfl, -⟩ := List.cons.inj heq
              exact absurd he (by decide)
            · obtain ⟨-, heq⟩ := List.cons.inj heq
              obtain ⟨rfl, rfl⟩ := List.append_inj heq (hhs'.1.trans hhs''.1.symm)
              exact hr
          have htwelve : (backslash :: 0x75 :: (hs ++ backslash :: 0x75 :: hs')).length - 1 = 11 := by
            simp [hhs.1, hhs'.1]
          have happ (r : Bytes) : backslash :: 0x75 :: (hs ++ backslash :: 0x75 :: hs') ++ r =
              backslash :: 0x75 :: (hs ++ backslash :: 0x75 :: (hs' ++ r)) := by simp
          refine ⟨backslash :: 0x75 :: (hs ++ backslash :: 0x75 :: hs'),
            backslash :: 0x75 :: (hs ++ backslash :: 0x75 :: hs'), rest', .char c,
            (happ rest').symm, ?_, hok', List.cons_ne_nil _ _, List.cons_ne_nil _ _, ?_, ?_⟩
          · rw [escapeHTML_code hhs, escapeHTML_code hhs', happ]
          · rw [htwelve, happ, hreads, if_pos hsur, hlow, hpair]
          · rw [htwelve, happ, hreads, if_pos hsur, hlow, hpair]
      · obtain ⟨hn, hn'⟩ := lowHalf_none (u := u) hok hcode
        refine hone (x := .lone u) ?_ ?_
        · rw [hreads, if_pos hsur, hn]
        · rw [hreads, if_pos hsur, hn']
    · refine hone (x := .char (Char.ofNat u)) ?_ ?_
      · rw [hreads, if_neg hsur]
      · rw [hreads, if_neg hsur]

lemma firstChunk (h : StrOk raw) (hne : raw ≠ []) :
    ∃ chunk chunk' rest x, FirstChunk raw chunk chunk' rest x := by
  obtain ⟨b, bs, rfl⟩ := List.exists_cons_of_ne_nil hne
  by_cases hb : b = backslash
  · subst hb
    exact firstChunk_escape h
  rcases escapeHTML_cases b bs with ⟨c, hc, rest, hsplit, heq⟩ | hcons
  · obtain ⟨-, hlt, hne⟩ := htmlChars_coded c hc
    have hreads := nextSymbol_hexEscape hlt (escapeHTML rest)
    rw [Char.ofNat_toNat] at hreads
    exact ⟨_, _, rest, .char c, hsplit, heq,
      StrOk.of_append (ne_backslash_of_mem hne) (hsplit ▸ h), String.utf8EncodeChar_ne_nil,
      List.cons_ne_nil _ _, nextSymbol_utf8 hne rest, hreads⟩
  · exact firstChunk_plain hb h hcons

/-- **Respelling keeps the text.** -/
theorem symbols_escapeHTML (h : StrOk raw) : symbols (escapeHTML raw) = symbols raw := by
  -- chunk by chunk: each step leaves a shorter rest
  induction hn : raw.length using Nat.strong_induction_on generalizing raw with
  | h n ih =>
    by_cases hne : raw = []
    · rw [hne]
      rfl
    obtain ⟨chunk, chunk', rest, x, hc⟩ := firstChunk h hne
    have hlt : rest.length < n := by
      rw [← hn, hc.split, List.length_append]
      have := List.length_pos_of_ne_nil hc.ne
      omega
    calc symbols (escapeHTML raw)
        = x :: symbols (escapeHTML rest) := by
          rw [hc.respelled]
          exact chunks_append hc.ne' hc.reads'
      _ = x :: symbols rest := by rw [ih _ hlt hc.ok rfl]
      _ = symbols raw := by
          rw [hc.split]
          exact (chunks_append hc.ne hc.reads).symm

mutual

def Value.escapeHTML : Value → Value
  | .str raw => .str (Json.escapeHTML raw)
  | .arr elems => .arr (escapeElems elems)
  | .obj members => .obj (escapeMembers members)
  | v => v

def escapeElems : List Value → List Value
  | [] => []
  | v :: vs => v.escapeHTML :: escapeElems vs

def escapeMembers : List (Bytes × Value) → List (Bytes × Value)
  | [] => []
  | (k, v) :: ms => (Json.escapeHTML k, v.escapeHTML) :: escapeMembers ms

end

lemma escapeElems_eq (vs : List Value) : escapeElems vs = vs.map Value.escapeHTML := by
  induction vs with
  | nil => rfl
  | cons v vs ih => rw [escapeElems, ih, List.map_cons]

lemma escapeMembers_eq (ms : List (Bytes × Value)) :
    escapeMembers ms = ms.map fun m => (Json.escapeHTML m.1, m.2.escapeHTML) := by
  induction ms with
  | nil => rfl
  | cons m ms ih => rw [escapeMembers, ih, List.map_cons]

variable {v : Value}

lemma WellFormed.escapeHTML (h : WellFormed d v) : WellFormed d v.escapeHTML := by
  induction h with
  | null => exact .null
  | bool b => exact .bool b
  | num h => exact .num h
  | str h => exact .str h.escapeHTML
  | arr h ih =>
    rw [Value.escapeHTML, escapeElems_eq]
    refine .arr fun v hv => ?_
    obtain ⟨w, hw, rfl⟩ := List.mem_map.mp hv
    exact ih w hw
  | obj hk h ih =>
    rw [Value.escapeHTML, escapeMembers_eq]
    refine .obj (fun m hm => ?_) fun m hm => ?_
    · obtain ⟨n, hn, rfl⟩ := List.mem_map.mp hm
      exact (hk n hn).escapeHTML
    · obtain ⟨n, hn, rfl⟩ := List.mem_map.mp hm
      exact ih n hn

lemma depth_escapeHTML (h : WellFormed d v) : depth v.escapeHTML = depth v := by
  induction h with
  | null | bool | num | str => rfl
  | @arr d elems h ih =>
    have hall : ∀ vs : List Value, (∀ v ∈ vs, v ∈ elems) →
        depthElems (escapeElems vs) = depthElems vs := by
      intro vs hvs
      induction vs with
      | nil => rfl
      | cons v vs ih' =>
        obtain ⟨hv, hvs⟩ := List.forall_mem_cons.mp hvs
        rw [escapeElems, depthElems, depthElems, ih v hv, ih' hvs]
    exact congrArg (· + 1) (hall elems fun _ hv => hv)
  | @obj d members hk h ih =>
    have hall : ∀ ms : List (Bytes × Value), (∀ m ∈ ms, m ∈ members) →
        depthMembers (escapeMembers ms) = depthMembers ms := by
      intro ms hms
      induction ms with
      | nil => rfl
      | cons m ms ih' =>
        obtain ⟨hm, hms⟩ := List.forall_mem_cons.mp hms
        rw [escapeMembers, depthMembers, depthMembers, ih m hm, ih' hms]
    exact congrArg (· + 1) (hall members fun _ hm => hm)

/-! ### What a value means -/

inductive Meaning
  | null
  | bool (b : Bool)
  | num (text : Bytes)
  | str (text : List Symbol)
  | arr (elems : List Meaning)
  | obj (members : List (List Symbol × Meaning))

mutual

def meaning : Value → Meaning
  | .null => .null
  | .bool b => .bool b
  | .num text => .num text
  | .str raw => .str (symbols raw)
  | .arr elems => .arr (meaningElems elems)
  | .obj members => .obj (meaningMembers members)

def meaningElems : List Value → List Meaning
  | [] => []
  | v :: vs => meaning v :: meaningElems vs

def meaningMembers : List (Bytes × Value) → List (List Symbol × Meaning)
  | [] => []
  | (k, v) :: ms => (symbols k, meaning v) :: meaningMembers ms

end

lemma meaningElems_eq (vs : List Value) : meaningElems vs = vs.map meaning := by
  induction vs with
  | nil => rfl
  | cons v vs ih => rw [meaningElems, ih, List.map_cons]

lemma meaningMembers_eq (ms : List (Bytes × Value)) :
    meaningMembers ms = ms.map fun m => (symbols m.1, meaning m.2) := by
  induction ms with
  | nil => rfl
  | cons m ms ih => rw [meaningMembers, ih, List.map_cons]

/-- **Respelling keeps the meaning.** -/
theorem meaning_escapeHTML (h : WellFormed d v) : meaning v.escapeHTML = meaning v := by
  induction h with
  | null | bool | num => rfl
  | str h => rw [Value.escapeHTML, meaning, meaning, symbols_escapeHTML h]
  | arr h ih =>
    rw [Value.escapeHTML, meaning, meaning, escapeElems_eq, meaningElems_eq, meaningElems_eq,
      List.map_map]
    exact congrArg _ (List.map_congr_left ih)
  | obj hk h ih =>
    rw [Value.escapeHTML, meaning, meaning, escapeMembers_eq, meaningMembers_eq,
      meaningMembers_eq, List.map_map]
    refine congrArg _ (List.map_congr_left fun m hm => ?_)
    rw [Function.comp_apply, ih m hm, symbols_escapeHTML (hk m hm)]

/-! ### The strings of a value -/

mutual

/-- The number of characters in the strings of a value. -/
def Meaning.size : Meaning → ℕ
  | .null | .bool _ | .num _ => 0
  | .str text => text.length
  | .arr elems => sizeElems elems
  | .obj members => sizeMembers members

def sizeElems : List Meaning → ℕ
  | [] => 0
  | m :: ms => m.size + sizeElems ms

def sizeMembers : List (List Symbol × Meaning) → ℕ
  | [] => 0
  | (k, m) :: ms => k.length + m.size + sizeMembers ms

end

lemma length_symbols_le (raw : Bytes) : (symbols raw).length ≤ raw.length := length_chunks_le 0 raw

lemma size_elems_le {vs : List Value} (h : ∀ v ∈ vs, (meaning v).size ≤ (render v).length) :
    sizeElems (meaningElems vs) ≤ (renderElems vs).length := by
  induction vs with
  | nil => exact le_rfl
  | cons v vs ih =>
    obtain ⟨hv, hvs⟩ := List.forall_mem_cons.mp h
    have ih := ih hvs
    cases vs with
    | nil => exact hv
    | cons w vs =>
      rw [meaningElems, sizeElems]
      simp only [renderElems, List.length_append, List.length_cons]
      omega

lemma size_members_le {ms : List (Bytes × Value)}
    (h : ∀ m ∈ ms, (meaning m.2).size ≤ (render m.2).length) :
    sizeMembers (meaningMembers ms) ≤ (renderMembers ms).length := by
  induction ms with
  | nil => exact le_rfl
  | cons m ms ih =>
    obtain ⟨k, v⟩ := m
    obtain ⟨hv, hms⟩ := List.forall_mem_cons.mp h
    have ih := ih hms
    have hk := length_symbols_le k
    cases ms with
    | nil =>
      simp only [meaningMembers, sizeMembers, renderMembers, List.length_append, List.length_cons]
      dsimp only at hv
      omega
    | cons n ms =>
      rw [meaningMembers, sizeMembers]
      simp only [renderMembers, List.length_append, List.length_cons]
      dsimp only at hv
      omega

/-- The strings of a value are in its text. -/
lemma size_meaning_le (h : WellFormed d v) : (meaning v).size ≤ (render v).length := by
  induction h with
  | null | bool | num => exact Nat.zero_le _
  | @str d raw h =>
    have := length_symbols_le raw
    simp only [meaning, Meaning.size, render, List.length_append, List.length_cons]
    omega
  | @arr d elems h ih =>
    have := size_elems_le ih
    simp only [meaning, Meaning.size, render, List.length_append, List.length_cons]
    omega
  | @obj d members hk h ih =>
    have := size_members_le ih
    simp only [meaning, Meaning.size, render, List.length_append, List.length_cons]
    omega

lemma size_member_le {ms : List (Bytes × Value)} {m : Bytes × Value} (h : m ∈ ms) :
    (symbols m.1).length + (meaning m.2).size ≤ (meaning (.obj ms)).size := by
  rw [meaning, Meaning.size]
  induction ms with
  | nil => cases h
  | cons n ms ih =>
    rw [meaningMembers, sizeMembers]
    rcases List.mem_cons.mp h with rfl | h
    · omega
    · have := ih h
      omega

/-! ### Integers -/

open Decimal

def asciiBytes (cs : List Char) : Bytes := cs.map fun c => .ofNat c.toNat

def asciiChars (bs : Bytes) : List Char := bs.map fun b => Char.ofNat b.toNat

lemma asciiChars_asciiBytes {cs : List Char} (h : ∀ c ∈ cs, c.toNat < 0x80) :
    asciiChars (asciiBytes cs) = cs := by
  induction cs with
  | nil => rfl
  | cons c cs ih =>
    obtain ⟨hc, hcs⟩ := List.forall_mem_cons.mp h
    show Char.ofNat (UInt8.ofNat c.toNat).toNat :: asciiChars (asciiBytes cs) = c :: cs
    rw [ofNat_lt hc, Char.ofNat_toNat, ih hcs]

lemma asciiBytes_eq_quote {cs : List Char} (h : ∀ c ∈ cs, quoteChar c = [.ofNat c.toNat]) :
    asciiBytes cs = quote cs := by
  induction cs with
  | nil => rfl
  | cons c cs ih =>
    obtain ⟨hc, hcs⟩ := List.forall_mem_cons.mp h
    show UInt8.ofNat c.toNat :: asciiBytes cs = quoteChar c ++ quote cs
    rw [hc, ih hcs]
    rfl

def intText (n : ℤ) : Bytes := asciiBytes (formatInt n)

/-- The integer of a number literal, when a 64-bit integer can hold it. -/
def readInt (text : Bytes) : Option ℤ :=
  match parseInt (asciiChars text) with
  | .ok n => some n
  | .error _ => none

theorem readInt_intText {n : ℤ} (h : IsInt64 n) : readInt (intText n) = some n := by
  have hlow : ∀ c ∈ formatInt n, c.toNat < 0x80 := by
    intro c hc
    rcases isDigit_or_of_mem_formatInt hc with rfl | hd
    · decide
    · have hle : c.toNat ≤ '9'.toNat := (Char.isDigit_iff_toNat.mp hd).2
      exact lt_of_le_of_lt hle (by decide)
  rw [readInt, intText, asciiChars_asciiBytes hlow, parseInt_formatInt h]

lemma digitChar_byte {k : ℕ} (h : k < 10) :
    isDigit (.ofNat k.digitChar.toNat) = true ∧ (UInt8.ofNat k.digitChar.toNat = 0x30 ↔ k = 0) := by
  have hall : ∀ k : Fin 10, isDigit (.ofNat k.1.digitChar.toNat) = true ∧
      (UInt8.ofNat k.1.digitChar.toNat = 0x30 ↔ k.1 = 0) := by decide
  exact hall ⟨k, h⟩

/-- The digits of a number have no zero in front. -/
lemma foldlM_toDigits {m : NumMode} (hm : m = .start ∨ m = .neg) (hn : 0 < n) :
    (asciiBytes (Nat.toDigits 10 n)).foldlM NumMode.step m = some .int := by
  induction n using Nat.strong_induction_on with
  | h n ih =>
    rcases Nat.lt_or_ge n 10 with hlt | hge
    · obtain ⟨hdigit, hzero⟩ := digitChar_byte hlt
      have hne : UInt8.ofNat n.digitChar.toNat ≠ 0x30 := fun h => by
        rw [hzero] at h
        omega
      have hfirst : NumMode.first (.ofNat n.digitChar.toNat) = some .int := by
        rw [NumMode.first, if_neg hne, if_pos hdigit]
      have hminus : UInt8.ofNat n.digitChar.toNat ≠ 0x2d := by
        intro h
        rw [h] at hdigit
        cases hdigit
      rw [Nat.toDigits_of_lt_base hlt]
      rcases hm with rfl | rfl <;> simp [asciiBytes, NumMode.step, hminus, hfirst]
    · have hrest := ih (n / 10) (by omega) (by omega)
      rw [Nat.toDigits_of_base_le (by decide) hge, asciiBytes, List.map_append,
        List.foldlM_append, ← asciiBytes, hrest]
      obtain ⟨hdigit, -⟩ := digitChar_byte (Nat.mod_lt n (by decide : 10 > 0))
      simp [NumMode.step, hdigit]

theorem numOk_intText (n : ℤ) : NumOk (intText n) := by
  cases n with
  | ofNat n =>
    rcases Nat.eq_zero_or_pos n with rfl | hn
    · exact ⟨.zero, rfl, rfl⟩
    · exact ⟨.int, foldlM_toDigits (.inl rfl) hn, rfl⟩
  | negSucc n => exact ⟨.int, foldlM_toDigits (.inr rfl) n.succ_pos, rfl⟩

end Workforce.Json
