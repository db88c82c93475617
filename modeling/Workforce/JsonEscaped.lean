import Workforce.JsonText

/-!
JSON that is spelled for HTML already.

Respelling a text twice gives the same as respelling it once, and the spelling of a text that is
quoted needs no respelling. So a value that was written once is copied into another document as
it stands.
-/

namespace Workforce.Json

/-! ### Texts -/

lemma hexEscape_not_special (n : ℕ) : ∀ b ∈ hexEscape n, b ∉ [0x3c, 0x3e, 0x26, 0xe2] := by
  have hhex (k : ℕ) : hexDigit (k % 16) ∉ [0x3c, 0x3e, 0x26, 0xe2] :=
    not_special_of_isHex (isHex_hexDigit (Nat.mod_lt _ (by decide)))
  simp only [hexEscape, List.forall_mem_cons]
  exact ⟨by decide, by decide, hhex _, hhex _, hhex _, hhex _, by simp⟩

lemma escapeHTML_hexEscape (n : ℕ) (bs : Bytes) :
    escapeHTML (hexEscape n ++ bs) = hexEscape n ++ escapeHTML bs :=
  escapeHTML_append (hexEscape_not_special n) bs

theorem escapeHTML_escapeHTML (raw : Bytes) : escapeHTML (escapeHTML raw) = escapeHTML raw := by
  fun_induction escapeHTML raw with
  | case1 bs ih | case2 bs ih => rw [escapeHTML_hexEscape, ih]
  | case3 b bs h1 h2 hb ih => rw [escapeHTML_hexEscape, ih]
  | case4 b bs h1 h2 hb ih =>
    -- no line separator comes to light behind the byte
    have hcont (t : UInt8) (ht : t = 0xa8 ∨ t = 0xa9) (rest : Bytes)
        (he : escapeHTML bs = 0x80 :: t :: rest) : ∃ rest', bs = 0x80 :: t :: rest' := by
      have htail : ∀ x ∈ [0x80, t], 0x80 ≤ x.toNat ∧ x.toNat < 0xc0 := by
        rcases ht with rfl | rfl <;> exact List.forall_iff_forall_mem.mp (by decide)
      exact tail_of_escapeHTML htail he
    rw [escapeHTML, if_neg hb, ih]
    · rintro rest rfl he
      obtain ⟨rest', rfl⟩ := hcont _ (.inl rfl) rest he
      exact h1 rest' rfl rfl
    · rintro rest rfl he
      obtain ⟨rest', rfl⟩ := hcont _ (.inr rfl) rest he
      exact h2 rest' rfl rfl
  | case5 => rfl

lemma escapeHTML_utf8 {c : Char} (h : ¬NeedsCode c) (rest : Bytes) :
    escapeHTML (String.utf8EncodeChar c ++ rest) = String.utf8EncodeChar c ++ escapeHTML rest := by
  obtain ⟨b, tail, hcode⟩ := List.exists_cons_of_ne_nil (String.utf8EncodeChar_ne_nil (c := c))
  have hcons : escapeHTML (b :: (tail ++ rest)) = b :: escapeHTML (tail ++ rest) := by
    refine (escapeHTML_cases b (tail ++ rest)).resolve_left ?_
    rintro ⟨c', hc', rest', heq, -⟩
    -- the code of a character is the code of no other
    have hfirst : decodeFirst (b :: (tail ++ rest)) = some c :=
      decodeFirst_iff.mpr ⟨rest, by rw [hcode]; rfl⟩
    rw [decodeFirst_iff.mpr ⟨rest', heq⟩] at hfirst
    cases hfirst
    exact h (htmlChars_coded c hc').1
  rw [hcode, List.cons_append, hcons, escapeHTML_tail (utf8EncodeChar_tail hcode)]
  rfl

lemma escapeHTML_quoteChar (c : Char) (rest : Bytes) :
    escapeHTML (quoteChar c ++ rest) = quoteChar c ++ escapeHTML rest := by
  unfold quoteChar
  split_ifs with h1 h2 h3 h4 h5 h6 h7 h8
  iterate 7 exact escapeHTML_append (List.forall_iff_forall_mem.mp (by decide)) rest
  · exact escapeHTML_hexEscape _ _
  · exact escapeHTML_utf8 h8 rest

theorem escapeHTML_quote (s : List Char) : escapeHTML (quote s) = quote s := by
  induction s with
  | nil => rfl
  | cons c s ih =>
    show escapeHTML (quoteChar c ++ quote s) = quoteChar c ++ quote s
    rw [escapeHTML_quoteChar, ih]

/-! ### Values -/

def Escaped (v : Value) : Prop := v.escapeHTML = v

lemma escaped_str {raw : Bytes} (h : escapeHTML raw = raw) : Escaped (.str raw) :=
  congrArg Value.str h

lemma escaped_arr {elems : List Value} (h : ∀ v ∈ elems, Escaped v) : Escaped (.arr elems) := by
  rw [Escaped, Value.escapeHTML, escapeElems_eq]
  exact congrArg Value.arr ((List.map_congr_left h).trans (List.map_id _))

lemma escaped_obj {members : List (Bytes × Value)}
    (h : ∀ m ∈ members, escapeHTML m.1 = m.1 ∧ Escaped m.2) : Escaped (.obj members) := by
  rw [Escaped, Value.escapeHTML, escapeMembers_eq]
  have hsame : ∀ m ∈ members, (escapeHTML m.1, m.2.escapeHTML) = m := fun m hm =>
    Prod.ext (h m hm).1 (h m hm).2
  exact congrArg Value.obj ((List.map_congr_left hsame).trans (List.map_id _))

theorem escaped_escapeHTML {d : ℕ} {v : Value} (h : WellFormed d v) : Escaped v.escapeHTML := by
  induction h with
  | null | bool | num => rfl
  | str h => exact escaped_str (escapeHTML_escapeHTML _)
  | arr h ih =>
    rw [Value.escapeHTML, escapeElems_eq]
    exact escaped_arr (List.forall_mem_map.mpr ih)
  | obj hk h ih =>
    rw [Value.escapeHTML, escapeMembers_eq]
    exact escaped_obj (List.forall_mem_map.mpr fun m hm => ⟨escapeHTML_escapeHTML _, ih m hm⟩)

end Workforce.Json
