import Workforce.Base64
import Workforce.Contract
import Workforce.JsonSize
import Workforce.JsonText

/-!
Payloads in JSON documents.

A payload that is JSON stands in a document as it is; any other byte slice stands there as a
string in base64, and the nil slice as `null`. The reader takes every string for base64 and
everything else for JSON. The two sides agree except where a payload is nil, is itself a JSON
string, or is nested so deep that the whole document is refused.
-/

namespace Workforce.Payloads

open Json
open Contract hiding Bytes

/-- How deep `encoding/json` lets arrays and objects nest. -/
def maxNestingDepth : ℕ := 10000

def Valid (bs : Bytes) : Prop := (parse maxNestingDepth bs).isSome

instance : DecidablePred Valid := fun _ => inferInstanceAs (Decidable (_ = true))

/-! ### The two methods -/

def marshalBytes : Option Bytes → Bytes
  | none => render .null
  | some bs => render (.str (asciiBytes (Base64.encode bs)))

def unmarshalBytes (data : Bytes) : Option Bytes :=
  match parse maxNestingDepth data with
  | some (.str raw) => Base64.decode (unquote raw)
  | _ => none

def MarshalJSON (r : JsonOrBytes) : Bytes :=
  match r with
  | some bs => if bs ≠ [] ∧ Valid bs then bs else marshalBytes r
  | none => marshalBytes r

def UnmarshalJSON (data : Bytes) : Option JsonOrBytes :=
  if 1 < data.length ∧ data.head? = some quoteMark then (unmarshalBytes data).map some
  else some (some data)

/-! ### Documents -/

/-- One level of a document around a place in it: the other elements of an array, or the other
members of an object and the key of this one. -/
inductive Layer
  | elem (before after : List Value)
  | member (before : List (Bytes × Value)) (key : Bytes) (after : List (Bytes × Value))

def Layer.plug (l : Layer) (v : Value) : Value :=
  match l with
  | .elem before after => .arr (before ++ v :: after)
  | .member before key after => .obj (before ++ (key, v) :: after)

def Layer.select (l : Layer) (v : Value) : Option Value :=
  match l, v with
  | .elem before _, .arr elems => elems[before.length]?
  | .member before _ _, .obj members => members[before.length]?.map Prod.snd
  | _, _ => none

/-- The document with the value in its place, the outermost level first. -/
def plug (ctx : List Layer) (v : Value) : Value := ctx.foldr Layer.plug v

def select : List Layer → Value → Option Value
  | [], v => some v
  | l :: ctx, v => (l.select v).bind (select ctx)

/-- What a document gets for the bytes a `MarshalJSON` returned: they are compacted, and
respelled for HTML. -/
def embed (marshalled : Bytes) : Option Value :=
  (parse maxNestingDepth marshalled).map Value.escapeHTML

def marshalIn (ctx : List Layer) (r : JsonOrBytes) : Option Bytes :=
  (embed (MarshalJSON r)).map fun v => render (plug ctx v)

/-- Read the document; `UnmarshalJSON` is called with the text of the value in its place. -/
def unmarshalIn (ctx : List Layer) (text : Bytes) : Option JsonOrBytes := do
  let doc ← parse maxNestingDepth text
  let v ← select ctx doc
  UnmarshalJSON (render v)

/-- The same bytes, or the same JSON up to whitespace and the spelling of strings. -/
def Same (r r' : JsonOrBytes) : Prop :=
  r' = r ∨ ∃ bs bs' v v', r = some bs ∧ r' = some bs' ∧ parse maxNestingDepth bs = some v ∧
    parse maxNestingDepth bs' = some v' ∧ meaning v' = meaning v

def RoundTrips (ctx : List Layer) (r : JsonOrBytes) : Prop :=
  ∃ text r', marshalIn ctx r = some text ∧ unmarshalIn ctx text = some r' ∧ Same r r'

/-- A payload that survives at `k` levels inside a document: it is not nil, and if it is JSON,
it is no string and leaves room for the levels around it. -/
def Survives (k : ℕ) (r : JsonOrBytes) : Prop :=
  ∃ bs, r = some bs ∧ ∀ v, parse maxNestingDepth bs = some v →
    (∀ raw, v ≠ .str raw) ∧ depth v + k ≤ maxNestingDepth

/-! ### Places in documents -/

variable {ctx : List Layer} {d e : ℕ} {v : Value}

lemma Layer.select_plug (l : Layer) (v : Value) : l.select (l.plug v) = some v := by
  cases l <;> simp [Layer.select, Layer.plug]

lemma select_plug (ctx : List Layer) (v : Value) : select ctx (plug ctx v) = some v := by
  induction ctx with
  | nil => rfl
  | cons l ctx ih =>
    show (l.select (l.plug (plug ctx v))).bind (select ctx) = some v
    rw [Layer.select_plug, Option.bind_some, ih]

lemma Layer.wellFormed_plug {l : Layer} {w : Value} (h : WellFormed (d + 1) (l.plug w))
    (hv : WellFormed d v) : WellFormed (d + 1) (l.plug v) := by
  cases l with
  | elem before after =>
    cases h with
    | arr h =>
      refine .arr fun x hx => ?_
      rcases List.mem_append.mp hx with hx | hx
      · exact h x (List.mem_append_left _ hx)
      · rcases List.mem_cons.mp hx with rfl | hx
        · exact hv
        · exact h x (List.mem_append_right _ (List.mem_cons_of_mem _ hx))
  | member before key after =>
    cases h with
    | obj hk h =>
      refine .obj (fun m hm => ?_) fun m hm => ?_
      · rcases List.mem_append.mp hm with hm | hm
        · exact hk m (List.mem_append_left _ hm)
        · rcases List.mem_cons.mp hm with rfl | hm
          · exact hk (key, w) (by simp)
          · exact hk m (List.mem_append_right _ (List.mem_cons_of_mem _ hm))
      · rcases List.mem_append.mp hm with hm | hm
        · exact h m (List.mem_append_left _ hm)
        · rcases List.mem_cons.mp hm with rfl | hm
          · exact hv
          · exact h m (List.mem_append_right _ (List.mem_cons_of_mem _ hm))

lemma Layer.wellFormed_of_plug {l : Layer} (h : WellFormed d (l.plug v)) :
    ∃ e, d = e + 1 ∧ WellFormed e v := by
  cases l with
  | elem before after =>
    cases h with
    | arr h => exact ⟨_, rfl, h v (by simp)⟩
  | member before key after =>
    cases h with
    | obj hk h => exact ⟨_, rfl, h (key, v) (by simp)⟩

lemma wellFormed_plug {w : Value} (h : WellFormed d (plug ctx w)) (hv : WellFormed e v)
    (hd : e + ctx.length ≤ d) : WellFormed d (plug ctx v) := by
  induction ctx generalizing d with
  | nil => exact hv.mono hd
  | cons l ctx ih =>
    obtain ⟨d, rfl, hrest⟩ := Layer.wellFormed_of_plug (l := l) h
    rw [List.length_cons] at hd
    exact Layer.wellFormed_plug (l := l) h (ih hrest (by omega))

lemma Layer.depth_plug (l : Layer) (v : Value) : depth v + 1 ≤ depth (l.plug v) := by
  cases l with
  | elem before after =>
    exact Nat.succ_le_succ (depth_le_depthElems (by simp))
  | member before key after =>
    exact Nat.succ_le_succ (depth_le_depthMembers (m := (key, v)) (by simp))

lemma depth_plug (ctx : List Layer) (v : Value) : depth v + ctx.length ≤ depth (plug ctx v) := by
  induction ctx with
  | nil => exact le_rfl
  | cons l ctx ih =>
    have hl := l.depth_plug (plug ctx v)
    rw [List.length_cons]
    exact le_trans (by omega) hl

/-- **Reading a document**: the value in its place is found unless the document is too deep. -/
lemma unmarshalIn_render (hctx : WellFormed maxNestingDepth (plug ctx .null))
    (hv : WellFormed d v) :
    unmarshalIn ctx (render (plug ctx v)) =
      if depth v + ctx.length ≤ maxNestingDepth then UnmarshalJSON (render v) else none := by
  have hdoc : WellFormed (maxNestingDepth + (d + ctx.length)) (plug ctx v) :=
    wellFormed_plug (hctx.mono (by omega)) hv (by omega)
  unfold unmarshalIn
  split_ifs with hd
  · have hroom : WellFormed maxNestingDepth (plug ctx v) :=
      wellFormed_plug hctx (hv.of_depth le_rfl) hd
    rw [parse_render hroom]
    show (select ctx (plug ctx v)).bind (fun v => UnmarshalJSON (render v)) = _
    rw [select_plug, Option.bind_some]
  · have hdeep : ¬depth (plug ctx v) ≤ maxNestingDepth := by
      have := depth_plug ctx v
      omega
    rw [parse_render_eq hdoc, if_neg hdeep]
    rfl

/-! ### The two forms -/

lemma plain_base64 : ∀ c ∈ '=' :: Base64.alphabet,
    quoteChar c = [.ofNat c.toNat] ∧ UInt8.ofNat c.toNat ∉ [0x3c, 0x3e, 0x26, 0xe2] :=
  List.forall_iff_forall_mem.mp (by decide +kernel)

lemma base64_eq_quote (bs : Bytes) :
    asciiBytes (Base64.encode bs) = quote (Base64.encode bs) :=
  asciiBytes_eq_quote fun c hc => (plain_base64 c (Base64.mem_encode hc)).1

lemma escapeHTML_base64 (bs : Bytes) :
    escapeHTML (asciiBytes (Base64.encode bs)) = asciiBytes (Base64.encode bs) := by
  have hplain : ∀ b ∈ asciiBytes (Base64.encode bs), b ∉ [0x3c, 0x3e, 0x26, 0xe2] := by
    intro b hb
    obtain ⟨c, hc, rfl⟩ := List.mem_map.mp hb
    exact (plain_base64 c (Base64.mem_encode hc)).2
  have happ := escapeHTML_append hplain []
  rwa [List.append_nil, show escapeHTML [] = [] from rfl, List.append_nil] at happ

lemma embed_render (hv : WellFormed maxNestingDepth v) : embed (render v) = some v.escapeHTML := by
  rw [embed, parse_render hv]
  rfl

lemma UnmarshalJSON_str {raw : Bytes} (h : StrOk raw) :
    UnmarshalJSON (render (.str raw)) = (Base64.decode (unquote raw)).map some := by
  have hlen : 1 < (render (.str raw)).length := by simp [render]
  have hparse : parse maxNestingDepth (render (.str raw)) = some (.str raw) :=
    parse_render (.str h)
  rw [UnmarshalJSON, if_pos ⟨hlen, rfl⟩, unmarshalBytes, hparse]

lemma head_render (hv : WellFormed d v) (hstr : ∀ raw, v ≠ .str raw) :
    (render v).head? ≠ some quoteMark := by
  cases hv with
  | null => decide
  | bool b => cases b <;> decide
  | str h => exact absurd rfl (hstr _)
  | arr | obj =>
    simp only [render, List.cons_append, List.head?_cons, ne_eq, Option.some.injEq]
    decide
  | @num _ text h =>
    obtain ⟨m, h, hm⟩ := h
    cases text with
    | nil =>
      intro hq
      cases hq
    | cons b text =>
      obtain ⟨m', hm', -⟩ := Option.bind_eq_some_iff.mp h
      intro hq
      cases hq
      rcases NumMode.first_byte hm' with hb | hb <;> cases hb

lemma UnmarshalJSON_other (hv : WellFormed d v) (hstr : ∀ raw, v ≠ .str raw) :
    UnmarshalJSON (render v) = some (some (render v)) :=
  if_neg fun h => head_render hv hstr h.2

lemma MarshalJSON_of_parse {bs : Bytes} (h : parse maxNestingDepth bs = some v) :
    MarshalJSON (some bs) = bs := by
  refine if_pos ⟨?_, by rw [Valid, h]; rfl⟩
  rintro rfl
  cases h

lemma MarshalJSON_of_not_valid {bs : Bytes} (h : parse maxNestingDepth bs = none) :
    MarshalJSON (some bs) = render (.str (asciiBytes (Base64.encode bs))) := by
  refine if_neg fun hv => ?_
  have hsome := hv.2
  rw [Valid, h] at hsome
  cases hsome

lemma strOk_base64 (bs : Bytes) : StrOk (asciiBytes (Base64.encode bs)) := by
  rw [base64_eq_quote]
  exact strOk_quote _

lemma escapeHTML_ne_str (h : ∀ raw, v ≠ .str raw) : ∀ raw, v.escapeHTML ≠ .str raw := by
  intro raw heq
  cases v with
  | str raw' => exact h raw' rfl
  | null | bool | num | arr | obj => cases heq

/-! ### Written and read -/

/-- The JSON that stands for a payload: itself, or base64, or `null`. -/
def jsonForm (p : JsonOrBytes) : Value :=
  match p with
  | none => .null
  | some bs => (parse maxNestingDepth bs).getD (.str (asciiBytes (Base64.encode bs)))

def payloadValue (r : JsonOrBytes) : Value := (jsonForm r).escapeHTML

/-- A payload after it has been written and read once. -/
def rereadPayload (r : JsonOrBytes) : Option JsonOrBytes := UnmarshalJSON (render (payloadValue r))

section Form

variable {bs : Bytes}

lemma jsonForm_json (h : parse maxNestingDepth bs = some v) : jsonForm (some bs) = v := by
  rw [jsonForm, h]
  rfl

lemma jsonForm_bytes (h : parse maxNestingDepth bs = none) :
    jsonForm (some bs) = .str (asciiBytes (Base64.encode bs)) := by
  rw [jsonForm, h]
  rfl

lemma wellFormed_jsonForm (r : JsonOrBytes) : WellFormed maxNestingDepth (jsonForm r) := by
  rcases r with _ | bs
  · exact .null
  rcases h : parse maxNestingDepth bs with _ | v
  · rw [jsonForm_bytes h]
    exact .str (strOk_base64 bs)
  · rw [jsonForm_json h]
    exact wellFormed_of_parse h

lemma wellFormed_payloadValue (r : JsonOrBytes) : WellFormed maxNestingDepth (payloadValue r) :=
  (wellFormed_jsonForm r).escapeHTML

lemma depth_payloadValue (r : JsonOrBytes) : depth (payloadValue r) = depth (jsonForm r) :=
  depth_escapeHTML (wellFormed_jsonForm r)

/-- **Marshalling never fails**: what it writes is the JSON of the payload. -/
lemma embed_MarshalJSON (r : JsonOrBytes) : embed (MarshalJSON r) = some (payloadValue r) := by
  rcases r with _ | bs
  · exact embed_render .null
  rw [payloadValue]
  rcases h : parse maxNestingDepth bs with _ | v
  · rw [MarshalJSON_of_not_valid h, embed_render (.str (strOk_base64 bs)), jsonForm_bytes h]
  · rw [MarshalJSON_of_parse h, embed, h, jsonForm_json h]
    rfl

lemma reread_nil : rereadPayload none = some (some (render .null)) :=
  UnmarshalJSON_other (v := .null) (WellFormed.null (d := 0)) (by simp)

lemma reread_bytes (h : parse maxNestingDepth bs = none) :
    rereadPayload (some bs) = some (some bs) := by
  rw [rereadPayload, payloadValue, jsonForm_bytes h, Value.escapeHTML, escapeHTML_base64,
    UnmarshalJSON_str (strOk_base64 bs), base64_eq_quote, unquote_quote, Base64.decode_encode]
  rfl

lemma reread_json (h : parse maxNestingDepth bs = some v) (hstr : ∀ raw, v ≠ .str raw) :
    rereadPayload (some bs) = some (some (render v.escapeHTML)) := by
  rw [rereadPayload, payloadValue, jsonForm_json h,
    UnmarshalJSON_other (wellFormed_of_parse h).escapeHTML (escapeHTML_ne_str hstr)]

lemma reread_str {raw : Bytes} (h : parse maxNestingDepth bs = some (.str raw)) :
    rereadPayload (some bs) = (Base64.decode (unquote raw)).map some := by
  have hraw : StrOk raw := (wellFormed_of_parse h).strOk
  rw [rereadPayload, payloadValue, jsonForm_json h, Value.escapeHTML,
    UnmarshalJSON_str hraw.escapeHTML, unquote, symbols_escapeHTML hraw]
  rfl

end Form

/-! ### Strings do not survive -/

/-- A text in base64 is longer than what it stands for, so no JSON string stands for itself. -/
lemma not_same_of_str {bs b raw : Bytes} (h : parse maxNestingDepth bs = some (.str raw))
    (hb : Base64.decode (unquote raw) = some b) : ¬Same (some bs) (some b) := by
  intro hsame
  obtain ⟨raw', hparse, hsym⟩ : ∃ raw', parse maxNestingDepth b = some (.str raw') ∧
      symbols raw' = symbols raw := by
    rcases hsame with heq | ⟨bs', b', v, v', hbs, hb', hv, hv', hmeaning⟩
    · cases heq
      exact ⟨raw, h, rfl⟩
    · cases hbs
      cases hb'
      rw [h] at hv
      cases hv
      cases v' with
      | str raw' => exact ⟨raw', hv', Meaning.str.inj hmeaning⟩
      | null | bool | num | arr | obj => cases hmeaning
  have hlong : raw'.length + 2 ≤ b.length + 1 := by
    have hrender := length_render_le hparse
    simpa [render] using hrender
  have hshort : b.length ≤ raw'.length := calc
    b.length ≤ (unquote raw).length := Base64.length_decode hb
    _ = (symbols raw).length := List.length_map _
    _ = (symbols raw').length := by rw [hsym]
    _ ≤ raw'.length := length_chunks_le 0 raw'
  omega

/-! ### The round trip -/

lemma roundTrips_iff_reread (hctx : WellFormed maxNestingDepth (plug ctx .null)) (r : JsonOrBytes) :
    RoundTrips ctx r ↔ depth (jsonForm r) + ctx.length ≤ maxNestingDepth ∧
      ∃ r', rereadPayload r = some r' ∧ Same r r' := by
  have hread := unmarshalIn_render hctx (wellFormed_payloadValue r)
  rw [depth_payloadValue] at hread
  simp only [RoundTrips, marshalIn, embed_MarshalJSON, Option.map_some, Option.some.injEq]
  constructor
  · rintro ⟨text, r', rfl, hr', hsame⟩
    rw [hread] at hr'
    split_ifs at hr' with hroom
    exact ⟨hroom, r', hr', hsame⟩
  · rintro ⟨hroom, r', hr', hsame⟩
    rw [if_pos hroom] at hread
    exact ⟨_, r', rfl, hread.trans hr', hsame⟩

/-- **The round trip of payloads.** In any place of any document that is itself readable, a
payload is written and read back as the same bytes, or as the same JSON, exactly when it is
not nil, no JSON string, and not nested too deep for its place. -/
theorem roundTrips_iff (hctx : WellFormed maxNestingDepth (plug ctx .null)) (r : JsonOrBytes) :
    RoundTrips ctx r ↔ Survives ctx.length r := by
  rw [roundTrips_iff_reread hctx]
  rcases r with _ | bs
  · refine iff_of_false ?_ (by simp [Survives])
    rintro ⟨-, r', hr', hsame⟩
    rw [reread_nil] at hr'
    cases hr'
    rcases hsame with heq | ⟨bs, -, -, -, hbs, -⟩
    · cases heq
    · cases hbs
  rcases h : parse maxNestingDepth bs with _ | v
  · rw [jsonForm_bytes h]
    have hroom := (depth_plug ctx .null).trans hctx.depth_le
    exact iff_of_true ⟨hroom, _, reread_bytes h, .inl rfl⟩ (by simp [Survives, h])
  · have hv := wellFormed_of_parse h
    have hsurvives : Survives ctx.length (some bs) ↔
        depth v + ctx.length ≤ maxNestingDepth ∧ ∀ raw, v ≠ .str raw := by
      simp [Survives, h, and_comm]
    rw [hsurvives, jsonForm_json h]
    refine and_congr_right fun _ => ⟨?_, fun hstr => ⟨_, reread_json h hstr, .inr ⟨bs, _, v, _, rfl,
      rfl, h, parse_render hv.escapeHTML, meaning_escapeHTML hv⟩⟩⟩
    rintro ⟨r', hr', hsame⟩ raw rfl
    rw [reread_str h] at hr'
    obtain ⟨b, hb, rfl⟩ := Option.map_eq_some_iff.mp hr'
    exact not_same_of_str h hb hsame

/-- The place of `result` in `{"result": …}`. -/
def resultMember : List Layer := [.member [] (asciiBytes "result".toList) []]

lemma wellFormed_resultMember : WellFormed maxNestingDepth (plug resultMember .null) := by
  refine .obj (fun m hm => ?_) fun m hm => ?_
  · rw [List.mem_singleton.mp hm]
    decide
  · rw [List.mem_singleton.mp hm]
    exact .null

def object : Value := .obj [(asciiBytes "a".toList, .arr [.num (intText 1)])]

lemma wellFormed_object : WellFormed 2 object := by
  refine .obj (fun m hm => ?_) fun m hm => ?_
  · rw [List.mem_singleton.mp hm]
    decide
  · rw [List.mem_singleton.mp hm]
    refine .arr fun v hv => ?_
    rw [List.mem_singleton.mp hv]
    exact .num (numOk_intText 1)

theorem roundTrips_object : RoundTrips resultMember (some (render object)) := by
  refine (roundTrips_iff wellFormed_resultMember _).mpr ⟨_, rfl, fun v hv => ?_⟩
  have hparse : parse maxNestingDepth (render object) = some object :=
    parse_render (wellFormed_object.mono (by decide))
  rw [hparse] at hv
  cases hv
  have hdepth : depth object ≤ 2 := wellFormed_object.depth_le
  refine ⟨fun raw heq => (nomatch heq), ?_⟩
  rw [maxNestingDepth, show resultMember.length = 1 from rfl]
  omega

/-- **A JSON string is not read back**: the result `"abc"` stands in the document as the string
it is, and the reader takes that for base64. -/
theorem string_not_read :
    marshalIn resultMember (some (asciiBytes "\"abc\"".toList)) =
        some (asciiBytes "\x7b\"result\":\"abc\"\x7d".toList) ∧
      ¬RoundTrips resultMember (some (asciiBytes "\"abc\"".toList)) := by
  have htext : marshalIn resultMember (some (asciiBytes "\"abc\"".toList)) =
      some (asciiBytes "\x7b\"result\":\"abc\"\x7d".toList) := by decide +kernel
  refine ⟨htext, ?_⟩
  rintro ⟨text, r', hmarshal, hread, -⟩
  rw [htext] at hmarshal
  cases hmarshal
  have hnone : unmarshalIn resultMember (asciiBytes "\x7b\"result\":\"abc\"\x7d".toList) =
      none := by decide +kernel
  rw [hnone] at hread
  cases hread

end Workforce.Payloads
