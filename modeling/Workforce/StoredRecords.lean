import Workforce.Replies
import Workforce.Timestamps

/-!
The entities as they are stored: each is a JSON object with one member for each field.

Everything but the payloads is read back as it was written. A payload that is JSON stands in the
object as it is, and a string is taken for base64 when it is read; so a payload can come back
changed, and an entity can be impossible to read. What reading makes of a payload, and which
payloads it leaves alone, is all that the files of the store depend on.
-/

namespace Workforce.StoredRecords

open Json Payloads
open Contract hiding Bytes

/-! ### Payloads -/

/-- The payload can be read: if it is a JSON string, that is base64. -/
def Readable (r : JsonOrBytes) : Prop :=
  ∀ bs raw, r = some bs → parse maxNestingDepth bs = some (.str raw) →
    (Base64.decode (unquote raw)).isSome

/-- The payload is read as it is: it is not nil, and if it is JSON, it is no string and spelled
as it would be written. -/
def Settled (r : JsonOrBytes) : Prop :=
  ∃ bs, r = some bs ∧ ∀ v, parse maxNestingDepth bs = some v →
    (∀ raw, v ≠ .str raw) ∧ render v.escapeHTML = bs

section Payload

variable {r : JsonOrBytes} {bs : Bytes} {v : Value}

lemma escaped_payloadValue (r : JsonOrBytes) : Escaped (payloadValue r) :=
  escaped_escapeHTML (wellFormed_jsonForm r)

lemma isStr_or (v : Value) : (∃ raw, v = .str raw) ∨ ∀ raw, v ≠ .str raw := by
  cases v with
  | str raw => exact .inl ⟨raw, rfl⟩
  | null | bool | num | arr | obj => exact .inr fun _ => by simp

theorem reread_isSome_iff (r : JsonOrBytes) : (rereadPayload r).isSome ↔ Readable r := by
  rcases r with _ | bs
  · exact iff_of_true rfl fun bs raw hbs => by cases hbs
  have hreadable : Readable (some bs) ↔ ∀ raw, parse maxNestingDepth bs = some (.str raw) →
      (Base64.decode (unquote raw)).isSome := by
    rw [Readable, forall_comm]
    simp
  rw [hreadable]
  rcases h : parse maxNestingDepth bs with _ | v
  · rw [reread_bytes h]
    simp
  rcases isStr_or v with ⟨raw, rfl⟩ | hstr
  · rw [reread_str h, Option.isSome_map]
    simp
  · rw [reread_json h hstr]
    simp [hstr]

/-- A JSON string never stands for itself. -/
lemma reread_str_ne {raw : Bytes} (h : parse maxNestingDepth bs = some (.str raw)) :
    rereadPayload (some bs) ≠ some (some bs) := by
  rw [reread_str h]
  intro heq
  obtain ⟨b, hb, hbs⟩ := Option.map_eq_some_iff.mp heq
  cases hbs
  exact not_same_of_str h hb (.inl rfl)

/-- **The payloads that come back as they were.** -/
theorem reread_eq_self_iff (r : JsonOrBytes) : rereadPayload r = some r ↔ Settled r := by
  rcases r with _ | bs
  · rw [reread_nil]
    refine iff_of_false (by simp) ?_
    rintro ⟨bs, hbs, -⟩
    cases hbs
  have hsettled : Settled (some bs) ↔ ∀ v, parse maxNestingDepth bs = some v →
      (∀ raw, v ≠ .str raw) ∧ render v.escapeHTML = bs := by simp [Settled]
  rw [hsettled]
  rcases h : parse maxNestingDepth bs with _ | v
  · rw [reread_bytes h]
    simp
  rcases isStr_or v with ⟨raw, rfl⟩ | hstr
  · refine iff_of_false (reread_str_ne h) fun hall => ?_
    exact (hall _ rfl).1 raw rfl
  · rw [reread_json h hstr]
    simp only [Option.some.injEq]
    constructor
    · rintro heq w rfl
      exact ⟨hstr, heq⟩
    · exact fun hall => (hall v rfl).2

end Payload

/-! ### The other fields -/

/-- A value without payloads: nested at most once, and spelled as it would be written. -/
def Simple (v : Value) : Prop := WellFormed 1 v ∧ Escaped v

lemma simple_null : Simple .null := ⟨.null, rfl⟩

lemma simple_encodeString (s : String) : Simple (encodeString s) :=
  ⟨wellFormed_encodeString s, escaped_str (escapeHTML_quote _)⟩

lemma simple_encodeInt (n : ℤ) : Simple (encodeInt n) := ⟨wellFormed_encodeInt n, rfl⟩

/-- What a stored value has to say beyond what the model keeps: the zone of an instant, if a slice or
map without elements is nil, by the entity and the field, and the cores a task may use, a float. -/
structure Spelling where
  zoneOf : Time → ℤ
  isNil : String → String → Bool
  cores : String → Bytes
  cores_ok : ∀ task, NumOk (cores task)

instance : Inhabited Spelling :=
  ⟨⟨fun _ => 0, fun _ _ => true, fun _ => [0x30], fun _ => ⟨_, rfl, rfl⟩⟩⟩

section Times

variable (sp : Spelling)

/-- A time is written in the zone of its instant, if its year has four digits there. -/
def encodeTime (t : Time) : Option Value :=
  (Timestamps.format (sp.zoneOf t) t).map fun cs => .str (asciiBytes cs)

def decodeTime : Decoder Time
  | t, .null => some t
  | _, .str raw => Timestamps.parse (asciiChars raw)
  | _, _ => none

variable {sp} {t : Time} {v : Value}

lemma plain_ascii {c : Char} (h : Timestamps.Plain c) :
    c.toNat < 0x80 ∧ quoteChar c = [.ofNat c.toNat] := by
  rcases h with hd | hc
  · obtain ⟨hlow, hhigh⟩ := Char.isDigit_iff_toNat.mp hd
    have hc : c = Char.ofNat c.toNat := (Char.ofNat_toNat c).symm
    have hlow : 48 ≤ c.toNat := hlow
    have hhigh : c.toNat ≤ 57 := hhigh
    rw [hc]
    interval_cases c.toNat <;> decide
  · fin_cases hc <;> decide

lemma simple_encodeTime (h : encodeTime sp t = some v) : Simple v := by
  obtain ⟨cs, hcs, rfl⟩ := Option.map_eq_some_iff.mp h
  have hquote : asciiBytes cs = quote cs := asciiBytes_eq_quote fun c hc =>
    (plain_ascii (Timestamps.plain_format hcs c hc)).2
  rw [hquote]
  exact ⟨.str (strOk_quote _), escaped_str (escapeHTML_quote _)⟩

lemma decodeTime_encodeTime (h : encodeTime sp t = some v) (t' : Time) :
    decodeTime t' v = some t := by
  obtain ⟨cs, hcs, rfl⟩ := Option.map_eq_some_iff.mp h
  have hascii := asciiChars_asciiBytes fun c hc =>
    (plain_ascii (Timestamps.plain_format hcs c hc)).1
  rw [decodeTime, hascii, Timestamps.parse_format hcs]

end Times

section Pointers

variable {α : Type} {encode : α → Option Value} {decode : Decoder α} {zero : α}

def encodePointer (encode : α → Option Value) : Option α → Option Value
  | none => some .null
  | some a => encode a

def decodePointer (decode : Decoder α) (zero : α) : Decoder (Option α)
  | _, .null => some none
  | p, v => (decode (p.getD zero) v).map some

lemma decodePointer_of_ne {v : Value} (h : v ≠ .null) (p : Option α) :
    decodePointer decode zero p v = (decode (p.getD zero) v).map some := by
  cases v <;> first | rfl | exact absurd rfl h

lemma simple_encodePointer {p : Option α} {v : Value} (h : encodePointer encode p = some v)
    (hencode : ∀ a ∈ p, encode a = some v → Simple v) : Simple v := by
  cases p with
  | none =>
    cases h
    exact simple_null
  | some a => exact hencode a rfl h

lemma decodePointer_encodePointer {p q : Option α} {v : Value}
    (h : encodePointer encode p = some v)
    (hdecode : ∀ a ∈ p, encode a = some v → v ≠ .null ∧ ∀ b, decode b v = some a) :
    decodePointer decode zero q v = some p := by
  cases p with
  | none =>
    cases h
    rfl
  | some a =>
    obtain ⟨hne, hread⟩ := hdecode a rfl h
    rw [decodePointer_of_ne hne, hread]
    rfl

end Pointers

section Enums

variable {α : Type}

/-- A named constant is written as its text; only the texts of the constants are read. -/
def encodeEnum (text : α → String) (a : α) : Value := encodeString (text a)

def decodeEnum (all : List α) (text : α → String) : Decoder α
  | a, .null => some a
  | _, .str raw => all.find? fun b => text b = String.ofList (unquote raw)
  | _, _ => none

lemma decodeEnum_encodeEnum {all : List α} {text : α → String} {a : α}
    (h : (all.find? fun b => text b = text a) = some a) (b : α) :
    decodeEnum all text b (encodeEnum text a) = some a := by
  rw [encodeEnum, encodeString, decodeEnum, unquote_quote, String.ofList_toList, h]

end Enums

def encodeBool (b : Bool) : Value := .bool b

def decodeBool : Decoder Bool
  | b, .null => some b
  | _, .bool b => some b
  | _, _ => none

def encodeStrings (isNil : Bool) (ss : List String) : Value :=
  if ss = [] ∧ isNil then .null else .arr (ss.map encodeString)

def decodeStrings : Decoder (List String) := fun _ => decodeSlice (decodeString "")

lemma simple_encodeStrings (isNil : Bool) (ss : List String) : Simple (encodeStrings isNil ss) := by
  unfold encodeStrings
  split_ifs
  · exact simple_null
  · exact ⟨.arr (List.forall_mem_map.mpr fun s _ => wellFormed_encodeString s),
      escaped_arr (List.forall_mem_map.mpr fun s _ => (simple_encodeString s).2)⟩

lemma decodeStrings_encodeStrings (isNil : Bool) (ss ss' : List String) :
    decodeStrings ss' (encodeStrings isNil ss) = some ss := by
  unfold encodeStrings
  split_ifs with h
  · rw [h.1]
    rfl
  · refine mapM_eq_some.mpr ?_
    rw [List.forall₂_map_left_iff, List.forall₂_same]
    exact fun s _ => decodeString_encodeString _ s

section Maps

/-- A map of texts, as the list of its entries in the order they are written in. -/
abbrev StringMap := List (String × String)

def mapSet (ps : StringMap) (k v : String) : StringMap :=
  if ∃ p ∈ ps, p.1 = k then ps.map fun p => if p.1 = k then (k, v) else p else ps ++ [(k, v)]

def encodeMap (isNil : Bool) (ps : StringMap) : Value :=
  if ps = [] ∧ isNil then .null else .obj (ps.map fun p => member p.1 (encodeString p.2))

def decodeMap : Decoder StringMap
  | _, .null => some []
  | ps, .obj ms =>
    ms.foldlM (fun ps m =>
      (decodeString "" m.2).map (mapSet ps (String.ofList (unquote m.1)))) ps
  | _, _ => none

/-- The entries with each key once. -/
def distinctKeys (ps : StringMap) : StringMap := ps.foldl (fun qs p => mapSet qs p.1 p.2) []

lemma simple_encodeMap (isNil : Bool) (ps : StringMap) : Simple (encodeMap isNil ps) := by
  unfold encodeMap
  split_ifs
  · exact simple_null
  · constructor
    · exact .obj (List.forall_mem_map.mpr fun p _ => strOk_quote _)
        (List.forall_mem_map.mpr fun p _ => wellFormed_encodeString p.2)
    · exact escaped_obj (List.forall_mem_map.mpr fun p _ =>
        ⟨escapeHTML_quote _, (simple_encodeString p.2).2⟩)

lemma foldlM_members (ps qs : StringMap) :
    (ps.map fun p => member p.1 (encodeString p.2)).foldlM (fun qs m =>
        (decodeString "" m.2).map (mapSet qs (String.ofList (unquote m.1)))) qs =
      some (ps.foldl (fun qs p => mapSet qs p.1 p.2) qs) := by
  induction ps generalizing qs with
  | nil => rfl
  | cons p ps ih =>
    rw [List.map_cons, List.foldlM_cons, List.foldl_cons, ← ih]
    simp only [member, decodeString_encodeString, unquote_quote, String.ofList_toList,
      Option.map_some, Option.bind_eq_bind, Option.bind_some]

lemma decodeMap_encodeMap (isNil : Bool) (ps : StringMap) :
    decodeMap [] (encodeMap isNil ps) = some (distinctKeys ps) := by
  unfold encodeMap
  split_ifs with h
  · rw [h.1]
    rfl
  · exact foldlM_members ps []

lemma mapSet_of_notMem {ps : StringMap} {k : String} (h : k ∉ ps.map Prod.fst) (v : String) :
    mapSet ps k v = ps ++ [(k, v)] := by
  refine if_neg ?_
  rintro ⟨p, hp, rfl⟩
  exact h (List.mem_map_of_mem hp)

lemma keys_mapSet_of_mem {ps : StringMap} {k : String} (h : k ∈ ps.map Prod.fst) (v : String) :
    (mapSet ps k v).map Prod.fst = ps.map Prod.fst := by
  obtain ⟨p, hp, hk⟩ := List.mem_map.mp h
  rw [mapSet, if_pos ⟨p, hp, hk⟩, List.map_map]
  refine List.map_congr_left fun q _ => ?_
  show (if q.1 = k then (k, v) else q).1 = q.1
  split_ifs with hq
  · exact hq.symm
  · rfl

lemma nodup_mapSet {ps : StringMap} (h : (ps.map Prod.fst).Nodup) (k v : String) :
    ((mapSet ps k v).map Prod.fst).Nodup := by
  by_cases hk : k ∈ ps.map Prod.fst
  · rwa [keys_mapSet_of_mem hk]
  · rw [mapSet_of_notMem hk, List.map_append]
    exact List.nodup_append'.mpr ⟨h, List.nodup_singleton k, by simpa using hk⟩

lemma nodup_distinctKeys (ps : StringMap) : ((distinctKeys ps).map Prod.fst).Nodup :=
  List.foldlRecOn (motive := fun qs : StringMap => (qs.map Prod.fst).Nodup) ps _ List.nodup_nil
    fun _ h p _ => nodup_mapSet h p.1 p.2

lemma foldl_mapSet {ps qs : StringMap} (h : ((qs ++ ps).map Prod.fst).Nodup) :
    ps.foldl (fun qs p => mapSet qs p.1 p.2) qs = qs ++ ps := by
  induction ps generalizing qs with
  | nil => rw [List.append_nil, List.foldl_nil]
  | cons p ps ih =>
    rw [List.append_cons] at h
    have hp : p.1 ∉ qs.map Prod.fst := by
      rw [List.map_append, List.map_append] at h
      have hdisj := List.disjoint_of_nodup_append (List.nodup_append'.mp h).1
      exact fun hmem => hdisj hmem (by simp)
    rw [List.foldl_cons, mapSet_of_notMem hp, ih h, ← List.append_cons]

lemma distinctKeys_of_nodup {ps : StringMap} (h : (ps.map Prod.fst).Nodup) :
    distinctKeys ps = ps := foldl_mapSet h

lemma distinctKeys_distinctKeys (ps : StringMap) :
    distinctKeys (distinctKeys ps) = distinctKeys ps :=
  distinctKeys_of_nodup (nodup_distinctKeys ps)

end Maps

/-! ### Codings of records -/

/-- How a type of records is written and read. Its payloads are the only values that may be
nested deep or change when they are read; `Fits` says that its integers have 64 bits. -/
structure Coding (X : Type) where
  names : List String
  values : X → Option (List Value)
  decode : Value → Option X
  payloads : X → List JsonOrBytes
  Fits : X → Prop
  reread : X → Option X
  /-- The record with other payloads. -/
  update : X → List JsonOrBytes → X
  length_values : ∀ {x vs}, values x = some vs → names.length = vs.length
  simple_or_payload : ∀ {x vs}, values x = some vs →
    ∀ v ∈ vs, Simple v ∨ ∃ r ∈ payloads x, v = payloadValue r
  payload_mem : ∀ {x vs}, values x = some vs → ∀ r ∈ payloads x, payloadValue r ∈ vs
  decode_record : ∀ {x vs}, Fits x → values x = some vs →
    decode (record names (vs.map some)) = reread x
  reread_eq : ∀ x, reread x = ((payloads x).mapM rereadPayload).map (update x)
  payloads_update : ∀ {x l}, l.length = (payloads x).length → payloads (update x l) = l
  update_update : ∀ x l, update (update x l) l = update x l
  fits_update : ∀ {x} l, Fits x → Fits (update x l)
  values_update : ∀ {x} l, (values x).isSome → (values (update x l)).isSome

namespace Coding

variable {X : Type} (C : Coding X)

/-- The object a record is written as; there is none if one of its times cannot be written. -/
def encode (x : X) : Option Value := (C.values x).map fun vs => record C.names (vs.map some)

variable {C} {x : X} {v : Value}

lemma encode_cases (h : C.encode x = some v) :
    ∃ vs, C.values x = some vs ∧ v = record C.names (vs.map some) ∧
      ∀ w, some w ∈ vs.map some ↔ w ∈ vs := by
  obtain ⟨vs, hvs, rfl⟩ := Option.map_eq_some_iff.mp h
  exact ⟨vs, hvs, rfl, fun w => by simp⟩

lemma wellFormed_encode (h : C.encode x = some v) : WellFormed (maxNestingDepth + 1) v := by
  obtain ⟨vs, hvs, rfl, hmem⟩ := encode_cases h
  refine wellFormed_record fun w hw => ?_
  rcases C.simple_or_payload hvs w ((hmem w).mp hw) with hw | ⟨r, -, rfl⟩
  · exact hw.1.mono (by decide)
  · exact wellFormed_payloadValue r

lemma escaped_encode (h : C.encode x = some v) : Escaped v := by
  obtain ⟨vs, hvs, rfl, hmem⟩ := encode_cases h
  refine escaped_record fun w hw => ?_
  rcases C.simple_or_payload hvs w ((hmem w).mp hw) with hw | ⟨r, -, rfl⟩
  · exact hw.2
  · exact escaped_payloadValue r

/-- Only payloads make a record deep. -/
lemma depth_encode_le (h : C.encode x = some v) {d : ℕ} (hd : 2 ≤ d) :
    depth v ≤ d ↔ ∀ r ∈ C.payloads x, depth (payloadValue r) + 1 ≤ d := by
  obtain ⟨vs, hvs, rfl, hmem⟩ := encode_cases h
  obtain ⟨d, rfl⟩ : ∃ e, d = e + 1 := ⟨d - 1, by omega⟩
  rw [depth_record_le (by rw [List.length_map, C.length_values hvs])]
  constructor
  · intro hall r hr
    exact Nat.succ_le_succ (hall _ ((hmem _).mpr (C.payload_mem hvs r hr)))
  · intro hall w hw
    rcases C.simple_or_payload hvs w ((hmem w).mp hw) with hw | ⟨r, hr, rfl⟩
    · exact hw.1.depth_le.trans (by omega)
    · exact Nat.le_of_succ_le_succ (hall r hr)

/-- **A record that was written is read** as itself up to its payloads. -/
lemma decode_encode (hfits : C.Fits x) (h : C.encode x = some v) : C.decode v = C.reread x := by
  obtain ⟨vs, hvs, rfl, -⟩ := encode_cases h
  exact C.decode_record hfits hvs

variable (C)

lemma reread_isSome (x : X) : (C.reread x).isSome ↔ ∀ r ∈ C.payloads x, (rereadPayload r).isSome := by
  rw [C.reread_eq, Option.isSome_map, mapM_isSome_iff]

lemma reread_cases {y : X} (h : C.reread x = some y) :
    ∃ l, (C.payloads x).mapM rereadPayload = some l ∧ C.payloads y = l ∧ y = C.update x l := by
  rw [C.reread_eq] at h
  obtain ⟨l, hl, rfl⟩ := Option.map_eq_some_iff.mp h
  exact ⟨l, hl, C.payloads_update (mapM_eq_some.mp hl).length_eq.symm, rfl⟩

lemma reread_fits {y : X} (h : C.reread x = some y) (hfits : C.Fits x) : C.Fits y := by
  obtain ⟨l, -, -, rfl⟩ := C.reread_cases h
  exact C.fits_update l hfits

lemma encode_reread {y : X} (h : C.reread x = some y) (hx : (C.encode x).isSome) :
    (C.encode y).isSome := by
  rw [encode, Option.isSome_map] at hx ⊢
  obtain ⟨l, -, -, rfl⟩ := C.reread_cases h
  exact C.values_update l hx

/-- Read once, a record is read the same again exactly if its payloads are. -/
lemma reread_fixed {y : X} (h : C.reread x = some y) :
    C.reread y = some y ↔ ∀ r ∈ C.payloads y, rereadPayload r = some r := by
  have hsame : (C.payloads y).mapM rereadPayload = some (C.payloads y) ↔
      ∀ r ∈ C.payloads y, rereadPayload r = some r := mapM_eq_some.trans List.forall₂_same
  rw [← hsame]
  constructor
  · intro hy
    obtain ⟨l, hl, rfl, -⟩ := C.reread_cases hy
    exact hl
  · intro hl
    obtain ⟨l, -, rfl, heq⟩ := C.reread_cases h
    rw [C.reread_eq, hl, Option.map_some]
    generalize C.payloads y = l at heq
    rw [heq, C.update_update]

end Coding

end Workforce.StoredRecords
