import Workforce.JsonEscaped
import Workforce.JsonSize

/-!
Records as JSON objects.

A record is written as an object with one member for each field, and read member by member:
a member whose name is a field's, up to case, sets that field, a member with another name is
skipped, and a field without a member keeps its zero value.
-/

namespace Workforce.Json

/-! ### Names -/

/-- One character of a name without its case. Two characters outside ASCII count as letters. -/
def foldChar (c : Char) : Char :=
  if 'a' ≤ c ∧ c ≤ 'z' then Char.ofNat (c.toNat - 32)
  else if c.toNat = 0x17f then 'S'
  else if c.toNat = 0x212a then 'K'
  else c

def Matches (name : String) (key : Bytes) : Prop :=
  (unquote key).map foldChar = name.toList.map foldChar

instance (name : String) (key : Bytes) : Decidable (Matches name key) :=
  inferInstanceAs (Decidable (_ = _))

/-! ### Reading -/

/-- Read a value over what a field holds. -/
abbrev Decoder (α : Type) := α → Value → Option α

def decodeString : Decoder String
  | s, .null => some s
  | _, .str raw => some (String.ofList (unquote raw))
  | _, _ => none

def decodeInt : Decoder ℤ
  | n, .null => some n
  | _, .num text => readInt text
  | _, _ => none

def decodeSlice {α : Type} (decode : Value → Option α) : Value → Option (List α)
  | .null => some []
  | .arr elems => elems.mapM decode
  | _ => none

/-- The members a record is read from; `null` leaves it as it is. -/
def members : Value → Option (List (Bytes × Value))
  | .null => some []
  | .obj ms => some ms
  | _ => none

/-- A field of a record: each member with its name is read over what the ones before it left. -/
def field {α : Type} (name : String) (decode : Decoder α) (zero : α) (ms : List (Bytes × Value)) :
    Option α :=
  (ms.filter fun m => Matches name m.1).foldlM (fun a m => decode a m.2) zero

/-! ### Writing -/

def member (name : String) (v : Value) : Bytes × Value := (quote name.toList, v)

def encodeString (s : String) : Value := .str (quote s.toList)

def encodeInt (n : ℤ) : Value := .num (intText n)

lemma matches_quote (name other : String) :
    Matches name (quote other.toList) ↔ other.toList.map foldChar = name.toList.map foldChar := by
  rw [Matches, unquote_quote]

section Field

variable {α : Type} (name : String) (decode : Decoder α) (zero : α)

@[simp] lemma field_nil : field name decode zero [] = some zero := rfl

lemma field_member (other : String) (v : Value) (ms : List (Bytes × Value)) :
    field name decode zero (member other v :: ms) =
      if other.toList.map foldChar = name.toList.map foldChar then
        (decode zero v).bind fun a => field name decode a ms
      else field name decode zero ms := by
  split_ifs with h
  · have hyes : Matches name (member other v).1 := (matches_quote name other).mpr h
    rw [field, List.filter_cons_of_pos (by simpa using hyes), List.foldlM_cons]
    rfl
  · have hno : ¬Matches name (member other v).1 := fun hm => h ((matches_quote name other).mp hm)
    rw [field, List.filter_cons_of_neg (by simpa using hno)]
    rfl

end Field

@[simp] lemma decodeString_encodeString (s t : String) :
    decodeString s (encodeString t) = some t := by
  rw [encodeString, decodeString, unquote_quote, String.ofList_toList]

lemma decodeInt_encodeInt (m : ℤ) {n : ℤ} (h : Decimal.IsInt64 n) :
    decodeInt m (encodeInt n) = some n := readInt_intText h

lemma wellFormed_encodeString {d : ℕ} (s : String) : WellFormed d (encodeString s) :=
  .str (strOk_quote _)

lemma wellFormed_encodeInt {d : ℕ} (n : ℤ) : WellFormed d (encodeInt n) := .num (numOk_intText n)

lemma mapM_eq_some {α β : Type} {f : α → Option β} {xs : List α} {ys : List β} :
    xs.mapM f = some ys ↔ List.Forall₂ (fun x y => f x = some y) xs ys := by
  induction xs generalizing ys with
  | nil => simp [eq_comm]
  | cons x xs ih =>
    simp only [List.mapM_cons, Option.bind_eq_bind, Option.bind_eq_some_iff, List.forall₂_cons_left_iff]
    constructor
    · rintro ⟨y, hy, ys', hys, heq⟩
      cases heq
      exact ⟨y, ys', hy, ih.mp hys, rfl⟩
    · rintro ⟨y, ys', hy, hys, rfl⟩
      exact ⟨y, hy, ys', ih.mpr hys, rfl⟩

lemma mapM_isSome_iff {α β : Type} {f : α → Option β} {xs : List α} :
    (xs.mapM f).isSome ↔ ∀ x ∈ xs, (f x).isSome := by
  induction xs with
  | nil => simp
  | cons x xs ih =>
    rw [List.mapM_cons, List.forall_mem_cons, ← ih]
    cases f x <;> cases xs.mapM f <;> simp

lemma exists_of_mapM_left {α β : Type} {f : α → Option β} {xs : List α} {ys : List β}
    (h : xs.mapM f = some ys) {x : α} (hx : x ∈ xs) : ∃ y ∈ ys, f x = some y := by
  have hall := mapM_eq_some.mp h
  clear h
  induction hall with
  | nil => cases hx
  | @cons a b as bs hab _ ih =>
    rcases List.mem_cons.mp hx with rfl | hx
    · exact ⟨b, List.mem_cons_self, hab⟩
    · obtain ⟨y, hy, hxy⟩ := ih hx
      exact ⟨y, List.mem_cons_of_mem _ hy, hxy⟩

lemma exists_of_mapM_right {α β : Type} {f : α → Option β} {xs : List α} {ys : List β}
    (h : xs.mapM f = some ys) {y : β} (hy : y ∈ ys) : ∃ x ∈ xs, f x = some y := by
  have hall := mapM_eq_some.mp h
  clear h
  induction hall with
  | nil => cases hy
  | @cons a b as bs hab _ ih =>
    rcases List.mem_cons.mp hy with rfl | hy
    · exact ⟨a, List.mem_cons_self, hab⟩
    · obtain ⟨x, hx, hxy⟩ := ih hy
      exact ⟨x, List.mem_cons_of_mem _ hx, hxy⟩

lemma wellFormed_members {d : ℕ} (fields : List (String × Value))
    (h : ∀ f ∈ fields, WellFormed d f.2) :
    WellFormed (d + 1) (.obj (fields.map fun f => member f.1 f.2)) := by
  refine .obj (fun m hm => ?_) fun m hm => ?_
  · obtain ⟨f, -, rfl⟩ := List.mem_map.mp hm
    exact strOk_quote _
  · obtain ⟨f, hf, rfl⟩ := List.mem_map.mp hm
    exact h f hf

/-! ### Whole records -/

/-- The members of a record; a field without a value is left out. -/
def recordMembers (names : List String) (values : List (Option Value)) : List (Bytes × Value) :=
  (names.zip values).filterMap fun f => f.2.map (member f.1)

def record (names : List String) (values : List (Option Value)) : Value :=
  .obj (recordMembers names values)

def foldName (name : String) : List Char := name.toList.map foldChar

def DistinctNames (names : List String) : Prop := (names.map foldName).Nodup

instance (names : List String) : Decidable (DistinctNames names) :=
  inferInstanceAs (Decidable (List.Nodup _))

section Record

variable {names : List String} {values : List (Option Value)} {d : ℕ}

lemma mem_recordMembers {m : Bytes × Value} (h : m ∈ recordMembers names values) :
    ∃ name v, m = member name v ∧ some v ∈ values := by
  obtain ⟨⟨name, ov⟩, hmem, hm⟩ := List.mem_filterMap.mp h
  obtain ⟨v, rfl, rfl⟩ := Option.map_eq_some_iff.mp hm
  exact ⟨name, v, rfl, (List.of_mem_zip hmem).2⟩

lemma exists_member (hlen : names.length = values.length) {v : Value} (h : some v ∈ values) :
    ∃ name, member name v ∈ recordMembers names values := by
  obtain ⟨i, hi, hv⟩ := List.mem_iff_getElem.mp h
  refine ⟨names[i], List.mem_filterMap.mpr ⟨(names[i], some v), ?_, rfl⟩⟩
  refine List.mem_iff_getElem.mpr ⟨i, by simp [hlen, hi], ?_⟩
  rw [List.getElem_zip, hv]

lemma wellFormed_record (h : ∀ v, some v ∈ values → WellFormed d v) :
    WellFormed (d + 1) (record names values) := by
  refine .obj (fun m hm => ?_) fun m hm => ?_
  · obtain ⟨name, v, rfl, -⟩ := mem_recordMembers hm
    exact strOk_quote _
  · obtain ⟨name, v, rfl, hv⟩ := mem_recordMembers hm
    exact h v hv

lemma escaped_record (h : ∀ v, some v ∈ values → Escaped v) : Escaped (record names values) := by
  refine escaped_obj fun m hm => ?_
  obtain ⟨name, v, rfl, hv⟩ := mem_recordMembers hm
  exact ⟨escapeHTML_quote _, h v hv⟩

lemma depth_record_le (hlen : names.length = values.length) :
    depth (record names values) ≤ d + 1 ↔ ∀ v, some v ∈ values → depth v ≤ d := by
  constructor
  · intro h v hv
    obtain ⟨name, hm⟩ := exists_member hlen hv
    have hle := depth_le_depthMembers hm
    have hrecord : depthMembers (recordMembers names values) + 1 ≤ d + 1 := h
    exact hle.trans (by omega)
  · intro h
    refine Nat.succ_le_succ (depthMembers_le fun m hm => ?_)
    obtain ⟨name, v, rfl, hv⟩ := mem_recordMembers hm
    exact h v hv

variable {α : Type} {decode : Decoder α} {name : String} {i : ℕ}

lemma field_absent (zero : α) (h : ∀ n ∈ names, foldName n ≠ foldName name) :
    field name decode zero (recordMembers names values) = some zero := by
  have hnone : ((recordMembers names values).filter fun m => Matches name m.1) = [] := by
    refine List.filter_eq_nil_iff.mpr fun m hm => ?_
    obtain ⟨⟨n, ov⟩, hmem, hm⟩ := List.mem_filterMap.mp hm
    obtain ⟨v, -, rfl⟩ := Option.map_eq_some_iff.mp hm
    have hno : ¬Matches name (member n v).1 := fun hmatch =>
      h n (List.of_mem_zip hmem).1 ((matches_quote name n).mp hmatch)
    simpa using hno
  rw [field, hnone]
  rfl

lemma field_record (zero : α) (hn : DistinctNames names) (hname : names[i]? = some name)
    {ov : Option Value} (hv : values[i]? = some ov) :
    field name decode zero (recordMembers names values) =
      ov.elim (some zero) (decode zero) := by
  induction names generalizing values i with
  | nil => cases hname
  | cons n names ih =>
    cases values with
    | nil => cases hv
    | cons w values =>
      obtain ⟨hfresh, hn⟩ := List.nodup_cons.mp hn
      cases i with
      | zero =>
        cases hname
        cases hv
        have habsent (a : α) :
            field name decode a (recordMembers names values) = some a :=
          field_absent a fun n hn heq => hfresh (heq ▸ List.mem_map_of_mem hn)
        cases ov with
        | none => exact habsent zero
        | some v =>
          show field name decode zero (member name v :: recordMembers names values) = _
          rw [field_member, if_pos rfl]
          simp only [habsent]
          exact Option.bind_fun_some _
      | succ i =>
        have hne : foldName n ≠ foldName name := fun heq =>
          hfresh (heq ▸ List.mem_map_of_mem (List.mem_of_getElem? hname))
        cases w with
        | none => exact ih hn hname hv
        | some w =>
          show field name decode zero (member n w :: recordMembers names values) = _
          rw [field_member]
          exact (if_neg hne).trans (ih hn hname hv)

end Record

end Workforce.Json
