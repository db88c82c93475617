import Mathlib.Data.List.TakeWhile
import Workforce.Decimal

/-!
Messages written like a command line.

A message is a line of words separated by single spaces: a verb, then flags `--name=value` or
`--name`. The words `-- n` at the end of the line announce a payload of `n` bytes after it. A
flag may be repeated; the order is kept.
-/

namespace Workforce.Argv

open Decimal

abbrev FlagSet := List (String × String)

structure Message where
  verb : String
  flags : FlagSet
  payload : List UInt8

/-! ### Flags by name -/

section FlagSet

variable (flags : FlagSet) (name : String)

def Lookup : Option String := (flags.find? fun f => f.1 = name).map Prod.snd

def Get : String := (Lookup flags name).getD ""

def Has : Bool := (Lookup flags name).isSome

def GetRepeated : List String := (flags.filter fun f => f.1 = name).map Prod.snd

end FlagSet

/-! ### Words -/

/-- The flag a word is, if it is one. -/
def flagOf : List Char → Option (String × String)
  | '-' :: '-' :: rest =>
    some (String.ofList (rest.takeWhile (· ≠ '=')),
      String.ofList (rest.dropWhile (· ≠ '=')).tail)
  | _ => none

def terminator : List Char := ['-', '-']

/-- The payload announced by the words from the terminator on. -/
def payloadOf (stream : List UInt8) : List (List Char) → Option (List UInt8)
  | [] => some []
  | _ :: n :: _ => (parseNat n).map stream.take
  | [_] => none

lemma value_subset {word : List Char} {f : String × String} (h : flagOf word = some f) :
    f.2.toList ⊆ word := by
  unfold flagOf at h
  split at h
  next rest =>
    obtain rfl := Option.some.inj h
    rw [String.toList_ofList]
    have hdrop : (rest.dropWhile (· ≠ '=')).tail.Sublist rest :=
      (List.tail_sublist _).trans (List.dropWhile_sublist _)
    exact fun c hc => List.mem_cons_of_mem _ (List.mem_cons_of_mem _ (hdrop.subset hc))
  · exact nomatch h

/-! ### Writing -/

def flag (name value : String) : List Char := '-' :: '-' :: (name.toList ++ '=' :: value.toList)

def bareFlag (name : String) : List Char := '-' :: '-' :: name.toList

def line (verb : String) (words : List (List Char)) : List Char :=
  verb.toList ++ words.flatMap fun w => ' ' :: w

lemma flagOf_flag {name : String} (h : '=' ∉ name.toList) (value : String) :
    flagOf (flag name value) = some (name, value) := by
  have hname : ∀ c ∈ name.toList, decide (c ≠ '=') = true := fun c hc =>
    decide_eq_true fun hceq => h (hceq ▸ hc)
  simp only [flagOf, flag]
  rw [List.takeWhile_append_of_pos hname, List.dropWhile_append_of_pos hname]
  simp

lemma flagOf_bareFlag {name : String} (h : '=' ∉ name.toList) :
    flagOf (bareFlag name) = some (name, "") := by
  have hname : ∀ c ∈ name.toList, decide (c ≠ '=') = true := fun c hc =>
    decide_eq_true fun hceq => h (hceq ▸ hc)
  simp only [flagOf, bareFlag]
  rw [List.takeWhile_eq_self_iff.mpr hname, List.dropWhile_eq_nil_iff.mpr hname]
  simp

lemma newline_notMem_line {verb : String} {words : List (List Char)} (hverb : '\n' ∉ verb.toList)
    (hwords : ∀ w ∈ words, '\n' ∉ w) : '\n' ∉ line verb words := by
  rw [line, List.mem_append, List.mem_flatMap]
  rintro (h | ⟨w, hw, h⟩)
  · exact hverb h
  · exact hwords w hw (List.mem_of_ne_of_mem (by decide) h)

end Workforce.Argv
