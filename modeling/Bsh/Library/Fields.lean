import Mathlib.Data.List.Basic
import Mathlib.Data.List.Infix

/-!
# Fields between separators

A text is read field by field.  A field ends at a separator; blanks behind it are passed over, and
one more separator with the blanks behind that.  `fieldCount` counts the fields for any reader that
decides itself where a field ends.  The plain reader ends each field at the next separator, and no
reader that also ends its fields at separators reads more of them.
-/

namespace Bsh.Library

open List

namespace Fields

variable {α : Type} (white sep : α → Bool)

/-- Blanks are passed over. -/
def skip (l : List α) : List α := l.dropWhile white

/-- Where a field begins: a separator in front of it is passed over with the blanks behind. -/
def start : List α → List α
  | [] => []
  | c :: l => if sep c then skip white l else c :: l

/-- Where the plain reader ends a field. -/
def plainStop (l : List α) : List α := (start white sep l).dropWhile (!sep ·)

/-- The number of fields from a place on for a reader that ends a field at `stop`, and `extra` more
if blanks stand behind the last one.  `blanks` tells this of the field in front of the place; `turns`
bounds the number of fields. -/
def fieldCount (stop : List α → List α) (extra : ℕ) : ℕ → List α → Bool → ℕ
  | _, [], blanks => if blanks then extra else 0
  | 0, _ :: _, _ => 0
  | turns + 1, c :: l, _ =>
    fieldCount stop extra turns (skip white (stop (c :: l))) ((stop (c :: l)).head?.any white) + 1

/-! ## Places -/

/-- A place where no blanks are left to be passed over. -/
def Skipped (l : List α) : Prop := ∀ c, l.head? = some c → white c = false

/-- A place where a field ends. -/
def AtSeparator (l : List α) : Prop := ∀ c, l.head? = some c → sep c = true

variable {white sep}

variable {u v : List α} (l : List α)

theorem skipped_skip : Skipped white (skip white l) := by
  intro c hc
  have hnot := List.head?_dropWhile_not white l
  rw [skip] at hc
  rw [hc] at hnot
  simpa using hnot

theorem skip_suffix : skip white l <:+ l := dropWhile_suffix white

theorem skip_mono (h : v <:+ u) : skip white v <:+ skip white u := by
  induction u with
  | nil =>
    rw [List.suffix_nil.mp h]
  | cons c u ih =>
    obtain rfl | hv := List.suffix_cons_iff.mp h
    · exact suffix_rfl
    · cases hc : white c with
      | true =>
        have hskip : skip white (c :: u) = skip white u := dropWhile_cons_of_pos hc
        rw [hskip]
        exact ih hv
      | false =>
        have hskip : skip white (c :: u) = c :: u :=
          dropWhile_cons_of_neg (by rw [hc]; exact Bool.false_ne_true)
        rw [hskip]
        exact (skip_suffix v).trans h

/-- A suffix behind blanks begins no earlier than where they end, or among them. -/
theorem Skipped.suffix_skip (hv : Skipped white v) (h : v <:+ u) :
    v <:+ skip white u := by
  have hsame : skip white v = v := by
    cases v with
    | nil => rfl
    | cons c v =>
      exact dropWhile_cons_of_neg (by rw [hv c rfl]; exact Bool.false_ne_true)
  have hmono := @skip_mono _ white _ _ h
  rwa [hsame] at hmono

/-- A place at a separator is not before the next separator. -/
theorem AtSeparator.suffix_dropWhile (hv : AtSeparator sep v) (h : v <:+ u) :
    v <:+ u.dropWhile (!sep ·) := by
  have hskipped : Skipped (fun c ↦ !sep c) v := by
    intro c hc
    have hsep := hv c hc
    simp [hsep]
  exact hskipped.suffix_skip h

theorem atSeparator_plainStop : AtSeparator sep (plainStop white sep l) := by
  intro c hc
  have hskipped := @skipped_skip _ (fun c ↦ !sep c) (start white sep l) c hc
  simpa using hskipped

theorem plainStop_suffix : plainStop white sep l <:+ start white sep l :=
  dropWhile_suffix _

theorem start_suffix : start white sep l <:+ l := by
  cases l with
  | nil => exact suffix_rfl
  | cons c l =>
    rw [start]
    split
    · exact (skip_suffix l).trans (suffix_cons c l)
    · exact suffix_rfl

/-! ## Progress -/

/-- A reader that ends every field at a separator, or at the end. -/
structure Reader (white sep : α → Bool) (stop : List α → List α) : Prop where
  suffix : ∀ l, stop l <:+ start white sep l
  atSeparator : ∀ l, AtSeparator sep (stop l)

theorem reader_plainStop : Reader white sep (plainStop white sep) :=
  ⟨plainStop_suffix, atSeparator_plainStop⟩

theorem Reader.length_lt {stop : List α → List α} (h : Reader white sep stop) (c : α)
    (l : List α) : (stop (c :: l)).length < (c :: l).length := by
  have hsuffix := h.suffix (c :: l)
  cases hc : sep c with
  | true =>
    rw [start, hc, if_pos rfl] at hsuffix
    have hle := (hsuffix.trans (skip_suffix l)).length_le
    exact Nat.lt_succ_of_le hle
  | false =>
    rw [start, hc, if_neg Bool.false_ne_true] at hsuffix
    obtain hsame | hless := List.suffix_cons_iff.mp hsuffix
    · have hsep := h.atSeparator (c :: l) c (by rw [hsame]; rfl)
      rw [hc] at hsep
      cases hsep
    · exact Nat.lt_succ_of_le hless.length_le

theorem Reader.skip_length_lt {stop : List α → List α} (h : Reader white sep stop) (c : α)
    (l : List α) : (skip white (stop (c :: l))).length < (c :: l).length :=
  (skip_suffix _).length_le.trans_lt (h.length_lt c l)

/-! ## Fewer fields -/

/-- Blanks that a field ends with, seen from a place in front of it. -/
theorem head_white_of_skip_nil (h : v <:+ u) (hv : v ≠ [])
    (hu : skip white u = []) : u.head?.any white = true := by
  cases u with
  | nil => exact absurd (List.suffix_nil.mp h) hv
  | cons c u =>
    cases hc : white c with
    | true => exact hc
    | false =>
      have hskip : skip white (c :: u) = c :: u :=
        dropWhile_cons_of_neg (by rw [hc]; exact Bool.false_ne_true)
      rw [hskip] at hu
      cases hu

theorem fieldCount_nil (stop : List α → List α) (extra turns : ℕ) (blanks : Bool) :
    fieldCount white stop extra turns [] blanks = if blanks then extra else 0 := by
  cases turns <;> rfl

theorem Reader.stop_suffix {stop : List α → List α} (h : Reader white sep stop)
    (hv : Skipped white v) (hsuffix : v <:+ u) : stop v <:+ plainStop white sep u := by
  have hstart : start white sep v <:+ start white sep u := by
    cases u with
    | nil =>
      rw [List.suffix_nil.mp hsuffix]
    | cons c u =>
      obtain rfl | hless := List.suffix_cons_iff.mp hsuffix
      · exact suffix_rfl
      · have hbehind : v <:+ start white sep (c :: u) := by
          rw [start]
          split
          · exact hv.suffix_skip hless
          · exact hsuffix
        exact (start_suffix v).trans hbehind
  exact (h.atSeparator v).suffix_dropWhile ((h.suffix v).trans hstart)

/-- No reader finds more fields than the plain one does, which may begin earlier. -/
theorem Reader.fieldCount_le {stop : List α → List α} (h : Reader white sep stop) {extra : ℕ}
    (hextra : extra ≤ 1) {turns turns' : ℕ} (hv : Skipped white v)
    (hsuffix : v <:+ u) (hturns : u.length ≤ turns) (hturns' : v.length ≤ turns')
    {blanks blanks' : Bool} (hblanks : v = [] → blanks' = true → u = [] → blanks = true) :
    fieldCount white stop extra turns' v blanks' ≤
      fieldCount white (plainStop white sep) extra turns u blanks := by
  induction turns generalizing turns' u v blanks blanks' with
  | zero =>
    obtain rfl := List.length_eq_zero_iff.mp (Nat.le_zero.mp hturns)
    obtain rfl := List.suffix_nil.mp hsuffix
    rw [fieldCount_nil, fieldCount_nil]
    cases blanks' with
    | false => exact Nat.zero_le _
    | true => rw [hblanks rfl rfl rfl]
  | succ turns ih =>
    cases u with
    | nil =>
      obtain rfl := List.suffix_nil.mp hsuffix
      rw [fieldCount_nil, fieldCount_nil]
      cases blanks' with
      | false => exact Nat.zero_le _
      | true => rw [hblanks rfl rfl rfl]
    | cons c u =>
      cases v with
      | nil =>
        rw [fieldCount_nil]
        calc
          (if blanks' = true then extra else 0) ≤ 1 := by
            split
            · exact hextra
            · exact Nat.zero_le 1
          _ ≤ _ := Nat.le_add_left 1 _
      | cons d v =>
        cases turns' with
        | zero => cases hturns'
        | succ turns' =>
          have hstop := h.stop_suffix hv hsuffix
          have hu := (@reader_plainStop _ white sep).skip_length_lt c u
          have hv' := h.skip_length_lt d v
          apply Nat.succ_le_succ
          apply ih (skipped_skip _) (skip_mono hstop) (by omega) (by omega)
          intro _ hwhite hnil
          apply head_white_of_skip_nil hstop _ hnil
          intro hempty
          rw [hempty] at hwhite
          cases hwhite

end Fields

end Bsh.Library
