import Mathlib.Data.List.Basic
import Mathlib.Tactic.Cases

/-!
# Matching brackets

Texts with one kind of bracket.  A text behind an opening bracket is cut at the bracket that closes
it; if there is none, the text is balanced or has another opening bracket that is never closed.
-/

namespace Bsh.Library

open List

structure Brackets (α : Type*) where
  opening : α
  closing : α
  opening_ne_closing : opening ≠ closing

namespace Brackets

variable {α : Type*} (br : Brackets α)

/-- Every bracket of the text has its partner in it. -/
inductive Balanced : List α → Prop where
  | nil : Balanced []
  | plain {c : α} {rest : List α} (hopening : c ≠ br.opening) (hclosing : c ≠ br.closing)
    (h : Balanced rest) : Balanced (c :: rest)
  | group {inside rest : List α} (hinside : Balanced inside) (h : Balanced rest) :
    Balanced (br.opening :: (inside ++ br.closing :: rest))

variable {b s t : List α} (level : ℕ) (rest : List α)

theorem Balanced.append {br : Brackets α} {a : List α} (ha : br.Balanced a)
    (hb : br.Balanced b) : br.Balanced (a ++ b) := by
  induction ha with
  | nil => exact hb
  | plain hopening hclosing _ ih => exact .plain hopening hclosing ih
  | group hinside _ _ ih =>
    rw [cons_append, append_assoc]
    exact .group hinside ih

variable [DecidableEq α]

/-- The text in front of the bracket that closes an open one, and the text behind it; `level` more
brackets are open inside. -/
def close : ℕ → List α → Option (List α × List α)
  | _, [] => none
  | 0, c :: rest =>
    if c = br.opening then (close 1 rest).map fun p ↦ (c :: p.1, p.2)
    else if c = br.closing then some ([], rest)
    else (close 0 rest).map fun p ↦ (c :: p.1, p.2)
  | level + 1, c :: rest =>
    if c = br.opening then (close (level + 2) rest).map fun p ↦ (c :: p.1, p.2)
    else if c = br.closing then (close level rest).map fun p ↦ (c :: p.1, p.2)
    else (close (level + 1) rest).map fun p ↦ (c :: p.1, p.2)

theorem close_nil : br.close level [] = none := by
  cases level <;> rfl

theorem close_opening :
    br.close level (br.opening :: rest) =
      (br.close (level + 1) rest).map fun p ↦ (br.opening :: p.1, p.2) := by
  cases level <;> exact if_pos rfl

theorem close_closing : br.close 0 (br.closing :: rest) = some ([], rest) := by
  exact (if_neg br.opening_ne_closing.symm).trans (if_pos rfl)

theorem close_closing_succ :
    br.close (level + 1) (br.closing :: rest) =
      (br.close level rest).map fun p ↦ (br.closing :: p.1, p.2) := by
  exact (if_neg br.opening_ne_closing.symm).trans (if_pos rfl)

theorem close_plain {c : α} (hopening : c ≠ br.opening) (hclosing : c ≠ br.closing) (level : ℕ)
    (rest : List α) :
    br.close level (c :: rest) = (br.close level rest).map fun p ↦ (c :: p.1, p.2) := by
  cases level <;> exact (if_neg hopening).trans (if_neg hclosing)

theorem close_append (h : br.Balanced b) (level : ℕ) (rest : List α) :
    br.close level (b ++ rest) = (br.close level rest).map fun p ↦ (b ++ p.1, p.2) := by
  induction h generalizing level rest with
  | nil =>
    rw [nil_append]
    cases br.close level rest <;> rfl
  | plain hopening hclosing _ ih =>
    rw [cons_append, close_plain br hopening hclosing, ih, Option.map_map]
    rfl
  | @group inside b' _ _ ihinside ih =>
    rw [cons_append, append_assoc, close_opening, ihinside, cons_append,
      close_closing_succ, ih, Option.map_map, Option.map_map, Option.map_map]
    cases br.close level rest with
    | none => rfl
    | some p => simp

/-- More open brackets are no easier to close. -/
theorem close_succ_eq_none {level : ℕ} (h : br.close level t = none) :
    br.close (level + 1) t = none := by
  induction t generalizing level with
  | nil => exact br.close_nil (level + 1)
  | cons c t ih =>
    by_cases hopening : c = br.opening
    · subst hopening
      rw [close_opening, Option.map_eq_none_iff] at h
      rw [close_opening, ih h, Option.map_none]
    · by_cases hclosing : c = br.closing
      · subst hclosing
        cases level with
        | zero =>
          rw [close_closing] at h
          cases h
        | succ level =>
          rw [close_closing_succ, Option.map_eq_none_iff] at h
          rw [close_closing_succ, ih h, Option.map_none]
      · rw [close_plain br hopening hclosing, Option.map_eq_none_iff] at h
        rw [close_plain br hopening hclosing, ih h, Option.map_none]

theorem close_balanced (h : br.Balanced b) (level : ℕ) : br.close level b = none := by
  have happend := br.close_append h level []
  rw [append_nil, close_nil, Option.map_none] at happend
  exact happend

/-- How a text goes on: to a bracket that closes an open one, to its end, or to a bracket that is
never closed. -/
inductive Split : List α → Prop where
  | closed {b s : List α} (hb : br.Balanced b) : Split (b ++ br.closing :: s)
  | balanced {t : List α} (ht : br.Balanced t) : Split t
  | unclosed {b s : List α} (hb : br.Balanced b) (hs : br.close 0 s = none) :
    Split (b ++ br.opening :: s)

theorem Split.append (hb : br.Balanced b) (h : br.Split t) :
    br.Split (b ++ t) := by
  cases h with
  | @closed b' s hb' =>
    rw [← append_assoc]
    exact .closed (hb.append hb')
  | balanced ht => exact .balanced (hb.append ht)
  | @unclosed b' s hb' hs =>
    rw [← append_assoc]
    exact .unclosed (hb.append hb') hs

theorem split (t : List α) : br.Split t := by
  induction hn : t.length using Nat.strongRecOn generalizing t with
  | _ n ih =>
  cases t with
  | nil => exact .balanced .nil
  | cons c t =>
    rw [length_cons] at hn
    by_cases hopening : c = br.opening
    · subst hopening
      cases ih t.length (by omega) t rfl with
      | @closed b s hb =>
        rw [length_append, length_cons] at hn
        have hgroup : br.Balanced (br.opening :: (b ++ [br.closing])) := .group hb .nil
        have hrest := (ih s.length (by omega) s rfl).append br hgroup
        simpa using hrest
      | balanced ht => exact .unclosed .nil (br.close_balanced ht 0)
      | @unclosed b s hb hs =>
        refine .unclosed .nil ?_
        rw [close_append br hb, close_opening, br.close_succ_eq_none hs]
        rfl
    · by_cases hclosing : c = br.closing
      · subst hclosing
        exact .closed .nil
      · have hplain : br.Balanced [c] := .plain hopening hclosing .nil
        exact (ih t.length (by omega) t rfl).append br hplain

theorem close_closed (h : br.Balanced b) (s : List α) :
    br.close 0 (b ++ br.closing :: s) = some (b, s) := by
  rw [close_append br h, close_closing, Option.map_some, append_nil]

theorem close_unclosed (hb : br.Balanced b) (hs : br.close 0 s = none) :
    br.close 0 (b ++ br.opening :: s) = none := by
  rw [close_append br hb, close_opening, br.close_succ_eq_none hs]
  rfl

theorem close_eq_some (h : br.close 0 t = some (b, s)) :
    t = b ++ br.closing :: s ∧ br.Balanced b := by
  cases br.split t with
  | @closed b' s' hb =>
    rw [close_closed br hb] at h
    cases h
    exact ⟨rfl, hb⟩
  | balanced ht =>
    rw [close_balanced br ht] at h
    cases h
  | unclosed hb hs =>
    rw [close_unclosed br hb hs] at h
    cases h

theorem close_append_of_some (h : br.close 0 t = some (b, s)) (r : List α) :
    br.close 0 (t ++ r) = some (b, s ++ r) := by
  obtain ⟨rfl, hb⟩ := br.close_eq_some h
  rw [append_assoc, cons_append, close_closed br hb]

theorem close_eq_none_of_zero (h : br.close 0 t = none) (level : ℕ) :
    br.close level t = none := by
  induction level with
  | zero => exact h
  | succ level ih => exact br.close_succ_eq_none ih

theorem close_append_of_none {level : ℕ} {r : List α} (ht : br.close level t = none)
    (hr : br.close 0 r = none) : br.close level (t ++ r) = none := by
  induction t generalizing level with
  | nil => exact br.close_eq_none_of_zero hr level
  | cons c t ih =>
    rw [cons_append]
    by_cases hopening : c = br.opening
    · subst hopening
      rw [close_opening, Option.map_eq_none_iff] at ht
      rw [close_opening, ih ht, Option.map_none]
    · by_cases hclosing : c = br.closing
      · subst hclosing
        cases level with
        | zero =>
          rw [close_closing] at ht
          cases ht
        | succ level =>
          rw [close_closing_succ, Option.map_eq_none_iff] at ht
          rw [close_closing_succ, ih ht, Option.map_none]
      · rw [close_plain br hopening hclosing, Option.map_eq_none_iff] at ht
        rw [close_plain br hopening hclosing, ih ht, Option.map_none]

end Brackets

end Bsh.Library
