import Mathlib.Data.List.Perm.Basic

/-!
# Picking the best of a list

A loop keeps the best element so far and replaces it by a better one.  Where two different elements
of the list are always comparable, the loop ends with the one that is better than all others, in
whatever order the list is.
-/

namespace Bsh.Library

open List

variable {α : Type*} {better : α → α → Prop}

/-- Different elements of the list are comparable. -/
def Comparable (better : α → α → Prop) (xs : List α) : Prop :=
  ∀ a ∈ xs, ∀ b ∈ xs, a ≠ b → better a b ∨ better b a

theorem Comparable.subset {xs ys : List α} (h : Comparable better ys) (hsub : xs ⊆ ys) :
    Comparable better xs := fun a ha b hb ↦ h a (hsub ha) b (hsub hb)

/-- An element that is better than all others. -/
def IsBest (better : α → α → Prop) (xs : List α) (b : α) : Prop :=
  b ∈ xs ∧ ∀ a ∈ xs, a ≠ b → better b a

theorem IsBest.unique [IsTrans α better] [Std.Irrefl better] {xs : List α} {a b : α}
    (ha : IsBest better xs a) (hb : IsBest better xs b) : a = b := by
  by_contra hne
  have hab : better a b := ha.2 b hb.1 (Ne.symm hne)
  have hba : better b a := hb.2 a ha.1 hne
  exact Std.Irrefl.irrefl a (IsTrans.trans a b a hab hba)

/-! ## The loop -/

variable [DecidableRel better]

/-- One turn of the loop. -/
def replaceBest (better : α → α → Prop) [DecidableRel better] (best : Option α) (x : α) :
    Option α :=
  match best with
  | none => some x
  | some b => if better x b then some x else some b

/-- The loop. -/
def select (better : α → α → Prop) [DecidableRel better] (xs : List α) : Option α :=
  xs.foldl (replaceBest better) none

theorem foldl_replaceBest_isSome (xs : List α) (b : α) :
    (xs.foldl (replaceBest better) (some b)).isSome = true := by
  induction xs generalizing b with
  | nil => rfl
  | cons x xs ih =>
    rw [foldl_cons, replaceBest]
    split
    · exact ih x
    · exact ih b

theorem select_eq_none_iff {xs : List α} : select better xs = none ↔ xs = [] := by
  cases xs with
  | nil => exact iff_of_true rfl rfl
  | cons x xs =>
    have hsome : (select better (x :: xs)).isSome = true := foldl_replaceBest_isSome xs x
    refine iff_of_false (fun h ↦ ?_) (cons_ne_nil x xs)
    rw [h] at hsome
    cases hsome

/-- What the loop ends with is better than what it has seen. -/
theorem isBest_foldl [IsTrans α better] {xs : List α} {b best : α}
    (hcomparable : Comparable better (b :: xs))
    (h : xs.foldl (replaceBest better) (some b) = some best) : IsBest better (b :: xs) best := by
  induction xs generalizing b with
  | nil =>
    cases h
    exact ⟨mem_singleton_self _, fun a ha hne ↦ absurd (List.mem_singleton.mp ha) hne⟩
  | cons x xs ih =>
    rw [foldl_cons, replaceBest] at h
    by_cases hbetter : better x b
    · rw [if_pos hbetter] at h
      have hsub : (x :: xs) ⊆ b :: x :: xs := subset_cons_self b _
      obtain ⟨hmem, hbest⟩ := ih (hcomparable.subset hsub) h
      refine ⟨hsub hmem, fun a ha hne ↦ ?_⟩
      obtain heq | ha := List.mem_cons.mp ha
      · rw [heq]
        by_cases hx : x = best
        · rwa [← hx]
        · exact IsTrans.trans _ _ _ (hbest x mem_cons_self hx) hbetter
      · exact hbest a ha hne
    · rw [if_neg hbetter] at h
      have hsub : (b :: xs) ⊆ b :: x :: xs :=
        cons_subset_cons b (subset_cons_self x xs)
      obtain ⟨hmem, hbest⟩ := ih (hcomparable.subset hsub) h
      refine ⟨hsub hmem, fun a ha hne ↦ ?_⟩
      by_cases hseen : a ∈ b :: xs
      · exact hbest a hseen hne
      · -- `a` is `x`, which is not better than `b` and different from it.
        have hax : a = x := by
          obtain heq | ha := List.mem_cons.mp ha
          · exact absurd (heq ▸ mem_cons_self) hseen
          · obtain heq | ha := List.mem_cons.mp ha
            · exact heq
            · exact absurd (mem_cons_of_mem b ha) hseen
        have hab : a ≠ b := fun heq ↦ hseen (heq ▸ mem_cons_self)
        have hba : better b a := by
          obtain hlt | hgt := hcomparable a ha b mem_cons_self hab
          · exact absurd (hax ▸ hlt) hbetter
          · exact hgt
        by_cases hb : b = best
        · rwa [← hb]
        · exact IsTrans.trans _ _ _ (hbest b mem_cons_self hb) hba

theorem select_eq_some_iff [IsTrans α better] [Std.Irrefl better] {xs : List α}
    (hcomparable : Comparable better xs) {b : α} :
    select better xs = some b ↔ IsBest better xs b := by
  cases xs with
  | nil => exact iff_of_false (fun h ↦ nomatch h) (fun h ↦ nomatch h.1)
  | cons x xs =>
    have hsome : (xs.foldl (replaceBest better) (some x)).isSome = true :=
      foldl_replaceBest_isSome xs x
    obtain ⟨best, hbest⟩ := Option.isSome_iff_exists.mp hsome
    have hselect : select better (x :: xs) = some best := hbest
    have hisBest := isBest_foldl hcomparable hbest
    rw [hselect, Option.some_inj]
    constructor
    · rintro rfl
      exact hisBest
    · exact hisBest.unique

theorem select_perm [IsTrans α better] [Std.Irrefl better] {xs ys : List α}
    (hcomparable : Comparable better xs) (hperm : xs.Perm ys) :
    select better ys = select better xs := by
  have hsub : ys ⊆ xs := hperm.symm.subset
  ext b
  rw [select_eq_some_iff hcomparable, select_eq_some_iff (hcomparable.subset hsub)]
  unfold IsBest
  simp only [hperm.mem_iff]

end Bsh.Library
