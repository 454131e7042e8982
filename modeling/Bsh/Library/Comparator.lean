import Mathlib.Data.List.Lex
import Mathlib.Data.Int.Order.Basic
import Mathlib.Order.Lattice

/-!
# Comparison functions

A function that compares two values returns a number that is negative, zero or positive.  Sorting
by it makes sense when it is a total preorder.  A convenient proof of that gives every value a key
of a linear order and shows, for two different values, that the number and the keys agree.
-/

namespace Bsh.Library

open List

variable {α κ : Type*}

/-- What a sort relies on. -/
structure TotalPreorder (cmp : α → α → ℤ) : Prop where
  refl : ∀ a, cmp a a = 0
  swap : ∀ a b, cmp a b < 0 ↔ 0 < cmp b a
  trans : ∀ a b c, cmp a b ≤ 0 → cmp b c ≤ 0 → cmp a c ≤ 0

theorem TotalPreorder.neg {cmp : α → α → ℤ} (h : TotalPreorder cmp) :
    TotalPreorder fun a b ↦ -cmp a b where
  refl a := by rw [h.refl a, Int.neg_zero]
  swap a b := by
    have hswap := h.swap b a
    omega
  trans a b c hab hbc := by
    have hba := h.swap a b
    have hcb := h.swap b c
    have hca := h.swap a c
    have htrans := h.trans c b a
    omega

theorem TotalPreorder.comap {β : Type*} {cmp : α → α → ℤ} (h : TotalPreorder cmp) (f : β → α) :
    TotalPreorder fun a b ↦ cmp (f a) (f b) where
  refl a := h.refl (f a)
  swap a b := h.swap (f a) (f b)
  trans a b c := h.trans (f a) (f b) (f c)

/-- A comparison that sorts a list. -/
def SortsList (cmp : α → α → ℤ) (l : List α) : Prop :=
  TotalPreorder fun a b : {x // x ∈ l} ↦ cmp a b

theorem TotalPreorder.sortsList {cmp : α → α → ℤ} (h : TotalPreorder cmp) (l : List α) :
    SortsList cmp l :=
  h.comap Subtype.val

theorem SortsList.subset {cmp : α → α → ℤ} {l l' : List α} (h : SortsList cmp l)
    (hsub : ∀ a ∈ l', a ∈ l) : SortsList cmp l' :=
  TotalPreorder.comap h fun a : {x // x ∈ l'} ↦ ⟨a.1, hsub a.1 a.2⟩

theorem SortsList.map {β : Type*} {cmp : β → β → ℤ} (f : α → β) {l : List α}
    (h : SortsList (fun a b ↦ cmp (f a) (f b)) l) : SortsList cmp (l.map f) := by
  have hpreimage (y : {y // y ∈ l.map f}) : ∃ a : {a // a ∈ l}, f a = y := by
    obtain ⟨a, ha, heq⟩ := List.mem_map.mp y.2
    exact ⟨⟨a, ha⟩, heq⟩
  choose g hg using hpreimage
  have hcomap := TotalPreorder.comap h g
  have hsame : (fun y z : {y // y ∈ l.map f} ↦ cmp (f (g y)) (f (g z))) =
      fun y z : {y // y ∈ l.map f} ↦ cmp y z := by
    funext y z
    rw [hg y, hg z]
  rw [hsame] at hcomap
  exact hcomap

/-- A function that sorts lists by any comparison that sorts them. -/
structure QSort (α : Type*) where
  sort : (α → α → ℤ) → List α → List α
  perm : ∀ cmp l, SortsList cmp l → (sort cmp l).Perm l
  sorted : ∀ cmp l, SortsList cmp l → (sort cmp l).Pairwise fun a b ↦ cmp a b ≤ 0

/-- Sorting by merging. -/
def QSort.merge (α : Type*) : QSort α where
  sort cmp l := (l.attach.mergeSort fun a b ↦ decide (cmp a b ≤ 0)).map Subtype.val
  perm cmp l _ := by
    have hperm := (mergeSort_perm l.attach fun a b ↦ decide (cmp a b ≤ 0)).map Subtype.val
    rwa [attach_map_subtype_val] at hperm
  sorted cmp l h := by
    have hsorted := @pairwise_mergeSort _ (fun a b : {x // x ∈ l} ↦ decide (cmp a b ≤ 0))
      (fun a b c hab hbc ↦ by
        rw [decide_eq_true_eq] at hab hbc ⊢
        exact h.trans a b c hab hbc)
      (fun a b ↦ by
        rw [Bool.or_eq_true, decide_eq_true_eq, decide_eq_true_eq]
        have hswap := h.swap b a
        omega)
      l.attach
    rw [pairwise_map]
    exact hsorted.imp fun hle ↦ of_decide_eq_true hle

/-- The result of a comparison and the order of two different keys agree. -/
def Agrees [LT κ] (result : ℤ) (x y : κ) : Prop := result < 0 ∧ x < y ∨ 0 < result ∧ y < x

/-- The comparison of two different values agrees with their keys. -/
structure ComparesKeys [LT κ] (cmp : α → α → ℤ) (key : α → κ) : Prop where
  refl : ∀ a, cmp a a = 0
  agrees : ∀ a b, a ≠ b → Agrees (cmp a b) (key a) (key b)

namespace ComparesKeys

variable [LinearOrder κ] {cmp : α → α → ℤ} {key : α → κ}

theorem neg_iff (h : ComparesKeys cmp key) (a b : α) : cmp a b < 0 ↔ key a < key b := by
  by_cases heq : a = b
  · rw [heq, h.refl]
    exact iff_of_false (lt_irrefl _) (lt_irrefl _)
  · obtain ⟨hneg, hlt⟩ | ⟨hpos, hlt⟩ := h.agrees a b heq
    · exact iff_of_true hneg hlt
    · exact iff_of_false (by omega) (not_lt_of_gt hlt)

theorem pos_iff (h : ComparesKeys cmp key) (a b : α) : 0 < cmp a b ↔ key b < key a := by
  by_cases heq : a = b
  · rw [heq, h.refl]
    exact iff_of_false (lt_irrefl _) (lt_irrefl _)
  · obtain ⟨hneg, hlt⟩ | ⟨hpos, hlt⟩ := h.agrees a b heq
    · exact iff_of_false (by omega) (not_lt_of_gt hlt)
    · exact iff_of_true hpos hlt

theorem eq_of_zero (h : ComparesKeys cmp key) {a b : α} (hzero : cmp a b = 0) : a = b := by
  by_contra heq
  obtain ⟨hneg, _⟩ | ⟨hpos, _⟩ := h.agrees a b heq
  · omega
  · omega

theorem totalPreorder (h : ComparesKeys cmp key) : TotalPreorder cmp where
  refl := h.refl
  swap a b := (h.neg_iff a b).trans (h.pos_iff b a).symm
  trans a b c hab hbc := by
    have hnab : ¬ key b < key a := fun hlt ↦ absurd ((h.pos_iff a b).mpr hlt) (by omega)
    have hnbc : ¬ key c < key b := fun hlt ↦ absurd ((h.pos_iff b c).mpr hlt) (by omega)
    have hle : key a ≤ key c := (not_lt.mp hnab).trans (not_lt.mp hnbc)
    have hnca : ¬ 0 < cmp a c := fun hpos ↦ absurd ((h.pos_iff a c).mp hpos) (not_lt.mpr hle)
    omega

end ComparesKeys

/-! ## Lists as keys -/

section

variable [LinearOrder κ] {result : ℤ}

theorem Agrees.cons {x y : List κ} (a : κ) (h : Agrees result x y) :
    Agrees result (a :: x) (a :: y) := by
  obtain ⟨hneg, hlt⟩ | ⟨hpos, hlt⟩ := h
  · exact .inl ⟨hneg, List.cons_lt_cons_iff.mpr (.inr ⟨rfl, hlt⟩)⟩
  · exact .inr ⟨hpos, List.cons_lt_cons_iff.mpr (.inr ⟨rfl, hlt⟩)⟩

theorem Agrees.append {x y : List κ} (front : List κ) (h : Agrees result x y) :
    Agrees result (front ++ x) (front ++ y) := by
  induction front with
  | nil => exact h
  | cons a front ih => exact ih.cons a

theorem Agrees.head {a b : κ} (x y : List κ) (h : Agrees result a b) :
    Agrees result (a :: x) (b :: y) := by
  obtain ⟨hneg, hlt⟩ | ⟨hpos, hlt⟩ := h
  · exact .inl ⟨hneg, List.cons_lt_cons_iff.mpr (.inl hlt)⟩
  · exact .inr ⟨hpos, List.cons_lt_cons_iff.mpr (.inl hlt)⟩

end

end Bsh.Library
