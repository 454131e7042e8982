import Mathlib.Algebra.BigOperators.Group.List.Basic
import Mathlib.Algebra.GroupWithZero.Nat
import Mathlib.Data.Int.Order.Basic
import Mathlib.Data.List.Basic

/-!
# Slices by position

A slice of a list between two positions counted from 1, where positions in front of the list or
behind it count as its ends; and the places of the pieces of a list in the list that they make up.
-/

namespace Bsh.Library

open List

variable {α : Type*}

/-! ## Slices -/

/-- The elements from position `a` to position `b`. -/
def slice (l : List α) (a b : ℤ) : List α := (l.take b.toNat).drop (a - 1).toNat

/-- The elements in front of position `a`. -/
def beforeSlice (l : List α) (a : ℤ) : List α := l.take (a - 1).toNat

/-- The elements behind the slice from `a` to `b`. -/
def behindSlice (l : List α) (a b : ℤ) : List α := l.drop (max (a - 1).toNat b.toNat)

theorem take_append_drop_take (l : List α) {x y : ℕ} (h : x ≤ y) :
    l.take x ++ (l.take y).drop x = l.take y := by
  calc l.take x ++ (l.take y).drop x
      = (l.take y).take x ++ (l.take y).drop x := by rw [take_take, Nat.min_eq_left h]
    _ = l.take y := List.take_append_drop x _

/-! ## Places -/

/-- Where the piece at an index begins. -/
def place (l : List (List α)) (k : ℕ) : ℕ := ((l.map List.length).take k).sum

variable (l : List (List α)) (k : ℕ)

theorem place_zero : place l 0 = 0 := rfl

theorem place_eq_length : place l k = (l.take k).flatten.length := by
  rw [place, length_flatten, map_take]

theorem take_place : l.flatten.take (place l k) = (l.take k).flatten :=
  take_sum_flatten l k

theorem drop_place : l.flatten.drop (place l k) = (l.drop k).flatten :=
  drop_sum_flatten l k

theorem place_succ {k : ℕ} (hk : k < l.length) :
    place l (k + 1) = place l k + l[k].length := by
  rw [place_eq_length, place_eq_length, take_succ_eq_append_getElem hk, flatten_append,
    length_append, flatten_singleton]

theorem place_mono {x y : ℕ} (h : x ≤ y) : place l x ≤ place l y := by
  rw [place_eq_length, place_eq_length, ← take_append_drop_take l h, flatten_append,
    length_append]
  exact Nat.le_add_right _ _

theorem place_of_length_le {k : ℕ} (h : l.length ≤ k) :
    place l k = l.flatten.length := by
  rw [place_eq_length, take_of_length_le h]

theorem place_le : place l k ≤ l.flatten.length := by
  calc place l k ≤ place l (max k l.length) := place_mono l (Nat.le_max_left _ _)
    _ = l.flatten.length := place_of_length_le l (Nat.le_max_right _ _)

theorem place_lt {l : List (List α)} (hne : ∀ p ∈ l, p ≠ []) {k : ℕ} (hk : k < l.length) :
    place l k < l.flatten.length := by
  have hpos := List.length_pos_iff.mpr (hne _ (getElem_mem hk))
  have hsucc := place_succ l hk
  have hle := place_le l (k + 1)
  omega

theorem max_place (x y : ℕ) : max (place l x) (place l y) = place l (max x y) := by
  rcases Nat.le_total x y with h | h
  · rw [Nat.max_eq_right h, Nat.max_eq_right (place_mono l h)]
  · rw [Nat.max_eq_left h, Nat.max_eq_left (place_mono l h)]

/-- The list between two places is made up of the pieces between them. -/
theorem flatten_slice (x y : ℕ) :
    (l.flatten.drop (place l x)).take (place l y - place l x) = ((l.take y).drop x).flatten := by
  rw [← drop_take, take_place]
  rcases Nat.le_total x y with h | h
  · have hplace : place l x = place (l.take y) x := by
      rw [place_eq_length, place_eq_length, take_take, Nat.min_eq_left h]
    rw [hplace, drop_place]
  · have hlen : (l.take y).flatten.length ≤ place l x := by
      rw [← place_eq_length]
      exact place_mono l h
    rw [drop_eq_nil_of_le hlen,
      drop_eq_nil_of_le (Nat.le_trans (length_take_le _ _) h), flatten_nil]

end Bsh.Library
