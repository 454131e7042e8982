import Mathlib.Data.List.TakeDrop

/-!
# Moving in place

A piece of a list is written over other elements of it, and a text with an end mark is moved down
one element at a time.  What lies behind the last element that is written stays as it was.
-/

namespace Bsh.Library.InPlace

open List

variable {α : Type*} {l xs : List α} {i j : ℕ}

/-- The elements `xs` written over those from `i` on. -/
def overwrite (l : List α) (i : ℕ) (xs : List α) : List α :=
  l.take i ++ xs ++ l.drop (i + xs.length)

theorem length_overwrite (h : i + xs.length ≤ l.length) :
    (overwrite l i xs).length = l.length := by
  unfold overwrite
  rw [length_append, length_append, length_take, length_drop]
  omega

theorem take_overwrite (h : i ≤ l.length) :
    (overwrite l i xs).take (i + xs.length) = l.take i ++ xs := by
  apply take_left'
  rw [length_append, length_take, Nat.min_eq_left h]

theorem drop_overwrite (h : i + xs.length ≤ l.length) (hj : i + xs.length ≤ j) :
    (overwrite l i xs).drop j = l.drop j := by
  have hfront : (l.take i ++ xs).length = i + xs.length := by
    rw [length_append, length_take]
    omega
  calc (overwrite l i xs).drop j
      = (l.drop (i + xs.length)).drop (j - (l.take i ++ xs).length) := by
        unfold overwrite
        rw [drop_append, drop_eq_nil_of_le (hfront ▸ hj), nil_append]
    _ = l.drop j := by
        rw [drop_drop, hfront, Nat.add_sub_cancel' hj]

theorem overwrite_self (h : (l.drop i).take xs.length = xs) : overwrite l i xs = l := by
  calc overwrite l i xs
      = l.take i ++ (xs ++ (l.drop i).drop xs.length) := by
        rw [overwrite, append_assoc, drop_drop]
    _ = l.take i ++ ((l.drop i).take xs.length ++ (l.drop i).drop xs.length) := by rw [h]
    _ = l := by rw [List.take_append_drop, List.take_append_drop]

theorem overwrite_cons {c : α} (h : i < l.length) :
    overwrite (l.set i c) (i + 1) xs = overwrite l i (c :: xs) := by
  have htake : (l.set i c).take (i + 1) = l.take i ++ [c] := by
    rw [take_add_one, take_set_of_le (Nat.le_refl i), List.getElem?_set_self h]
    rfl
  have hdrop : (l.set i c).drop (i + 1 + xs.length) = l.drop (i + (xs.length + 1)) := by
    rw [drop_set_of_lt (by omega), Nat.add_assoc, Nat.add_comm 1]
  rw [overwrite, htake, hdrop, append_assoc (l.take i)]
  rfl

/-- `while ((*dst++ = *src++))` for the end mark `stop`; the first argument bounds the turns. -/
def copyDown [DecidableEq α] (stop : α) : ℕ → List α → ℕ → ℕ → Option (List α)
  | 0, _, _, _ => none
  | turns + 1, l, dst, src =>
    match l[src]? with
    | none => none
    | some c =>
      if dst < l.length then
        if c = stop then some (l.set dst c) else copyDown stop turns (l.set dst c) (dst + 1) (src + 1)
      else none

/-- A text is moved down with its end mark. -/
theorem copyDown_spec [DecidableEq α] {stop : α} {turns dst src : ℕ} {text rest : List α}
    (hdst : dst ≤ src) (hsrc : l.drop src = text ++ stop :: rest) (hstop : stop ∉ text)
    (hturns : text.length < turns) :
    copyDown stop turns l dst src = some (overwrite l dst (text ++ [stop])) := by
  induction turns generalizing l dst src text with
  | zero => exact absurd hturns (Nat.not_lt_zero _)
  | succ turns ih =>
    have hlength := congrArg List.length hsrc
    rw [length_drop, length_append, length_cons] at hlength
    have hinside : dst < l.length := by omega
    have hset (c : α) : overwrite l dst [c] = l.set dst c := by
      rw [set_eq_take_append_cons_drop, if_pos hinside, overwrite, append_assoc]
      rfl
    rw [copyDown]
    cases text with
    | nil =>
      have hc : l[src]? = some stop := by
        rw [← List.head?_drop, hsrc]
        rfl
      rw [hc]
      dsimp only
      rw [if_pos hinside, if_pos rfl, nil_append, hset]
    | cons c text =>
      rw [mem_cons, not_or] at hstop
      have hc : l[src]? = some c := by
        rw [← List.head?_drop, hsrc]
        rfl
      have hnext : (l.set dst c).drop (src + 1) = text ++ stop :: rest := by
        rw [drop_set_of_lt (by omega), ← tail_drop, hsrc]
        rfl
      rw [hc]
      dsimp only
      rw [if_pos hinside, if_neg (Ne.symm hstop.1),
        ih (Nat.succ_le_succ hdst) hnext hstop.2 (Nat.lt_of_succ_lt_succ hturns)]
      rw [overwrite_cons hinside]
      rfl

end Bsh.Library.InPlace
