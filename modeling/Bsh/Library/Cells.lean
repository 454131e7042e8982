import Mathlib.Data.List.Basic
import Mathlib.Data.Option.Basic
import Mathlib.Tactic.NormNum

/-!
# Cells

A buffer of a fixed number of cells, each of which may have been written.  `store` writes one cell
and fails outside of the buffer; `storeAll` is the loop that writes a list through a pointer going
up.
-/

namespace Bsh.Library

open List

variable {α : Type*}

/-- The cells of a buffer; a cell that nothing has been written to is `none`. -/
abbrev Cells (α : Type*) := List (Option α)

namespace Cells

/-- A buffer as it is allocated. -/
def fresh (size : ℕ) : Cells α := List.replicate size none

def store (b : Cells α) (p : ℕ) (x : α) : Option (Cells α) :=
  if p < b.length then some (b.set p (some x)) else none

/-- The buffer and the pointer behind the last cell written. -/
def storeAll : Cells α → ℕ → List α → Option (Cells α × ℕ)
  | b, p, [] => some (b, p)
  | b, p, x :: xs => (b.store p x).bind fun b ↦ storeAll b (p + 1) xs

/-- A list written through a pointer going down, which has `p` cells in front of it. -/
def storeDown : Cells α → ℕ → List α → Option (Cells α)
  | b, _, [] => some b
  | _, 0, _ :: _ => none
  | b, p + 1, x :: xs => (b.store p x).bind fun b ↦ storeDown b p xs

@[simp]
theorem storeDown_nil (b : Cells α) (p : ℕ) : storeDown b p [] = some b := by
  cases p <;> rfl

theorem store_append (written rest : Cells α) (c : Option α) (x : α) :
    store (written ++ c :: rest) written.length x = some (written ++ some x :: rest) := by
  have hlt : written.length < (written ++ c :: rest).length := by simp
  rw [store, if_pos hlt, set_append_right _ _ (Nat.le_refl _), Nat.sub_self, set_cons_zero]

theorem storeAll_append {written room rest : Cells α} {xs : List α}
    (hroom : room.length = xs.length) :
    storeAll (written ++ room ++ rest) written.length xs =
      some (written ++ xs.map some ++ rest, written.length + xs.length) := by
  induction xs generalizing written room with
  | nil =>
    rw [List.length_eq_zero_iff.mp hroom]
    rfl
  | cons x xs ih =>
    cases room with
    | nil => cases hroom
    | cons c room =>
      have hbehind : written ++ some x :: (room ++ rest) = written ++ [some x] ++ room ++ rest := by
        simp
      have hlength : (written ++ [some x]).length = written.length + 1 := length_append
      have hnext := @ih (written ++ [some x]) room (Nat.succ.inj hroom)
      rw [hlength] at hnext
      have hlist : written ++ [some x] ++ xs.map some ++ rest =
          written ++ (x :: xs).map some ++ rest := by simp
      rw [append_assoc, cons_append, storeAll, store_append, Option.bind_some, hbehind,
        hnext, hlist, length_cons, Nat.add_assoc, Nat.add_comm 1]

theorem storeAll_eq {b : Cells α} {p : ℕ} {xs : List α} (h : p + xs.length ≤ b.length) :
    storeAll b p xs =
      some (b.take p ++ xs.map some ++ b.drop (p + xs.length), p + xs.length) := by
  have hlength : (b.take p).length = p := length_take_of_le (by omega)
  have hroom : ((b.drop p).take xs.length).length = xs.length := by
    rw [length_take, length_drop]
    omega
  have hsplit : b.take p ++ (b.drop p).take xs.length ++ b.drop (p + xs.length) = b := by
    rw [append_assoc, ← drop_drop, List.take_append_drop, List.take_append_drop]
  have hstore := @storeAll_append _ (b.take p) _ (b.drop (p + xs.length)) _ hroom
  rwa [hsplit, hlength] at hstore

/-- A list and one value more fill the rest of a buffer. -/
theorem storeAll_last {written room : Cells α} {xs : List α} (last : α)
    (hroom : room.length = xs.length + 1) :
    ((storeAll (written ++ room) written.length xs).bind fun r ↦
        (r.1.store r.2 last).bind fun b ↦ some (b, r.2)) =
      some (written ++ xs.map some ++ [some last], written.length + xs.length) := by
  obtain ⟨front, c, rfl⟩ : ∃ front c, room = front ++ [c] := by
    refine ⟨room.dropLast, room.getLast ?_, (dropLast_append_getLast _).symm⟩
    rintro rfl
    cases hroom
  have hfront : front.length = xs.length := by
    rw [length_append] at hroom
    exact Nat.succ.inj hroom
  have hlength : (written ++ xs.map some).length = written.length + xs.length := by
    rw [length_append, length_map]
  have hlast := store_append (written ++ xs.map some) [] c last
  rw [hlength] at hlast
  rw [← append_assoc, storeAll_append hfront, Option.bind_some, hlast]
  rfl

/-- A list that fits is written in front of what stands behind the pointer. -/
theorem storeDown_append {front room rest : Cells α} {xs : List α}
    (hroom : room.length = xs.length) :
    storeDown (front ++ room ++ rest) (front.length + xs.length) xs =
      some (front ++ xs.reverse.map some ++ rest) := by
  induction xs generalizing room rest with
  | nil =>
    rw [List.length_eq_zero_iff.mp hroom, storeDown_nil]
    rfl
  | cons x xs ih =>
    obtain ⟨room, c, rfl⟩ : ∃ room' c, room = room' ++ [c] := by
      refine ⟨room.dropLast, room.getLast ?_, (dropLast_append_getLast _).symm⟩
      rintro rfl
      cases hroom
    have hless : room.length = xs.length := by
      rw [length_append] at hroom
      exact Nat.succ.inj hroom
    have hstore := store_append (front ++ room) rest c x
    have hlength : (front ++ room).length = front.length + xs.length := by
      rw [length_append, hless]
    have hlist : front ++ (room ++ [c]) ++ rest = front ++ room ++ c :: rest := by simp
    have hresult : front ++ xs.reverse.map some ++ some x :: rest =
        front ++ (x :: xs).reverse.map some ++ rest := by simp
    rw [hlength] at hstore
    rw [hlist, length_cons, ← Nat.add_assoc, storeDown, hstore, Option.bind_some, ih hless,
      hresult]

theorem storeAll_storeAll (b : Cells α) (p : ℕ) (xs ys : List α) :
    storeAll b p (xs ++ ys) = (storeAll b p xs).bind fun r ↦ storeAll r.1 r.2 ys := by
  induction xs generalizing b p with
  | nil => rfl
  | cons x xs ih =>
    rw [cons_append, storeAll, storeAll]
    cases b.store p x with
    | none => rfl
    | some b => exact ih b (p + 1)

end Cells

end Bsh.Library

/-!
# Machine integers

Integers in two's complement of a fixed number of bits, and a buffer whose size is counted in an
`int`.
-/

namespace Bsh.Library

open List

/-- An integer as it is kept in two's complement of `bits` bits. -/
def wrapped (bits : ℕ) (n : ℤ) : ℤ := n.bmod (2 ^ bits)

/-- A count that an `int` holds. -/
def intCount (n : ℕ) : Prop := n < 2 ^ 31

instance (n : ℕ) : Decidable (intCount n) := inferInstanceAs (Decidable (_ < _))

theorem wrapped_int_eq_iff (n : ℕ) : wrapped 32 n = n ↔ intCount n := by
  have hrange : (n : ℤ).bmod (2 ^ 32) < 2 ^ 31 := by
    have h := @Int.bmod_lt (n : ℤ) (2 ^ 32) (by norm_num)
    exact h
  unfold wrapped intCount
  constructor
  · intro h
    rw [h] at hrange
    exact_mod_cast hrange
  · intro h
    apply Int.bmod_eq_of_le
    · exact le_trans (by norm_num) (Int.natCast_nonneg n)
    · omega

namespace Cells

variable {α : Type*}

/-- A buffer whose size is an `int`; there is no buffer of a negative size, which stands for one
that is larger than all memory. -/
def sized (n : ℕ) : Option (Cells α) :=
  if 0 ≤ wrapped 32 n then some (fresh (wrapped 32 n).toNat) else none

variable {b : Cells α} {n p : ℕ} {xs : List α}

theorem sized_of_intCount (h : intCount n) : (sized n : Option (Cells α)) = some (fresh n) := by
  rw [sized, (wrapped_int_eq_iff n).mpr h, if_pos (Int.natCast_nonneg n), Int.toNat_natCast]

theorem storeAll_eq_none (hp : p ≤ b.length)
    (h : b.length < p + xs.length) : storeAll b p xs = none := by
  induction xs generalizing b p with
  | nil => exact absurd h (Nat.not_lt.mpr hp)
  | cons x xs ih =>
    rw [storeAll, store]
    by_cases hlt : p < b.length
    · rw [if_pos hlt, Option.bind_some]
      apply ih
      · rw [length_set]
        exact hlt
      · rw [length_set]
        rw [length_cons] at h
        omega
    · rw [if_neg hlt, Option.bind_none]

theorem store_length {b' : Cells α} {x : α} (h : b.store p x = some b') :
    b'.length = b.length := by
  unfold store at h
  by_cases hlt : p < b.length
  · rw [if_pos hlt, Option.some.injEq] at h
    rw [← h, length_set]
  · rw [if_neg hlt] at h
    cases h

theorem storeAll_length {r : Cells α × ℕ}
    (h : storeAll b p xs = some r) : r.1.length = b.length := by
  induction xs generalizing b p with
  | nil =>
    rw [← Option.some.inj h]
  | cons x xs ih =>
    obtain ⟨b', hstore, hrest⟩ := Option.bind_eq_some_iff.mp h
    exact (ih hrest).trans (store_length hstore)

/-- What stands in the buffer as far as a part of a list that fits. -/
theorem storeAll_spec (h : p + xs.length ≤ b.length) :
    ∃ b' : Cells α, storeAll b p xs = some (b', p + xs.length) ∧ b'.length = b.length ∧
      ∀ n ≤ xs.length, b'.take (p + n) = b.take p ++ (xs.take n).map some := by
  have hfront : (b.take p).length = p := length_take_of_le (by omega)
  refine ⟨_, storeAll_eq h, ?_, ?_⟩
  · rw [length_append, length_append, hfront, length_map, length_drop]
    omega
  · intro n hn
    have htake : (xs.map some).take n = (xs.take n).map some := List.map_take.symm
    rw [append_assoc, take_append, hfront, take_of_length_le (by omega),
      Nat.add_sub_cancel_left, take_append_of_le_length (by rwa [length_map]), htake]

theorem store_spec (h : p < b.length) (x : α) :
    ∃ b' : Cells α, b.store p x = some b' ∧ b'.length = b.length ∧
      b'.take (p + 1) = b.take p ++ [some x] := by
  obtain ⟨b', hstore, hlength, htake⟩ := @storeAll_spec _ b p [x] h
  refine ⟨b', ?_, hlength, htake 1 (Nat.le_refl 1)⟩
  rw [store, if_pos h]
  rw [storeAll, store, if_pos h, Option.bind_some] at hstore
  exact congrArg (Option.map Prod.fst) hstore

/-- A buffer is filled to its last cell exactly by a text of its size. -/
theorem storeAll_fills_iff {ys : List α} :
    storeAll (fresh n) 0 xs = some (ys.map some, ys.length) ↔ n = xs.length ∧ ys = xs := by
  have hlength : (fresh n : Cells α).length = n := List.length_replicate
  rcases Nat.lt_or_ge n xs.length with hshort | hroom
  · rw [storeAll_eq_none (Nat.zero_le _) (by omega)]
    constructor
    · exact fun h ↦ nomatch h
    · exact fun h ↦ absurd h.1 hshort.ne
  · rw [storeAll_eq (by omega), take_zero, nil_append, Nat.zero_add, Option.some.injEq,
      Prod.mk.injEq]
    constructor
    · rintro ⟨hcells, hcount⟩
      have hall := congrArg List.length hcells
      rw [length_append, length_drop, hlength, length_map, length_map] at hall
      have hn : n = xs.length := by omega
      refine ⟨hn, ?_⟩
      rw [drop_of_length_le (by omega), append_nil] at hcells
      exact ((List.map_injective_iff.mpr (Option.some_injective α)) hcells).symm
    · rintro ⟨rfl, rfl⟩
      refine ⟨?_, rfl⟩
      rw [drop_of_length_le hlength.le, append_nil]

theorem sized_fills_iff {ys : List α} :
    ((sized n : Option (Cells α)).bind fun b ↦ storeAll b 0 xs) = some (ys.map some, ys.length) ↔
      wrapped 32 n = xs.length ∧ ys = xs := by
  unfold sized
  by_cases hn : 0 ≤ wrapped 32 n
  · rw [if_pos hn, Option.bind_some, storeAll_fills_iff]
    constructor
    · rintro ⟨hlength, hys⟩
      exact ⟨by omega, hys⟩
    · rintro ⟨hlength, hys⟩
      exact ⟨by omega, hys⟩
  · rw [if_neg hn, Option.bind_none]
    constructor
    · exact fun h ↦ nomatch h
    · exact fun h ↦ absurd (h.1 ▸ Int.natCast_nonneg _) hn

end Cells

end Bsh.Library
