import Mathlib.Data.List.Basic
import Mathlib.Data.List.Perm.Basic
import Mathlib.Data.List.Range
import Mathlib.Data.List.ReduceOption
import Mathlib.Logic.Function.Basic

/-!
# Moves in a memory

A memory holds a value at every place, and a loop moves a piece of it up or down by one value at a
time.  The pieces may overlap: a piece that is moved up is read from its end, and one that is moved
down from its start.
-/

namespace Bsh.Library.Memory

open List

variable {α : Type*} {mem mem' : ℕ → α} {i n : ℕ}

/-- `for (i = lo + n; --i >= lo;) mem[i + ct] = mem[i]`. -/
def raise (lo ct : ℕ) : ℕ → (ℕ → α) → ℕ → α
  | 0, mem => mem
  | n + 1, mem => raise lo ct n (Function.update mem (lo + n + ct) (mem (lo + n)))

/-- `n` turns of `mem[lo] = mem[lo + cnt], lo++`. -/
def lower (cnt : ℕ) : ℕ → ℕ → (ℕ → α) → ℕ → α
  | 0, _, mem => mem
  | n + 1, lo, mem => lower cnt n (lo + 1) (Function.update mem lo (mem (lo + cnt)))

theorem raise_apply (lo ct n : ℕ) (mem : ℕ → α) (i : ℕ) :
    raise lo ct n mem i = if lo + ct ≤ i ∧ i < lo + n + ct then mem (i - ct) else mem i := by
  induction n generalizing mem with
  | zero =>
    rw [raise, if_neg (by omega)]
  | succ n ih =>
    rw [raise, ih]
    -- A value is read before the turn that writes over it.
    have hread : lo + ct ≤ i → i < lo + n + ct → i - ct ≠ lo + n + ct := by omega
    split
    · next h => rw [Function.update_of_ne (hread h.1 h.2), if_pos ⟨h.1, by omega⟩]
    · next h =>
      by_cases hi : i = lo + n + ct
      · rw [hi, Function.update_self, if_pos (by omega), Nat.add_sub_cancel]
      · rw [Function.update_of_ne hi, if_neg (by omega)]

theorem lower_apply (cnt n lo : ℕ) (mem : ℕ → α) (i : ℕ) :
    lower cnt n lo mem i = if lo ≤ i ∧ i < lo + n then mem (i + cnt) else mem i := by
  induction n generalizing lo mem with
  | zero =>
    rw [lower, if_neg (by omega)]
  | succ n ih =>
    rw [lower, ih]
    split
    · next h => rw [Function.update_of_ne (by omega), if_pos (by omega)]
    · next h =>
      by_cases hi : i = lo
      · rw [hi, Function.update_self, if_pos (by omega)]
      · rw [Function.update_of_ne hi, if_neg (by omega)]

/-- `mem[i++] = x` for the values of a list. -/
def store : List α → ℕ → (ℕ → α) → ℕ → α
  | [], _, mem => mem
  | x :: xs, i, mem => store xs (i + 1) (Function.update mem i x)

theorem store_of_lt {xs : List α} {j : ℕ} (h : i < j) : store xs j mem i = mem i := by
  induction xs generalizing j mem with
  | nil => rfl
  | cons x xs ih => rw [store, ih (Nat.lt_succ_of_lt h), Function.update_of_ne h.ne]

theorem store_of_le {xs : List α} {j : ℕ} (h : j + xs.length ≤ i) : store xs j mem i = mem i := by
  induction xs generalizing j mem with
  | nil => rfl
  | cons x xs ih =>
    rw [length_cons] at h
    rw [store, ih (by omega), Function.update_of_ne (by omega)]

theorem store_append (xs ys : List α) (j : ℕ) (mem : ℕ → α) :
    store (xs ++ ys) j mem = store ys (j + xs.length) (store xs j mem) := by
  induction xs generalizing j mem with
  | nil => rfl
  | cons x xs ih =>
    rw [cons_append, store, ih, store, length_cons]
    congr 1
    omega

/-! ## What a memory holds -/

/-- The first `n` values. -/
def contents (mem : ℕ → α) (n : ℕ) : List α := (List.range n).map mem

@[simp]
theorem length_contents (mem : ℕ → α) (n : ℕ) : (contents mem n).length = n := by
  rw [contents, length_map, length_range]

theorem getElem?_contents (h : i < n) : (contents mem n)[i]? = some (mem i) := by
  rw [contents, List.getElem?_map, List.getElem?_range h]
  rfl

theorem contents_congr (h : ∀ i < n, mem i = mem' i) : contents mem n = contents mem' n :=
  map_congr_left fun i hi ↦ h i (List.mem_range.mp hi)

theorem contents_add (mem : ℕ → α) (m n : ℕ) :
    contents mem (m + n) = contents mem m ++ contents (fun i ↦ mem (m + i)) n := by
  unfold contents
  rw [range_add, map_append, map_map]
  rfl

theorem take_contents (h : i ≤ n) : (contents mem n).take i = contents mem i := by
  obtain ⟨m, rfl⟩ := Nat.exists_eq_add_of_le h
  rw [contents_add, take_left' (length_contents mem i)]

theorem drop_contents (h : i ≤ n) :
    (contents mem n).drop i = contents (fun j ↦ mem (i + j)) (n - i) := by
  obtain ⟨m, rfl⟩ := Nat.exists_eq_add_of_le h
  rw [contents_add, drop_left' (length_contents mem i), Nat.add_sub_cancel_left]

theorem contents_store_self (xs : List α) (j : ℕ) (mem : ℕ → α) :
    contents (fun i ↦ store xs j mem (j + i)) xs.length = xs := by
  induction xs generalizing j mem with
  | nil => rfl
  | cons x xs ih =>
    have hfirst : contents (fun i ↦ store (x :: xs) j mem (j + i)) 1 = [x] := by
      change [store xs (j + 1) (Function.update mem j x) j] = [x]
      rw [store_of_lt (Nat.lt_add_one j), Function.update_self]
    have hrest := ih (j + 1) (Function.update mem j x)
    rw [length_cons, Nat.add_comm, contents_add, hfirst]
    simp only [Nat.add_assoc] at hrest
    exact congrArg (x :: ·) hrest

theorem contents_store {xs : List α} {j : ℕ} (h : j + xs.length ≤ n) :
    contents (store xs j mem) n =
      (contents mem n).take j ++ xs ++ (contents mem n).drop (j + xs.length) := by
  have hlength : n = j + xs.length + (n - (j + xs.length)) := by omega
  rw [take_contents (by omega), drop_contents h]
  conv_lhs => rw [hlength, contents_add, contents_add, contents_store_self]
  congr 1
  · congr 1
    exact contents_congr fun i hi ↦ store_of_lt hi
  · exact contents_congr fun i _ ↦ store_of_le (Nat.le_add_right _ i)

/-- A text opens by `ct` places; they keep what was there. -/
theorem contents_raise (mem : ℕ → α) {lo ll : ℕ} (h : lo ≤ ll) (ct : ℕ) :
    contents (raise lo ct (ll - lo) mem) (ll + ct) =
      (contents mem ll).take lo ++ contents (fun j ↦ mem (lo + j)) ct ++
        (contents mem ll).drop lo := by
  have hlength : ll + ct = lo + ct + (ll - lo) := by omega
  rw [hlength, contents_add, contents_add, take_contents h, drop_contents h]
  congr 1
  · congr 1
    · apply contents_congr
      intro i hi
      rw [raise_apply, if_neg (by omega)]
    · apply contents_congr
      intro i hi
      rw [raise_apply, if_neg (by omega)]
  · apply contents_congr
    intro i hi
    rw [raise_apply, if_pos (by omega)]
    congr 1
    omega

/-- A text closes over the places from `lo` on. -/
theorem contents_lower (mem : ℕ → α) {lo ll : ℕ} (h : lo ≤ ll) (cnt : ℕ) :
    contents (lower cnt (ll - cnt - lo) lo mem) (max lo (ll - cnt)) =
      (contents mem ll).take lo ++ (contents mem ll).drop (lo + cnt) := by
  have hlength : max lo (ll - cnt) = lo + (ll - cnt - lo) := by omega
  rw [hlength, contents_add, take_contents h]
  congr 1
  · apply contents_congr
    intro i hi
    rw [lower_apply, if_neg (by omega)]
  · rcases Nat.lt_or_ge ll (lo + cnt) with hshort | hlong
    · rw [drop_eq_nil_of_le (by rw [length_contents]; omega),
        (by omega : ll - cnt - lo = 0)]
      rfl
    · rw [drop_contents hlong, (by omega : ll - cnt - lo = ll - (lo + cnt))]
      apply contents_congr
      intro i hi
      rw [lower_apply, if_pos (by omega)]
      congr 1
      omega

end Bsh.Library.Memory

/-!
# Items that are released once

Items are allocated and released one by one; an item is known by its number, which stands for its
address.  Some of them are live: they are held by somebody.  A step is balanced if what is released
or live behind it is what was released or live in front of it and what the step has allocated, each
of it as often as before.  So an item that is live, is released once and is not live any more, or
stays live.
-/

namespace Bsh.Library

open List

structure Item (α : Type*) where
  id : ℕ
  val : α

/-- What has been released, and the number that the next item gets. -/
structure Pool (α : Type*) where
  fresh : ℕ
  freed : List (Item α)

namespace Pool

variable {α : Type*} {p q r : Pool α} {live live' live'' items : List (Item α)}

def alloc (p : Pool α) (a : α) : Item α × Pool α := (⟨p.fresh, a⟩, { p with fresh := p.fresh + 1 })

def free (p : Pool α) (items : List (Item α)) : Pool α := { p with freed := p.freed ++ items }

/-- Copies of some values. -/
def allocAll (p : Pool α) : List α → List (Item α) × Pool α
  | [] => ([], p)
  | a :: l =>
    let (item, p) := p.alloc a
    let (items, p) := p.allocAll l
    (item :: items, p)

/-- What is released or live, by number. -/
def known (p : Pool α) (live : List (Item α)) : List ℕ := (p.freed ++ live).map Item.id

/-- From `p` with `live` to `q` with `live'`. -/
def Balanced (p : Pool α) (live : List (Item α)) (q : Pool α) (live' : List (Item α)) : Prop :=
  ∃ n, q.fresh = p.fresh + n ∧
    (q.known live').Perm (p.known live ++ List.range' p.fresh n)

theorem Balanced.of_perm (h : live'.Perm live) : p.Balanced live p live' := by
  refine ⟨0, rfl, ?_⟩
  rw [range'_zero, append_nil]
  exact (h.append_left p.freed).map Item.id

theorem Balanced.trans (h : p.Balanced live q live') (h' : q.Balanced live' r live'') :
    p.Balanced live r live'' := by
  obtain ⟨n, hfresh, hperm⟩ := h
  obtain ⟨m, hfresh', hperm'⟩ := h'
  refine ⟨n + m, by omega, ?_⟩
  calc (r.known live'').Perm (q.known live' ++ List.range' q.fresh m) := hperm'
    _ |>.Perm (p.known live ++ List.range' p.fresh n ++ List.range' q.fresh m) :=
      hperm.append_right _
    _ = p.known live ++ List.range' p.fresh (n + m) := by
      rw [append_assoc, hfresh, range'_append_1]

theorem Balanced.free (h : p.Balanced live q (items ++ live')) :
    p.Balanced live (q.free items) live' := by
  obtain ⟨n, hfresh, hperm⟩ := h
  refine ⟨n, hfresh, ?_⟩
  rw [known, Pool.free, append_assoc]
  exact hperm

theorem Balanced.alloc (h : p.Balanced live q live') (a : α) :
    p.Balanced live (q.alloc a).2 ((q.alloc a).1 :: live') := by
  apply h.trans
  refine ⟨1, rfl, ?_⟩
  simp only [known, Pool.alloc, map_append, map_cons, range'_one]
  exact (List.perm_middle.trans (perm_append_singleton _ _).symm)

theorem Balanced.perm (h : p.Balanced live q live') (hperm : live''.Perm live') :
    p.Balanced live q live'' :=
  h.trans (.of_perm hperm)

theorem Balanced.allocAll (h : p.Balanced live q live') (l : List α) :
    p.Balanced live (q.allocAll l).2 ((q.allocAll l).1 ++ live') := by
  induction l generalizing q live' with
  | nil => exact h
  | cons a l ih =>
    have hrest := ih (h.alloc a)
    exact hrest.perm List.perm_middle.symm

theorem allocAll_val (p : Pool α) (l : List α) : (p.allocAll l).1.map Item.val = l := by
  induction l generalizing p with
  | nil => rfl
  | cons a l ih => exact congrArg (a :: ·) (ih _)

/-! ## Cells that hold items -/

/-- What a cell held before becomes apart from the cells. -/
theorem set_reduceOption {cells : List (Option (Item α))} {i : ℕ} {old : Option (Item α)}
    (h : cells[i]? = some old) (item : Item α) :
    (old.toList ++ (cells.set i (some item)).reduceOption).Perm (item :: cells.reduceOption) := by
  obtain ⟨hlt, hold⟩ := List.getElem?_eq_some_iff.mp h
  have hsplit : cells = cells.take i ++ old :: cells.drop (i + 1) := by
    rw [← hold, ← drop_eq_getElem_cons hlt, List.take_append_drop]
  have hset : cells.set i (some item) = cells.take i ++ some item :: cells.drop (i + 1) := by
    rw [set_eq_take_append_cons_drop, if_pos hlt]
  have hcons : (old :: cells.drop (i + 1)).reduceOption =
      old.toList ++ (cells.drop (i + 1)).reduceOption := by
    cases old with
    | none => rfl
    | some x => rfl
  rw [hset, reduceOption_append, reduceOption_cons_of_some]
  conv_rhs => rw [hsplit, reduceOption_append, hcons]
  generalize (cells.take i).reduceOption = front
  generalize (cells.drop (i + 1)).reduceOption = back
  calc (old.toList ++ (front ++ item :: back)).Perm (old.toList ++ item :: (front ++ back)) :=
      List.perm_middle.append_left _
    _ |>.Perm (item :: (old.toList ++ (front ++ back))) := perm_middle
    _ |>.Perm (item :: (front ++ (old.toList ++ back))) := by
      apply List.Perm.cons
      rw [← append_assoc, ← append_assoc]
      exact List.perm_append_comm.append_right _

theorem free_free (p : Pool α) (items items' : List (Item α)) :
    (p.free items).free items' = p.free (items ++ items') := by
  simp only [free, append_assoc]

/-- A live item is put into a cell, and what was there is released. -/
theorem Balanced.store {cells : List (Option (Item α))} {i : ℕ} {old : Option (Item α)}
    {item : Item α} {rest : List (Item α)}
    (h : p.Balanced live q (cells.reduceOption ++ item :: rest)) (hold : cells[i]? = some old) :
    p.Balanced live (q.free old.toList) ((cells.set i (some item)).reduceOption ++ rest) := by
  apply Balanced.free
  apply h.perm
  calc (old.toList ++ ((cells.set i (some item)).reduceOption ++ rest)).Perm
        (item :: cells.reduceOption ++ rest) := by
        rw [← append_assoc]
        exact (set_reduceOption hold item).append_right rest
    _ |>.Perm (cells.reduceOption ++ item :: rest) := List.perm_middle.symm

end Pool

end Bsh.Library
