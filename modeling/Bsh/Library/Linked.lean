import Mathlib.Data.List.Induction
import Mathlib.Data.List.Nodup
import Mathlib.Logic.Function.Basic

/-!
# Singly linked lists in a store

Records in a store of cells, each with a link to the next one.  `Linked` reads a list of records off
the store; what it becomes when a cell gets another record, when the last link is set, when a cell is
cut out, and when cells outside of the list change.
-/

namespace Bsh.Library

open List

variable {α β : Type*}

/-- A record with a link. -/
structure Cell (α β : Type*) where
  val : β
  next : Option α

/-- Where a list begins, with what stands behind it. -/
def firstOr (l : List (α × β)) (behind : Option α) : Option α := (l.head?.map Prod.fst).or behind

/-- Where a list ends, with what stands in front of it. -/
def lastOr (l : List (α × β)) (before : Option α) : Option α := (l.getLast?.map Prod.fst).or before

@[simp]
theorem firstOr_nil (behind : Option α) : firstOr ([] : List (α × β)) behind = behind := rfl

@[simp]
theorem firstOr_cons (a : α) (r : β) (l : List (α × β)) (behind : Option α) :
    firstOr ((a, r) :: l) behind = some a := rfl

@[simp]
theorem firstOr_append (l m : List (α × β)) (behind : Option α) :
    firstOr (l ++ m) behind = firstOr l (firstOr m behind) := by
  rw [firstOr, firstOr, firstOr, List.head?_append, Option.map_or, Option.or_assoc]

@[simp]
theorem lastOr_concat (l : List (α × β)) (a : α) (r : β) (before : Option α) :
    lastOr (l ++ [(a, r)]) before = some a := by
  rw [lastOr, List.getLast?_concat]
  rfl

/-- The cells of a list hold its records and are linked in order. -/
def Linked (cell : α → Option (Cell α β)) : List (α × β) → Option α → Prop
  | [], _ => True
  | (a, r) :: l, behind => cell a = some ⟨r, firstOr l behind⟩ ∧ Linked cell l behind

namespace Linked

variable {cell cell' : α → Option (Cell α β)} {l m : List (α × β)} {behind : Option α} {a : α}
  {r r' : β}

theorem append_iff :
    Linked cell (l ++ m) behind ↔ Linked cell l (firstOr m behind) ∧ Linked cell m behind := by
  induction l with
  | nil => exact ⟨fun h ↦ ⟨trivial, h⟩, fun h ↦ h.2⟩
  | cons x l ih => rw [cons_append, Linked, Linked, ih, firstOr_append, and_assoc]

theorem cell_eq (h : Linked cell (l ++ (a, r) :: m) behind) :
    cell a = some ⟨r, firstOr m behind⟩ := (append_iff.mp h).2.1

theorem congr (h : Linked cell l behind) (hcell : ∀ x ∈ l.map Prod.fst, cell' x = cell x) :
    Linked cell' l behind := by
  induction l with
  | nil => trivial
  | cons x l ih =>
    refine ⟨(hcell x.1 mem_cons_self).trans h.1, ih h.2 fun y hy ↦ ?_⟩
    exact hcell y (mem_cons_of_mem _ hy)

theorem notMem_front (h : ((l ++ (a, r) :: m).map Prod.fst).Nodup) : a ∉ l.map Prod.fst := by
  rw [map_append, map_cons] at h
  exact fun ha ↦ (List.nodup_append.mp h).2.2 a ha a mem_cons_self rfl

theorem notMem_behind (h : ((l ++ (a, r) :: m).map Prod.fst).Nodup) : a ∉ m.map Prod.fst := by
  rw [map_append, map_cons] at h
  exact (List.nodup_cons.mp (List.nodup_append.mp h).2.1).1

section Updates

variable [DecidableEq α]

theorem update_of_notMem (h : Linked cell l behind) (ha : a ∉ l.map Prod.fst)
    (c : Option (Cell α β)) : Linked (Function.update cell a c) l behind :=
  h.congr fun _ hx ↦ Function.update_of_ne (ne_of_mem_of_not_mem hx ha) _ _

theorem set_val (h : Linked cell (l ++ (a, r) :: m) behind)
    (hnodup : ((l ++ (a, r) :: m).map Prod.fst).Nodup) (r' : β) :
    Linked (Function.update cell a (some ⟨r', firstOr m behind⟩)) (l ++ (a, r') :: m) behind := by
  rw [append_iff] at h ⊢
  refine ⟨h.1.update_of_notMem (notMem_front hnodup) _, Function.update_self _ _ _, ?_⟩
  exact h.2.2.update_of_notMem (notMem_behind hnodup) _

/-- The cells in front of a place get another link at their end. -/
theorem set_next (h : Linked cell (l ++ [(a, r)]) behind)
    (hnodup : ((l ++ [(a, r)]).map Prod.fst).Nodup) (next : Option α) :
    Linked (Function.update cell a (some ⟨r, next⟩)) (l ++ [(a, r)]) next := by
  rw [append_iff] at h ⊢
  exact ⟨h.1.update_of_notMem (notMem_front hnodup) _, Function.update_self _ _ _, trivial⟩

end Updates

end Linked

end Bsh.Library
