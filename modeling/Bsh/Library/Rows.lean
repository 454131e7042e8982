import Bsh.Library.Linked
import Mathlib.Data.Finset.Card
import Mathlib.Data.Finset.Range

/-!
# Rows of linked records

Lists with at least one record, each linked by its own links, whose first cells are strung together
by a second link.  `Rows` reads such rows off a store with both kinds of links; what becomes of it
when another row is strung on, when the last row grows, and when other cells change.
-/

namespace Bsh.Library

open List

variable {α β : Type*}

theorem length_le_of_lt {l : List ℕ} {n : ℕ} (hnodup : l.Nodup) (hlt : ∀ a ∈ l, a < n) :
    l.length ≤ n := by
  have hsub : l.toFinset ⊆ Finset.range n := fun a ha ↦
    Finset.mem_range.mpr (hlt a (List.mem_toFinset.mp ha))
  calc l.length = l.toFinset.card := (toFinset_card_of_nodup hnodup).symm
    _ ≤ (Finset.range n).card := Finset.card_le_card hsub
    _ = n := Finset.card_range n

/-- A list with at least one record. -/
structure Row (α β : Type*) where
  addr : α
  val : β
  rest : List (α × β)

namespace Row

def cells (row : Row α β) : List (α × β) := (row.addr, row.val) :: row.rest

def addrs (row : Row α β) : List α := row.cells.map Prod.fst

def vals (row : Row α β) : List β := row.cells.map Prod.snd

/-- More records at the end. -/
def extend (row : Row α β) (l : List (α × β)) : Row α β := ⟨row.addr, row.val, row.rest ++ l⟩

variable {row : Row α β} {l : List (α × β)}

@[simp]
theorem cells_extend : (row.extend l).cells = row.cells ++ l := rfl

@[simp]
theorem addr_extend : (row.extend l).addr = row.addr := rfl

theorem addrs_extend : (row.extend l).addrs = row.addrs ++ l.map Prod.fst := by
  rw [Row.addrs, Row.addrs, cells_extend, map_append]

theorem vals_extend : (row.extend l).vals = row.vals ++ l.map Prod.snd := by
  rw [Row.vals, Row.vals, cells_extend, map_append]

theorem firstOr_cells (behind : Option α) : firstOr row.cells behind = some row.addr := rfl

theorem addr_mem : row.addr ∈ row.addrs := mem_cons_self

end Row

/-- Where rows begin, with what stands behind them. -/
def firstRow (rows : List (Row α β)) (behind : Option α) : Option α :=
  (rows.head?.map Row.addr).or behind

@[simp]
theorem firstRow_nil (behind : Option α) : firstRow ([] : List (Row α β)) behind = behind := rfl

@[simp]
theorem firstRow_cons (row : Row α β) (rows : List (Row α β)) (behind : Option α) :
    firstRow (row :: rows) behind = some row.addr := rfl

@[simp]
theorem firstRow_append (rows more : List (Row α β)) (behind : Option α) :
    firstRow (rows ++ more) behind = firstRow rows (firstRow more behind) := by
  rw [firstRow, firstRow, firstRow, List.head?_append, Option.map_or, Option.or_assoc]

/-- The cells of all rows. -/
def addrsOf (rows : List (Row α β)) : List α := rows.flatMap Row.addrs

@[simp]
theorem addrsOf_cons (row : Row α β) (rows : List (Row α β)) :
    addrsOf (row :: rows) = row.addrs ++ addrsOf rows := flatMap_cons

@[simp]
theorem addrsOf_append (rows more : List (Row α β)) :
    addrsOf (rows ++ more) = addrsOf rows ++ addrsOf more := flatMap_append

theorem addrsOf_concat (rows : List (Row α β)) (row : Row α β) :
    addrsOf (rows ++ [row]) = addrsOf rows ++ row.addrs := by
  rw [addrsOf_append, addrsOf_cons]
  exact congrArg _ (append_nil _)

/-- The cells of every row are linked in order, and the first cells are strung in order. -/
def Rows (cell : α → Option (Cell α β)) (or : α → Option α) : List (Row α β) → Option α → Prop
  | [], _ => True
  | row :: rows, behind =>
    Linked cell row.cells none ∧ or row.addr = firstRow rows behind ∧ Rows cell or rows behind

namespace Rows

variable {cell cell' : α → Option (Cell α β)} {or or' : α → Option α} {rows more : List (Row α β)}
  {row new : Row α β} {behind : Option α}

theorem append_iff :
    Rows cell or (rows ++ more) behind ↔
      Rows cell or rows (firstRow more behind) ∧ Rows cell or more behind := by
  induction rows with
  | nil => exact ⟨fun h ↦ ⟨trivial, h⟩, fun h ↦ h.2⟩
  | cons row rows ih =>
    rw [cons_append, Rows, Rows, ih, firstRow_append, and_assoc, and_assoc]

theorem congr (h : Rows cell or rows behind) (hcell : ∀ a ∈ addrsOf rows, cell' a = cell a)
    (hor : ∀ a ∈ addrsOf rows, or' a = or a) : Rows cell' or' rows behind := by
  induction rows with
  | nil => trivial
  | cons row rows ih =>
    have hfirst : Linked cell' row.cells none :=
      h.1.congr fun a ha ↦ hcell a (mem_append_left _ ha)
    have hstrung : or' row.addr = firstRow rows behind :=
      (hor _ (mem_append_left _ Row.addr_mem)).trans h.2.1
    have hrest : Rows cell' or' rows behind :=
      ih h.2.2 (fun a ha ↦ hcell a (mem_append_right _ ha))
        (fun a ha ↦ hor a (mem_append_right _ ha))
    exact ⟨hfirst, hstrung, hrest⟩

theorem linked_last (h : Rows cell or (rows ++ [row]) behind) : Linked cell row.cells none :=
  (append_iff.mp h).2.1

theorem or_last (h : Rows cell or (rows ++ [row]) behind) : or row.addr = behind :=
  (append_iff.mp h).2.2.1

theorem replace_last (h : Rows cell or (rows ++ [row]) behind) (haddr : new.addr = row.addr)
    (hcell : ∀ a ∈ addrsOf rows, cell' a = cell a) (hnew : Linked cell' new.cells none) :
    Rows cell' or (rows ++ [new]) behind := by
  have hfront := (append_iff.mp h).1
  rw [firstRow_cons, ← haddr] at hfront
  have hor : or new.addr = behind := by rw [haddr, h.or_last]
  exact append_iff.mpr ⟨hfront.congr hcell fun _ _ ↦ rfl, hnew, hor, trivial⟩

variable [DecidableEq α]

theorem set_or (h : Rows cell or (rows ++ [row]) behind)
    (hnodup : (addrsOf (rows ++ [row])).Nodup) (next : Option α) :
    Rows cell (Function.update or row.addr next) (rows ++ [row]) next := by
  rw [addrsOf_concat] at hnodup
  have hnot : ∀ a ∈ addrsOf rows, Function.update or row.addr next a = or a := fun a ha ↦
    Function.update_of_ne ((List.nodup_append.mp hnodup).2.2 a ha _ Row.addr_mem) _ _
  rw [append_iff] at h ⊢
  exact ⟨h.1.congr (fun _ _ ↦ rfl) hnot, h.2.1, Function.update_self _ _ _, trivial⟩

theorem concat (h : Rows cell or (rows ++ [row]) none)
    (hnodup : (addrsOf (rows ++ [row])).Nodup) (hnew : Linked cell new.cells none)
    (hor : or new.addr = none) (hne : new.addr ∉ addrsOf (rows ++ [row])) :
    Rows cell (Function.update or row.addr (some new.addr)) (rows ++ [row] ++ [new]) none := by
  have hrow : row.addr ∈ addrsOf (rows ++ [row]) := by
    rw [addrsOf_concat]
    exact mem_append_right _ Row.addr_mem
  have hor' : Function.update or row.addr (some new.addr) new.addr = none :=
    (Function.update_of_ne (ne_of_mem_of_not_mem hrow hne).symm _ _).trans hor
  exact append_iff.mpr ⟨h.set_or hnodup (some new.addr), hnew, hor', trivial⟩

end Rows

end Bsh.Library
