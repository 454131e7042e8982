import Bsh.Library.NodeChain

/-!
# Linked lists

The doubly linked lists of `linklist.c`.  The header of a list shares a union with a node, so that
`first` and `last` are its links; what is written where no memory is makes an operation fail.  The
abstract lists say for each node which data it has, and every operation on lists in use changes them
as it does the nodes in memory.
-/

namespace Bsh.Shell

open Bsh.Library List

variable {δ : Type*} [Inhabited δ]

/-- The memory for linked lists, with the address of the next memory to be allocated. -/
structure LinkHeap (δ : Type*) where
  node : ℕ → Option (Node ℕ δ)
  fresh : ℕ

namespace LinkHeap

def empty : LinkHeap δ := ⟨fun _ ↦ none, 0⟩

/-- An assignment to a field of `*p`. -/
def modify (h : LinkHeap δ) (p : Option ℕ) (f : Node ℕ δ → Node ℕ δ) : Option (LinkHeap δ) :=
  p.bind fun a ↦ (h.node a).map fun n ↦ { h with node := Function.update h.node a (some (f n)) }

/-- `p->next = v`; of a header, `first`. -/
def setNext (h : LinkHeap δ) (p v : Option ℕ) : Option (LinkHeap δ) :=
  h.modify p fun n ↦ { n with next := v }

/-- `p->prev = v`; of a header, `last`. -/
def setPrev (h : LinkHeap δ) (p v : Option ℕ) : Option (LinkHeap δ) :=
  h.modify p fun n ↦ { n with prev := v }

/-- `*p`. -/
def load (h : LinkHeap δ) (p : Option ℕ) : Option (Node ℕ δ) := p.bind h.node

/-- New memory for `size` nodes, one behind the other; nothing has been assigned to them. -/
def alloc (h : LinkHeap δ) (size : ℕ) : LinkHeap δ :=
  ⟨fun a ↦ if h.fresh ≤ a ∧ a < h.fresh + size then some ⟨none, none, default⟩ else h.node a,
    h.fresh + size⟩

/-- `newlinklist`. -/
def newlinklist (h : LinkHeap δ) : Option (LinkHeap δ) := do
  let list := h.fresh
  let h ← (h.alloc 1).setNext list none
  h.setPrev list list

/-- `if (tmp) tmp->prev = v; else list->list.last = v;` -/
def setBack (h : LinkHeap δ) (tmp : Option ℕ) (list : ℕ) (v : Option ℕ) : Option (LinkHeap δ) :=
  if tmp.isSome then h.setPrev tmp v else h.setPrev list v

/-- `uinsertlinknode`. -/
def uinsertlinknode (h : LinkHeap δ) (list node new : ℕ) : Option (LinkHeap δ) := do
  let tmp := (← h.load node).next
  let h ← h.setNext node new
  let h ← h.setPrev new node
  let h ← h.setNext new tmp
  h.setBack tmp list new

/-- A node that is in no list yet. -/
def newnode (h : LinkHeap δ) (dat : δ) : Option (LinkHeap δ) :=
  (h.alloc 1).modify h.fresh fun n ↦ { n with dat := dat }

/-- `insertlinknode`: the same with a new node. -/
def insertlinknode (h : LinkHeap δ) (list node : ℕ) (dat : δ) : Option (LinkHeap δ) := do
  let new := h.fresh
  let h ← h.newnode dat
  h.uinsertlinknode list node new

/-- `insertlinklist`. -/
def insertlinklist (h : LinkHeap δ) (l where_ x : ℕ) : Option (LinkHeap δ) := do
  let nx := (← h.load where_).next
  let first := (← h.load l).next
  if first.isNone then return h
  let h ← h.setNext where_ first
  let h ← h.setNext (← h.load l).prev nx
  let h ← h.setPrev (← h.load l).next where_
  h.setBack nx x (← h.load l).prev

/-- `remnode`, which frees the node, and `uremnode`, with the data of the node. -/
def unlinknode (free : Bool) (h : LinkHeap δ) (list nd : ℕ) : Option (δ × LinkHeap δ) := do
  let node ← h.load nd
  let h ← h.setNext node.prev node.next
  let h ← h.setBack node.next list node.prev
  return (node.dat, if free then { h with node := Function.update h.node nd none } else h)

/-- `getlinknode`, which frees the node, and `ugetnode`; `NULL` for an empty list. -/
def popnode (free : Bool) (h : LinkHeap δ) (list : ℕ) : Option (δ × LinkHeap δ) := do
  match (← h.load list).next with
  | none => return (default, h)
  | some nd =>
    let node ← h.load nd
    let h ← h.setNext list node.next
    let h ← h.setBack node.next list list
    return (node.dat, if free then { h with node := Function.update h.node nd none } else h)

/-- `rolllist`. -/
def rolllist (h : LinkHeap δ) (l nd : ℕ) : Option (LinkHeap δ) := do
  let h ← h.setNext (← h.load l).prev (← h.load l).next
  let h ← h.setPrev (← h.load l).next (← h.load l).prev
  let h ← h.setNext l nd
  let h ← h.setPrev l (← h.load nd).prev
  let h ← h.setPrev nd l
  h.setNext (← h.load l).prev none

/-- The loop of `newsizedlist`. -/
def sizedLoop (h : LinkHeap δ) : ℕ → ℕ → Option (LinkHeap δ)
  | 0, _ => some h
  | size + 1, node => do
    let h ← h.setPrev node (node - 1 : ℕ)
    let h ← h.setNext node (node + 1 : ℕ)
    h.sizedLoop size (node + 1)

/-- `newsizedlist`: the nodes stand behind the header. -/
def newsizedlist (h : LinkHeap δ) (size : ℕ) : Option (LinkHeap δ) := do
  let list := h.fresh
  let h ← (h.alloc (size + 1)).setNext list (list + 1 : ℕ)
  let h ← h.sizedLoop size (list + 1)
  let h ← h.setPrev list (list + size : ℕ)
  let h ← h.setPrev (← h.load list).next list
  h.setNext (list + size : ℕ) none

/-- `joinlists`; an empty first list gets its `first` as a node would its `next`. -/
def joinlists (h : LinkHeap δ) (first second : ℕ) : Option (LinkHeap δ) := do
  match (← h.load second).next with
  | none => return h
  | some moveme =>
    let header ← h.load first
    let anchor := if header.next.isSome then header.prev else first
    let h ← h.setNext anchor moveme
    let h ← h.setPrev moveme anchor
    let h ← h.setPrev first (← h.load second).prev
    let h ← h.setNext second none
    h.setPrev second none

/-! ## What the assignments do -/

section Assignments

omit [Inhabited δ]

variable {h : LinkHeap δ} {a : ℕ} {d : δ} {l : List (ℕ × δ)} {before behind : Option ℕ}
  {A : List (ℕ × Node ℕ δ)}

/-- Another memory in which no node is new. -/
structure Kept (h' h : LinkHeap δ) : Prop where
  fresh : h'.fresh = h.fresh
  none : ∀ a, h.node a = none → h'.node a = none

theorem Kept.trans {h₁ h₂ : LinkHeap δ} (h' : h₂.Kept h₁) (h'' : h₁.Kept h) : h₂.Kept h :=
  ⟨h'.fresh.trans h''.fresh, fun a ha ↦ h'.none a (h''.none a ha)⟩

theorem kept_update {n : Node ℕ δ} (ha : h.node a = some n) (o : Option (Node ℕ δ)) :
    Kept ⟨Function.update h.node a o, h.fresh⟩ h := by
  refine ⟨rfl, fun x hx ↦ ?_⟩
  have hne : x ≠ a := by
    rintro rfl
    exact absurd (ha.symm.trans hx) (Option.some_ne_none _)
  exact (Function.update_of_ne hne _ _).trans hx

theorem setNext_run (ho : Owns h.node (chain before (l ++ [(a, d)]) behind ++ A)) (v : Option ℕ) :
    ∃ h', h.setNext a v = some h' ∧ h'.Kept h ∧
      Owns h'.node (chain before (l ++ [(a, d)]) v ++ A) := by
  have heq : h.setNext a v =
      some ⟨Function.update h.node a (some ⟨v, lastOr l before, d⟩), h.fresh⟩ := by
    rw [setNext, modify, Option.bind_some, ho.last]
    rfl
  exact ⟨_, heq, kept_update ho.last _, ho.setNext v⟩

theorem setPrev_run (ho : Owns h.node (chain before ((a, d) :: l) behind ++ A)) (v : Option ℕ) :
    ∃ h', h.setPrev a v = some h' ∧ h'.Kept h ∧
      Owns h'.node (chain v ((a, d) :: l) behind ++ A) := by
  have heq : h.setPrev a v =
      some ⟨Function.update h.node a (some ⟨firstOr l behind, v, d⟩), h.fresh⟩ := by
    rw [setPrev, modify, Option.bind_some, ho.head]
    rfl
  exact ⟨_, heq, kept_update ho.head _, ho.setPrev v⟩

theorem exists_lastOr (l : List (ℕ × δ)) (a : ℕ) : ∃ node, lastOr l (some a) = some node := by
  cases hlast : l.getLast? with
  | none => exact ⟨a, by rw [lastOr, hlast]; rfl⟩
  | some x => exact ⟨x.1, by rw [lastOr, hlast]; rfl⟩

theorem exists_last {x : ℕ × δ} {node : ℕ} (h : lastOr l (some x.1) = some node) :
    ∃ front d, x :: l = front ++ [(node, d)] := by
  rcases eq_nil_or_concat l with rfl | ⟨front, y, rfl⟩
  · obtain rfl : x.1 = node := Option.some.inj h
    exact ⟨[], x.2, rfl⟩
  · rw [concat_eq_append] at h ⊢
    rw [lastOr_concat] at h
    obtain rfl : y.1 = node := Option.some.inj h
    exact ⟨x :: front, y.2, rfl⟩

end Assignments

/-! ## Lists in memory -/

/-- The nodes of a list, the header first, whose `prev` is the last of them. -/
def cells (list : ℕ) (l : List (ℕ × δ)) : List (ℕ × Node ℕ δ) :=
  chain (lastOr l (some list)) ((list, default) :: l) none

variable {h : LinkHeap δ} {list node new : ℕ} {n : Node ℕ δ} {l m : List (ℕ × δ)}
  {A : List (ℕ × Node ℕ δ)}

theorem cells_append (list : ℕ) (l m : List (ℕ × δ)) (A : List (ℕ × Node ℕ δ)) :
    cells list (l ++ m) ++ A =
      chain (lastOr (l ++ m) (some list)) ((list, default) :: l) (firstOr m none) ++
        (chain (lastOr l (some list)) m none ++ A) := by
  rw [cells, ← cons_append, chain_append, lastOr_cons, append_assoc]

variable {d : δ} {free : Bool} {nd : ℕ}

omit [Inhabited δ] in
/-- The link back from behind a place of a list: of the next node, or of the header. -/
theorem setBack_spec {before behind : Option ℕ}
    (ho : Owns h.node (chain (lastOr m before) ((list, d) :: l) behind ++
      (chain before m none ++ A))) (v : Option ℕ) :
    ∃ h', h.setBack (firstOr m none) list v = some h' ∧ h'.Kept h ∧
      Owns h'.node (chain (lastOr m v) ((list, d) :: l) behind ++ (chain v m none ++ A)) := by
  cases m with
  | nil => exact setPrev_run ho v
  | cons c m =>
    obtain ⟨h', heq, hfresh, ho⟩ := setPrev_run ho.swap v
    exact ⟨h', heq, hfresh, ho.swap⟩

/-- A node of its own behind one of the list; the header counts as one. -/
theorem uinsertlinknode_spec {nx pv : Option ℕ}
    (ho : Owns h.node (cells list (l ++ m) ++ (chain pv [(new, d)] nx ++ A)))
    (hnode : lastOr l (some list) = some node) :
    ∃ h', h.uinsertlinknode list node new = some h' ∧ h'.Kept h ∧
      Owns h'.node (cells list (l ++ (new, d) :: m) ++ A) := by
  obtain ⟨front, dn, hfront⟩ := @exists_last _ l (list, default) node hnode
  rw [cells_append, lastOr_append, hnode, hfront] at ho
  have hload : h.load node = some ⟨_, _, dn⟩ := ho.last
  obtain ⟨h₁, e₁, f₁, ho⟩ := setNext_run ho (some new)
  obtain ⟨h₂, e₂, f₂, ho⟩ := setPrev_run ho.rotate (some node)
  obtain ⟨h₃, e₃, f₃, ho⟩ := setNext_run (l := []) ho (firstOr m none)
  rw [← hfront] at ho
  obtain ⟨h₄, e₄, f₄, ho⟩ := setBack_spec ho.rotate.rotate (some new)
  refine ⟨h₄, ?_, (f₄.trans f₃).trans (f₂.trans f₁), ?_⟩
  · rw [uinsertlinknode, hload]
    simp only [Option.bind_eq_bind, Option.bind_some, e₁, e₂, e₃]
    exact e₄
  · rw [cells_append, lastOr_append, lastOr_cons, hnode]
    exact ho.rotate.swap

/-- What is left of a node between `l` and `m` that has been taken out. -/
def leftover (free : Bool) (list : ℕ) (l : List (ℕ × δ)) (x : ℕ × δ) (m : List (ℕ × δ)) :
    List (ℕ × Node ℕ δ) :=
  if free then [] else chain (lastOr l (some list)) [x] (firstOr m none)

theorem unlinknode_spec
    (ho : Owns h.node (cells list (l ++ (nd, d) :: m) ++ A)) :
    ∃ h', h.unlinknode free list nd = some (d, h') ∧ h'.Kept h ∧
      Owns h'.node (cells list (l ++ m) ++ (leftover free list l (nd, d) m ++ A)) := by
  obtain ⟨node, hnode⟩ := exists_lastOr l list
  obtain ⟨front, dn, hfront⟩ := @exists_last _ l (list, default) node hnode
  rw [cells_append, hnode, hfront, lastOr_append, lastOr_cons] at ho
  replace ho : Owns h.node (chain _ (front ++ [(node, dn)]) (some nd) ++
    (chain (some node) [(nd, d)] (firstOr m none) ++ (chain (some nd) m none ++ A))) := ho
  have hload : h.load nd = some ⟨firstOr m none, some node, d⟩ := ho.swap.head
  obtain ⟨h₁, e₁, f₁, ho⟩ := setNext_run ho (firstOr m none)
  rw [← hfront] at ho
  obtain ⟨h₂, e₂, f₂, ho⟩ := setBack_spec ho.rotate.swap (some node)
  have heq : h.unlinknode free list nd = some (d, if free then
      { h₂ with node := Function.update h₂.node nd none } else h₂) := by
    rw [unlinknode, hload]
    simp only [Option.bind_eq_bind, Option.bind_some, e₁, e₂]
    rfl
  have hnew : chain (lastOr m (some node)) ((list, default) :: l) (firstOr m none) ++
      chain (some node) m none = cells list (l ++ m) := by
    have hcells := cells_append list l m []
    rw [append_nil, append_nil, lastOr_append, hnode] at hcells
    exact hcells.symm
  replace ho := ho.rotate
  rw [← append_assoc (chain (lastOr m _) _ _), hnew] at ho
  rw [leftover, hnode]
  cases free with
  | false => exact ⟨h₂, heq, f₂.trans f₁, ho.swap⟩
  | true => exact ⟨_, heq, (kept_update ho.head _).trans (f₂.trans f₁), ho.erase⟩

theorem popnode_cons
    (ho : Owns h.node (cells list ((nd, d) :: m) ++ A)) :
    h.popnode free list = h.unlinknode free list nd := by
  have hheader : h.load list = some ⟨some nd, _, default⟩ := ho.head
  have hload : h.load nd = some ⟨firstOr m none, some list, d⟩ :=
    ho.2 (nd, _) (mem_cons_of_mem _ (mem_append_left _ mem_cons_self))
  rw [popnode, unlinknode, hheader, hload]
  simp only [Option.bind_eq_bind, Option.bind_some, hload]

theorem popnode_nil (ho : Owns h.node (cells list [] ++ A)) :
    h.popnode free list = some (default, h) := by
  have hheader : h.load list = some ⟨none, _, default⟩ := ho.head
  rw [popnode, hheader]
  rfl

theorem cells_eq (x : ℕ) (k : List (ℕ × δ)) : cells x k =
    chain (lastOr k (some x)) [(x, default)] (firstOr k none) ++ chain (some x) k none := rfl

/-- The nodes of `x` go behind a node of `y`; the header of `x` is left over. -/
theorem insertlinklist_spec {x y : ℕ} {k : List (ℕ × δ)} (hne : k ≠ [])
    (ho : Owns h.node (cells y (l ++ m) ++ (cells x k ++ A)))
    (hnode : lastOr l (some y) = some node) :
    ∃ h' pv nx, h.insertlinklist x node y = some h' ∧ h'.Kept h ∧
      Owns h'.node (cells y (l ++ (k ++ m)) ++ (chain pv [(x, default)] nx ++ A)) := by
  obtain ⟨front, dn, hfront⟩ := @exists_last _ l (y, default) node hnode
  obtain ⟨⟨c, dc⟩, k, rfl⟩ := exists_cons_of_ne_nil hne
  obtain ⟨last, hlast⟩ := exists_lastOr k c
  obtain ⟨back, dl, hback⟩ := @exists_last _ k (c, dc) last hlast
  rw [cells_eq x, lastOr_cons, hlast, firstOr_cons, append_assoc] at ho
  replace ho := ho.rotate.swap
  rw [cells_append, lastOr_append, hnode, hfront] at ho
  have hnext : h.load node = some ⟨firstOr m none, _, dn⟩ := ho.last
  -- The header of `x` is read again after every assignment, and never written.
  have hheader {g : LinkHeap δ} {B C D : List (ℕ × Node ℕ δ)} (hg : Owns g.node (B ++ (C ++ (D ++
      (chain (some last) [(x, default)] (some c) ++ A))))) :
      g.load x = some ⟨some c, some last, default⟩ := hg.2 (x, _) (by simp [chain])
  have hx := hheader ho
  obtain ⟨h₁, e₁, f₁, ho⟩ := setNext_run ho (some c)
  have hx₁ := hheader ho
  rw [hback] at ho
  obtain ⟨h₂, e₂, f₂, ho⟩ := setNext_run ho.rotate (firstOr m none)
  have hx₂ := hheader ho
  rw [← hback] at ho
  obtain ⟨h₃, e₃, f₃, ho⟩ := setPrev_run ho (some node)
  have hx₃ := hheader ho
  rw [← hfront] at ho
  obtain ⟨h₄, e₄, f₄, ho⟩ := setBack_spec ho.rotate.rotate (some last)
  refine ⟨h₄, some last, some c, ?_, (f₄.trans f₃).trans (f₂.trans f₁), ?_⟩
  · rw [insertlinklist, hnext, hx]
    simp only [Option.bind_eq_bind, Option.bind_some, e₁, hx₁, e₂, hx₂, e₃, hx₃]
    exact e₄
  · rw [cells_append, lastOr_append, lastOr_append, lastOr_cons, hlast, hnode, chain_append,
      lastOr_cons, hlast, append_assoc]
    exact ho.rotate.swap

theorem insertlinklist_nil {x y : ℕ} (ho : Owns h.node (cells y (l ++ m) ++ (cells x [] ++ A)))
    (hnode : lastOr l (some y) = some node) : h.insertlinklist x node y = some h := by
  have hheader : h.load x = some ⟨none, _, default⟩ := ho.swap.head
  obtain ⟨front, dn, hfront⟩ := @exists_last _ l (y, default) node hnode
  rw [cells_append, hfront] at ho
  have hnext : h.load node = some ⟨_, _, dn⟩ := ho.last
  rw [insertlinklist, hnext, hheader]
  rfl

/-- The first two assignments of `rolllist` close the ring. -/
theorem rolllist_ring {last : ℕ} (hlast : lastOr m (some nd) = some last)
    (ho : Owns h.node (cells list (l ++ (nd, d) :: m) ++ A)) :
    ∃ h₁ h₂, h.setNext last (firstOr l (some nd)) = some h₁ ∧ h₁.Kept h ∧
      h₁.load list = some ⟨firstOr l (some nd), some last, default⟩ ∧
      h₁.setPrev (firstOr l (some nd)) (some last) = some h₂ ∧ h₂.Kept h₁ ∧
      Owns h₂.node (chain (some last) [(list, default)] (firstOr l (some nd)) ++
        (chain (lastOr l (some last)) ((nd, d) :: m ++ l) (some nd) ++ A)) := by
  obtain ⟨back, dl, hback⟩ := @exists_last _ m (nd, d) last hlast
  rw [cells_eq, lastOr_append, lastOr_cons, hlast, firstOr_append, firstOr_cons] at ho
  cases l with
  | nil =>
    rw [nil_append, hback, append_assoc] at ho
    obtain ⟨h₁, e₁, f₁, ho⟩ := setNext_run ho.swap (some nd)
    have hx := ho.swap.head
    rw [← hback] at ho
    obtain ⟨h₂, e₂, f₂, ho⟩ := setPrev_run ho (some last)
    rw [append_nil]
    exact ⟨h₁, h₂, e₁, f₁, hx, e₂, f₂, ho.swap⟩
  | cons c l =>
    rw [chain_append, append_assoc, append_assoc, hback] at ho
    obtain ⟨h₁, e₁, f₁, ho⟩ := setNext_run ho.rotate (some c.1)
    have hx := ho.swap.head
    rw [← hback] at ho
    obtain ⟨h₂, e₂, f₂, ho⟩ := setPrev_run ho.rotate (some last)
    refine ⟨h₁, h₂, e₁, f₁, hx, e₂, f₂, ?_⟩
    rw [lastOr_cons] at ho
    rw [chain_append, lastOr_cons, lastOr_cons, hlast, append_assoc]
    exact ho.rotate.rotate.swap

/-- The nodes in front of one go behind the others. -/
theorem rolllist_spec (ho : Owns h.node (cells list (l ++ (nd, d) :: m) ++ A)) :
    ∃ h', h.rolllist list nd = some h' ∧ h'.Kept h ∧
      Owns h'.node (cells list ((nd, d) :: m ++ l) ++ A) := by
  obtain ⟨last, hlast⟩ := exists_lastOr m nd
  have hx : h.load list = some ⟨firstOr l (some nd), some last, default⟩ := by
    have hhead := ho.head
    rwa [firstOr_append, firstOr_cons, lastOr_append, lastOr_cons, hlast] at hhead
  obtain ⟨h₁, h₂, e₁, f₁, hx₁, e₂, f₂, ho⟩ := rolllist_ring hlast ho
  obtain ⟨z, hz⟩ := exists_lastOr l last
  have hend : lastOr (m ++ l) (some nd) = some z := by rw [lastOr_append, hlast, hz]
  obtain ⟨back, dz, hback⟩ := @exists_last _ (m ++ l) (nd, d) z hend
  rw [hz, cons_append] at ho
  obtain ⟨h₃, e₃, f₃, ho⟩ := setNext_run (l := []) ho (some nd)
  have hnd : h₃.load nd = some ⟨_, some z, d⟩ := ho.swap.head
  obtain ⟨h₄, e₄, f₄, ho⟩ := setPrev_run ho (some z)
  obtain ⟨h₅, e₅, f₅, ho⟩ := setPrev_run ho.swap (some list)
  have hx₅ : h₅.load list = some ⟨_, some z, default⟩ := ho.swap.head
  rw [hback] at ho
  obtain ⟨h₆, e₆, f₆, ho⟩ := setNext_run ho none
  refine ⟨h₆, ?_, (f₆.trans f₅).trans ((f₄.trans f₃).trans (f₂.trans f₁)), ?_⟩
  · rw [rolllist, hx]
    simp only [Option.bind_eq_bind, Option.bind_some, e₁, hx₁, e₂, e₃, hnd, e₄, e₅, hx₅]
    exact e₆
  · rw [cells_eq, cons_append, firstOr_cons, lastOr_cons, hend, append_assoc, hback]
    exact ho.swap

/-- The second list is left without nodes and without links. -/
theorem joinlists_spec {first second : ℕ} (hne : m ≠ [])
    (ho : Owns h.node (cells first l ++ (cells second m ++ A))) :
    ∃ h', h.joinlists first second = some h' ∧ h'.Kept h ∧
      Owns h'.node (cells first (l ++ m) ++ (chain none [(second, default)] none ++ A)) := by
  obtain ⟨node, hnode⟩ := exists_lastOr l first
  obtain ⟨front, dn, hfront⟩ := @exists_last _ l (first, default) node hnode
  obtain ⟨⟨c, dc⟩, m, rfl⟩ := exists_cons_of_ne_nil hne
  obtain ⟨last, hlast⟩ := exists_lastOr m c
  rw [cells_eq second, lastOr_cons, hlast, firstOr_cons, append_assoc] at ho
  replace ho := ho.rotate.swap
  have hanchor : (if (firstOr l none).isSome then lastOr l (some first) else some first) =
      some node := by
    cases l with
    | nil => exact hnode
    | cons x l => exact hnode
  have hfirst : h.load first = some ⟨firstOr l none, lastOr l (some first), default⟩ := ho.head
  have hheader {g : LinkHeap δ} {B C : List (ℕ × Node ℕ δ)} (hg : Owns g.node (B ++ (C ++
      (chain (some last) [(second, default)] (some c) ++ A)))) :
      g.load second = some ⟨some c, some last, default⟩ := hg.2 (second, _) (by simp [chain])
  have hx := hheader ho
  rw [cells, hfront] at ho
  obtain ⟨h₁, e₁, f₁, ho⟩ := setNext_run ho (some c)
  obtain ⟨h₂, e₂, f₂, ho⟩ := setPrev_run ho.swap (some node)
  have hx₂ := hheader ho
  rw [← hfront] at ho
  obtain ⟨h₃, e₃, f₃, ho⟩ := setPrev_run ho.swap (some last)
  obtain ⟨h₄, e₄, f₄, ho⟩ := setNext_run (l := []) ho.rotate none
  obtain ⟨h₅, e₅, f₅, ho⟩ := setPrev_run ho none
  refine ⟨h₅, ?_, (f₅.trans f₄).trans ((f₃.trans f₂).trans f₁), ?_⟩
  · rw [joinlists, hx]
    simp only [Option.bind_eq_bind, Option.bind_some, hfirst, hanchor, e₁, e₂, hx₂, e₃, e₄]
    exact e₅
  · have hsplit := cells_append first l ((c, dc) :: m) (chain none [(second, default)] none ++ A)
    rw [lastOr_append, lastOr_cons, hlast, hnode] at hsplit
    rw [hsplit]
    exact ho.rotate.rotate

theorem joinlists_nil {first second : ℕ}
    (ho : Owns h.node (cells first l ++ (cells second [] ++ A))) :
    h.joinlists first second = some h := by
  have hheader : h.load second = some ⟨none, _, default⟩ := ho.swap.head
  rw [joinlists, hheader]
  rfl

theorem owns_alloc (ho : Owns h.node A) (hfresh : ∀ x ∈ A.map Prod.fst, x < h.fresh) (size : ℕ) :
    Owns (h.alloc size).node
      ((List.range' h.fresh size).map (fun a ↦ (a, ⟨none, none, default⟩)) ++ A) := by
  have hkeys : ((List.range' h.fresh size).map
      fun a ↦ (a, (⟨none, none, default⟩ : Node ℕ δ))).map Prod.fst = List.range' h.fresh size := by
    rw [map_map]
    exact map_id _
  constructor
  · rw [map_append, hkeys, nodup_append]
    refine ⟨nodup_range', ho.1, fun x hx y hy ↦ ?_⟩
    have hle := (List.mem_range'_1.mp hx).1
    exact Nat.ne_of_gt (Nat.lt_of_lt_of_le (hfresh y hy) hle)
  · rw [Stores.append_iff]
    constructor
    · intro c hc
      obtain ⟨a, ha, rfl⟩ := List.mem_map.mp hc
      exact if_pos (List.mem_range'_1.mp ha)
    · refine ho.2.frame fun x hx ↦ if_neg fun h ↦ ?_
      exact absurd (hfresh x hx) (Nat.not_lt.mpr h.1)

theorem newlinklist_spec (ho : Owns h.node A) (hfresh : ∀ x ∈ A.map Prod.fst, x < h.fresh) :
    ∃ h', h.newlinklist = some h' ∧ h'.Kept (h.alloc 1) ∧
      Owns h'.node (cells h.fresh [] ++ A) := by
  have ho' : Owns (h.alloc 1).node (chain none ([] ++ [(h.fresh, default)]) none ++ A) :=
    owns_alloc ho hfresh 1
  obtain ⟨h₁, e₁, f₁, ho⟩ := setNext_run ho' none
  obtain ⟨h₂, e₂, f₂, ho⟩ := setPrev_run ho (some h.fresh)
  refine ⟨h₂, ?_, f₂.trans f₁, ho⟩
  rw [newlinklist]
  simp only [Option.bind_eq_bind, Option.bind_some, e₁]
  exact e₂

/-- The nodes of a sized list. -/
def sized (list size : ℕ) : List (ℕ × δ) := (List.range' (list + 1) size).map fun a ↦ (a, default)

theorem sizedLoop_spec {size a : ℕ} (ho : Owns h.node
    ((List.range' (a + 1) size).map (fun a ↦ (a, ⟨none, none, default⟩)) ++ A)) :
    ∃ h', h.sizedLoop size (a + 1) = some h' ∧ h'.Kept h ∧
      Owns h'.node (chain (some a) (sized a size) (some (a + 1 + size)) ++ A) := by
  induction size generalizing h a A with
  | zero => exact ⟨h, rfl, ⟨rfl, fun _ h ↦ h⟩, ho⟩
  | succ size ih =>
    replace ho : Owns h.node (chain none [(a + 1, default)] none ++ (_ ++ A)) := ho
    obtain ⟨h₁, e₁, f₁, ho⟩ := setPrev_run ho (some a)
    obtain ⟨h₂, e₂, f₂, ho⟩ := setNext_run (l := []) ho (some (a + 2))
    obtain ⟨h₃, e₃, f₃, ho⟩ := ih ho.swap
    refine ⟨h₃, ?_, f₃.trans (f₂.trans f₁), ?_⟩
    · rw [sizedLoop, Nat.add_sub_cancel, e₁]
      simp only [Option.bind_eq_bind, Option.bind_some, e₂]
      exact e₃
    · have hend : a + 1 + 1 + size = a + 1 + (size + 1) := by omega
      have hsized : sized (δ := δ) a (size + 1) = [(a + 1, default)] ++ sized (a + 1) size := rfl
      have hfirst : firstOr (sized (δ := δ) (a + 1) size) (some (a + 1 + (size + 1))) =
          some (a + 2) := by
        cases size <;> rfl
      rw [hsized, chain_append, hfirst, append_assoc, ← hend]
      exact ho.swap

theorem newsizedlist_spec (ho : Owns h.node A) (hfresh : ∀ x ∈ A.map Prod.fst, x < h.fresh)
    {size : ℕ} (hsize : 0 < size) :
    ∃ h', h.newsizedlist size = some h' ∧ h'.Kept (h.alloc (size + 1)) ∧
      Owns h'.node (cells h.fresh (sized h.fresh size) ++ A) := by
  have ho' : Owns (h.alloc (size + 1)).node (chain none ([] ++ [(h.fresh, default)]) none ++
      ((List.range' (h.fresh + 1) size).map (fun a ↦ (a, ⟨none, none, default⟩)) ++ A)) :=
    owns_alloc ho hfresh (size + 1)
  obtain ⟨size, rfl⟩ := Nat.exists_eq_add_one.mpr hsize
  have hlast : sized (δ := δ) h.fresh (size + 1) =
      (List.range' (h.fresh + 1) size).map (fun a ↦ (a, default)) ++
        [(h.fresh + (size + 1), default)] := by
    rw [sized, range'_concat, map_append, Nat.one_mul, Nat.add_assoc, Nat.add_comm 1]
    rfl
  obtain ⟨h₁, e₁, f₁, ho⟩ := setNext_run ho' (some (h.fresh + 1))
  obtain ⟨h₂, e₂, f₂, ho⟩ := sizedLoop_spec ho.swap
  obtain ⟨h₃, e₃, f₃, ho⟩ := setPrev_run ho.swap (some (h.fresh + (size + 1)))
  have hx : h₃.load h.fresh = some ⟨some (h.fresh + 1), _, default⟩ := ho.head
  obtain ⟨h₄, e₄, f₄, ho⟩ := setPrev_run (l := sized (h.fresh + 1) size) ho.swap (some h.fresh)
  replace ho : Owns h₄.node (chain (some h.fresh) (sized h.fresh (size + 1)) _ ++ _) := ho
  rw [hlast] at ho
  obtain ⟨h₅, e₅, f₅, ho⟩ := setNext_run ho none
  refine ⟨h₅, ?_, (f₅.trans f₄).trans ((f₃.trans f₂).trans f₁), ?_⟩
  · rw [newsizedlist]
    simp only [Option.bind_eq_bind, Option.bind_some, e₁, e₂, e₃, hx, e₄]
    exact e₅
  · have hfirst : firstOr (sized (δ := δ) h.fresh (size + 1)) none = some (h.fresh + 1) := rfl
    have hend : lastOr (sized (δ := δ) h.fresh (size + 1)) (some h.fresh) =
        some (h.fresh + (size + 1)) := by
      rw [hlast, lastOr_concat]
    rw [cells_eq, hfirst, hend, append_assoc, hlast]
    exact ho.swap

theorem newnode_spec (ho : Owns h.node A) (hfresh : ∀ x ∈ A.map Prod.fst, x < h.fresh) (d : δ) :
    ∃ h', h.newnode d = some h' ∧ h'.Kept (h.alloc 1) ∧
      Owns h'.node (chain none [(h.fresh, d)] none ++ A) := by
  have ho' : Owns (h.alloc 1).node ((h.fresh, ⟨none, none, default⟩) :: A) := owns_alloc ho hfresh 1
  have hnode : (h.alloc 1).node h.fresh = some ⟨none, none, default⟩ := ho'.2 _ mem_cons_self
  have heq : h.newnode d = some ⟨Function.update (h.alloc 1).node h.fresh
      (some ⟨none, none, d⟩), (h.alloc 1).fresh⟩ := by
    rw [newnode, modify, Option.bind_some, hnode]
    rfl
  exact ⟨_, heq, kept_update hnode _, ho'.write _⟩

theorem insertlinknode_spec (ho : Owns h.node (cells list (l ++ m) ++ A))
    (hfresh : ∀ x ∈ (cells list (l ++ m) ++ A).map Prod.fst, x < h.fresh)
    (hnode : lastOr l (some list) = some node) :
    ∃ h', h.insertlinknode list node d = some h' ∧ h'.Kept (h.alloc 1) ∧
      Owns h'.node (cells list (l ++ (h.fresh, d) :: m) ++ A) := by
  obtain ⟨h₁, e₁, f₁, ho⟩ := newnode_spec ho hfresh d
  obtain ⟨h₂, e₂, f₂, ho⟩ := uinsertlinknode_spec ho.swap hnode
  refine ⟨h₂, ?_, f₂.trans f₁, ho⟩
  rw [insertlinknode, e₁]
  exact e₂

/-! ## Lists in use -/

/-- `a->next`; of a header, `first`. -/
def next (h : LinkHeap δ) (a : ℕ) : Option ℕ := (h.node a).bind Node.next

/-- `a->prev`; of a header, `last`. -/
def prev (h : LinkHeap δ) (a : ℕ) : Option ℕ := (h.node a).bind Node.prev

/-- The header `list` stands for these nodes. -/
structure Represents (h : LinkHeap δ) (list : ℕ) (l : List (ℕ × δ)) : Prop where
  forward : follow h.next none l.length (h.next list) = l.map Prod.fst
  backward : follow h.prev (some list) l.length (h.prev list) = (l.map Prod.fst).reverse
  last : h.prev list = lastOr l (some list)
  dat : ∀ x ∈ l, (h.node x.1).map Node.dat = some x.2
  prev_of_next : ∀ a ∈ list :: l.map Prod.fst, ∀ b, h.next a = some b →
    b ∈ l.map Prod.fst ∧ h.prev b = some a
  next_of_prev : ∀ b ∈ l.map Prod.fst, ∃ a ∈ list :: l.map Prod.fst,
    h.prev b = some a ∧ h.next a = some b

section Representation

variable (ho : Owns h.node (cells list l ++ A))

include ho

theorem node_of_split {front rest : List (ℕ × δ)} {x : ℕ × δ}
    (hsplit : (list, default) :: l = front ++ x :: rest) :
    h.node x.1 =
      some ⟨firstOr rest none, lastOr front (lastOr l (some list)), x.2⟩ := by
  rw [cells, hsplit, chain_append, append_assoc] at ho
  exact ho.swap.head

theorem next_iff {front rest : List (ℕ × δ)} {x y : ℕ × δ}
    (hsplit : (list, default) :: l = front ++ x :: y :: rest) :
    h.next x.1 = some y.1 ∧ h.prev y.1 = some x.1 := by
  have hnext : h.node x.1 = _ := node_of_split ho hsplit
  rw [append_cons] at hsplit
  have hprev : h.node y.1 = _ := node_of_split ho hsplit
  rw [lastOr_concat] at hprev
  rw [next, prev, hnext, hprev]
  exact ⟨rfl, rfl⟩

theorem represents : h.Represents list l := by
  have hheader : h.node list = some ⟨firstOr l none, lastOr l (some list), default⟩ := ho.head
  have hnext : h.next list = firstOr l none := by rw [next, hheader, Option.bind_some]
  have hprev : h.prev list = lastOr l (some list) := by rw [prev, hheader, Option.bind_some]
  have hnodes : Stores h.node (chain (some list) l none) := fun c hc ↦
    ho.2 c (mem_append_left _ (mem_cons_of_mem _ hc))
  have hlist : list ∉ l.map Prod.fst := fun hmem ↦ by
    have hnodup := ho.1
    rw [cells, chain, cons_append, map_cons, map_append, map_fst_chain] at hnodup
    exact (List.nodup_cons.mp hnodup).1 (mem_append_left _ hmem)
  constructor
  case forward =>
    rw [hnext]
    exact follow_next hnodes (Nat.le_refl _)
  case backward =>
    rw [hprev]
    refine follow_prev hnodes (fun x hx heq ↦ hlist ?_) (Nat.le_refl _)
    rw [← Option.some.inj heq]
    exact mem_map_of_mem hx
  case last => exact hprev
  case dat =>
    intro x hx
    obtain ⟨front, rest, rfl⟩ := append_of_mem hx
    have hsplit : (list, default) :: (front ++ x :: rest) = (list, default) :: front ++ x :: rest :=
      rfl
    have hnode : h.node x.1 = _ := node_of_split ho hsplit
    rw [hnode]
    rfl
  case prev_of_next =>
    intro a ha b hab
    obtain ⟨x, hx, rfl⟩ : ∃ x ∈ (list, default) :: l, x.1 = a := List.mem_map.mp ha
    obtain ⟨front, rest, hsplit⟩ := append_of_mem hx
    have hnode : h.node x.1 = _ := node_of_split ho hsplit
    rw [next, hnode, Option.bind_some] at hab
    cases rest with
    | nil => cases hab
    | cons y rest =>
      obtain rfl : y.1 = b := Option.some.inj hab
      refine ⟨mem_map_of_mem ?_, (next_iff ho hsplit).2⟩
      cases front with
      | nil => simp [tail_eq_of_cons_eq hsplit]
      | cons z front => simp [tail_eq_of_cons_eq hsplit]
  case next_of_prev =>
    intro b hb
    obtain ⟨y, hy, rfl⟩ := List.mem_map.mp hb
    obtain ⟨front, rest, rfl⟩ := append_of_mem hy
    obtain ⟨a, ha⟩ := exists_lastOr front list
    obtain ⟨before, d, hbefore⟩ := @exists_last _ front (list, default) a ha
    have hsplit : (list, default) :: (front ++ y :: rest) = before ++ (a, d) :: y :: rest := by
      rw [← cons_append, hbefore, append_assoc]
      rfl
    have hlinks := next_iff ho hsplit
    refine ⟨a, ?_, hlinks.2, hlinks.1⟩
    have hmem : (a, d) ∈ (list, default) :: (front ++ y :: rest) := by simp [hsplit]
    exact mem_map_of_mem (f := Prod.fst) hmem

end Representation

end LinkHeap

/-! ## Runs -/

inductive LinkOp (δ : Type*)
  | newlinklist
  | newsizedlist (size : ℕ)
  | newnode (dat : δ)
  | insertlinknode (list node : ℕ) (dat : δ)
  | uinsertlinknode (list node new : ℕ)
  | insertlinklist (l where_ x : ℕ)
  | popnode (free : Bool) (list : ℕ)
  | unlinknode (free : Bool) (list nd : ℕ)
  | rolllist (l nd : ℕ)
  | joinlists (first second : ℕ)

/-- One operation, with the data that it returns. -/
def LinkHeap.exec (h : LinkHeap δ) : LinkOp δ → Option (δ × LinkHeap δ)
  | .newlinklist => h.newlinklist.map (default, ·)
  | .newsizedlist size => (h.newsizedlist size).map (default, ·)
  | .newnode dat => (h.newnode dat).map (default, ·)
  | .insertlinknode list node dat => (h.insertlinknode list node dat).map (default, ·)
  | .uinsertlinknode list node new => (h.uinsertlinknode list node new).map (default, ·)
  | .insertlinklist l where_ x => (h.insertlinklist l where_ x).map (default, ·)
  | .popnode free list => h.popnode free list
  | .unlinknode free list nd => h.unlinknode free list nd
  | .rolllist l nd => (h.rolllist l nd).map (default, ·)
  | .joinlists first second => (h.joinlists first second).map (default, ·)

def LinkHeap.execAll (h : LinkHeap δ) : List (LinkOp δ) → Option (List δ × LinkHeap δ)
  | [] => some ([], h)
  | op :: ops => do
    let (v, h) ← h.exec op
    let (vs, h) ← h.execAll ops
    return (v :: vs, h)

/-- The lists in use with their nodes, the nodes that are in no list, and the number of addresses
given out. -/
structure LinkLists (δ : Type*) where
  lists : List (ℕ × List (ℕ × δ))
  loose : List (ℕ × δ)
  fresh : ℕ

namespace LinkLists

/-- What an operation does to the lists in use.  A list whose nodes have gone to another one is no
longer in use. -/
inductive Step : LinkLists δ → LinkOp δ → δ → LinkLists δ → Prop
  | newlinklist {L F n} : Step ⟨L, F, n⟩ .newlinklist default ⟨(n, []) :: L, F, n + 1⟩
  | newsizedlist {L F n size} (hsize : 0 < size) :
    Step ⟨L, F, n⟩ (.newsizedlist size) default
      ⟨(n, LinkHeap.sized n size) :: L, F, n + (size + 1)⟩
  | newnode {L F n d} : Step ⟨L, F, n⟩ (.newnode d) default ⟨L, (n, d) :: F, n + 1⟩
  | insertlinknode {L F n list l m K node d} (hL : L.Perm ((list, l ++ m) :: K))
    (hnode : lastOr l (some list) = some node) :
    Step ⟨L, F, n⟩ (.insertlinknode list node d) default
      ⟨(list, l ++ (n, d) :: m) :: K, F, n + 1⟩
  | uinsertlinknode {L F n list l m K node new d G} (hL : L.Perm ((list, l ++ m) :: K))
    (hF : F.Perm ((new, d) :: G)) (hnode : lastOr l (some list) = some node) :
    Step ⟨L, F, n⟩ (.uinsertlinknode list node new) default
      ⟨(list, l ++ (new, d) :: m) :: K, G, n⟩
  | insertlinklist {L F n x y l m k K node} (hL : L.Perm ((y, l ++ m) :: (x, k) :: K))
    (hne : k ≠ []) (hnode : lastOr l (some y) = some node) :
    Step ⟨L, F, n⟩ (.insertlinklist x node y) default ⟨(y, l ++ (k ++ m)) :: K, F, n⟩
  | insertlinklist_nil {L F n x y l m K node} (hL : L.Perm ((y, l ++ m) :: (x, []) :: K))
    (hnode : lastOr l (some y) = some node) :
    Step ⟨L, F, n⟩ (.insertlinklist x node y) default ⟨L, F, n⟩
  | popnode {L F n list nd d m K free} (hL : L.Perm ((list, (nd, d) :: m) :: K)) :
    Step ⟨L, F, n⟩ (.popnode free list) d
      ⟨(list, m) :: K, if free then F else (nd, d) :: F, n⟩
  | popnode_nil {L F n list K free} (hL : L.Perm ((list, []) :: K)) :
    Step ⟨L, F, n⟩ (.popnode free list) default ⟨L, F, n⟩
  | unlinknode {L F n list l nd d m K free} (hL : L.Perm ((list, l ++ (nd, d) :: m) :: K)) :
    Step ⟨L, F, n⟩ (.unlinknode free list nd) d
      ⟨(list, l ++ m) :: K, if free then F else (nd, d) :: F, n⟩
  | rolllist {L F n list l nd d m K} (hL : L.Perm ((list, l ++ (nd, d) :: m) :: K)) :
    Step ⟨L, F, n⟩ (.rolllist list nd) default ⟨(list, (nd, d) :: m ++ l) :: K, F, n⟩
  | joinlists {L F n first second l m K} (hL : L.Perm ((first, l) :: (second, m) :: K))
    (hne : m ≠ []) :
    Step ⟨L, F, n⟩ (.joinlists first second) default ⟨(first, l ++ m) :: K, F, n⟩
  | joinlists_nil {L F n first second l K} (hL : L.Perm ((first, l) :: (second, []) :: K)) :
    Step ⟨L, F, n⟩ (.joinlists first second) default ⟨L, F, n⟩

/-- A run with the data that its operations return. -/
inductive Steps : LinkLists δ → List (LinkOp δ) → List δ → LinkLists δ → Prop
  | nil (s : LinkLists δ) : Steps s [] [] s
  | cons {s t u : LinkLists δ} {op : LinkOp δ} {ops v vs} (first : Step s op v t)
    (rest : Steps t ops vs u) : Steps s (op :: ops) (v :: vs) u

/-- The nodes of the lists in use. -/
def cells (L : List (ℕ × List (ℕ × δ))) : List (ℕ × Node ℕ δ) :=
  L.flatMap fun x ↦ LinkHeap.cells x.1 x.2

/-- The memory holds the lists in use and the nodes that are in no list, and nothing has been
allocated behind them. -/
structure Holds (h : LinkHeap δ) (s : LinkLists δ) : Prop where
  fresh : h.fresh = s.fresh
  none : ∀ a, s.fresh ≤ a → h.node a = none
  owns : ∃ B, (B.map fun c ↦ (c.1, c.2.dat)).Perm s.loose ∧ Owns h.node (cells s.lists ++ B)

variable {h h' : LinkHeap δ} {L L' : List (ℕ × List (ℕ × δ))} {F F' : List (ℕ × δ)} {n : ℕ}
  {B : List (ℕ × Node ℕ δ)}

theorem cells_cons (list : ℕ) (l : List (ℕ × δ)) (K : List (ℕ × List (ℕ × δ)))
    (B : List (ℕ × Node ℕ δ)) :
    cells ((list, l) :: K) ++ B = LinkHeap.cells list l ++ (cells K ++ B) := by
  rw [cells, flatMap_cons, append_assoc, cells]

theorem Holds.owns_of_perm (hs : Holds h ⟨L, F, n⟩) (hL : L.Perm L') :
    ∃ B, (B.map fun c ↦ (c.1, c.2.dat)).Perm F ∧ Owns h.node (cells L' ++ B) := by
  obtain ⟨B, hB, ho⟩ := hs.owns
  exact ⟨B, hB, ho.perm ((hL.flatMap_right _).append_right B)⟩

theorem Holds.step (hs : Holds h ⟨L, F, n⟩) (hkept : h'.Kept h)
    (hB : (B.map fun c ↦ (c.1, c.2.dat)).Perm F') (ho : Owns h'.node (cells L' ++ B)) :
    Holds h' ⟨L', F', n⟩ :=
  ⟨hkept.fresh.trans hs.fresh, fun a ha ↦ hkept.none a (hs.none a ha), B, hB, ho⟩

theorem Holds.step_alloc {size : ℕ} (hs : Holds h ⟨L, F, n⟩) (hkept : h'.Kept (h.alloc size))
    (hB : (B.map fun c ↦ (c.1, c.2.dat)).Perm F') (ho : Owns h'.node (cells L' ++ B)) :
    Holds h' ⟨L', F', n + size⟩ := by
  have hfresh : h.fresh = n := hs.fresh
  refine ⟨hkept.fresh.trans (congrArg (· + size) hfresh), fun a ha ↦ hkept.none a ?_, B, hB, ho⟩
  have hle : n + size ≤ a := ha
  have hnot : ¬ (h.fresh ≤ a ∧ a < h.fresh + size) := by omega
  exact (if_neg hnot).trans (hs.none a (Nat.le_trans (Nat.le_add_right n size) hle))

theorem Holds.lt_fresh (hs : Holds h ⟨L, F, n⟩) (ho : Owns h.node B) :
    ∀ x ∈ B.map Prod.fst, x < h.fresh := by
  intro x hx
  obtain ⟨c, hc, rfl⟩ := List.mem_map.mp hx
  by_contra hle
  rw [hs.fresh] at hle
  exact absurd ((ho.2 c hc).symm.trans (hs.none c.1 (Nat.not_lt.mp hle))) (Option.some_ne_none _)

omit [Inhabited δ] in
theorem exists_loose {new : ℕ} {d : δ} (hB : (B.map fun c ↦ (c.1, c.2.dat)).Perm ((new, d) :: F)) :
    ∃ pv nx C, B.Perm (chain pv [(new, d)] nx ++ C) ∧
      (C.map fun c ↦ (c.1, c.2.dat)).Perm F := by
  obtain ⟨⟨a, nx, pv, d'⟩, hc, heq⟩ := List.mem_map.mp (hB.mem_iff.mpr mem_cons_self)
  obtain ⟨rfl, rfl⟩ : a = new ∧ d' = d := Prod.mk.inj heq
  obtain ⟨front, rest, rfl⟩ := append_of_mem hc
  refine ⟨pv, nx, front ++ rest, perm_middle, List.Perm.cons_inv (a := (a, d')) ?_⟩
  exact (List.perm_middle.map (fun c : ℕ × Node ℕ δ ↦ (c.1, c.2.dat))).symm.trans hB

omit [Inhabited δ] in
theorem perm_leftover {free : Bool} {list : ℕ} {l m : List (ℕ × δ)} {x : ℕ × δ}
    (hB : (B.map fun c ↦ (c.1, c.2.dat)).Perm F) :
    ((LinkHeap.leftover free list l x m ++ B).map fun c ↦ (c.1, c.2.dat)).Perm
      (if free then F else x :: F) := by
  cases free with
  | false => exact hB.cons x
  | true => exact hB

/-- Every operation on lists in use is carried out, and returns the data of the node taken off. -/
theorem Holds.exec {s t : LinkLists δ} {op : LinkOp δ} {v : δ} (hs : Holds h s)
    (hstep : Step s op v t) : ∃ h', h.exec op = some (v, h') ∧ Holds h' t := by
  cases hstep with
  | newlinklist =>
    obtain ⟨B, hB, ho⟩ := hs.owns
    obtain ⟨h', heq, hkept, ho⟩ := LinkHeap.newlinklist_spec ho (hs.lt_fresh ho)
    rw [hs.fresh, ← cells_cons] at ho
    exact ⟨h', by rw [LinkHeap.exec, heq]; rfl, hs.step_alloc hkept hB ho⟩
  | newsizedlist hsize =>
    obtain ⟨B, hB, ho⟩ := hs.owns
    obtain ⟨h', heq, hkept, ho⟩ := LinkHeap.newsizedlist_spec ho (hs.lt_fresh ho) hsize
    rw [hs.fresh, ← cells_cons] at ho
    exact ⟨h', by rw [LinkHeap.exec, heq]; rfl, hs.step_alloc hkept hB ho⟩
  | @newnode L F n d =>
    obtain ⟨B, hB, ho⟩ := hs.owns
    obtain ⟨h', heq, hkept, ho⟩ := LinkHeap.newnode_spec ho (hs.lt_fresh ho) d
    rw [hs.fresh] at ho
    refine ⟨h', by rw [LinkHeap.exec, heq]; rfl, hs.step_alloc hkept ?_ ho.swap⟩
    exact hB.cons (n, d)
  | insertlinknode hL hnode =>
    obtain ⟨B, hB, ho⟩ := hs.owns_of_perm hL
    rw [cells_cons] at ho
    obtain ⟨h', heq, hkept, ho⟩ := LinkHeap.insertlinknode_spec ho (hs.lt_fresh ho) hnode
    rw [hs.fresh, ← cells_cons] at ho
    exact ⟨h', by rw [LinkHeap.exec, heq]; rfl, hs.step_alloc hkept hB ho⟩
  | uinsertlinknode hL hF hnode =>
    obtain ⟨B, hB, ho⟩ := hs.owns_of_perm hL
    obtain ⟨pv, nx, C, hBC, hC⟩ := exists_loose (hB.trans hF)
    replace ho := (ho.perm (hBC.append_left _)).swap
    rw [cells_cons] at ho
    obtain ⟨h', heq, hkept, ho⟩ := LinkHeap.uinsertlinknode_spec ho.swap hnode
    rw [← cells_cons] at ho
    exact ⟨h', by rw [LinkHeap.exec, heq]; rfl, hs.step hkept hC ho⟩
  | insertlinklist hL hne hnode =>
    obtain ⟨B, hB, ho⟩ := hs.owns_of_perm hL
    rw [cells_cons, cells_cons] at ho
    obtain ⟨h', pv, nx, heq, hkept, ho⟩ := LinkHeap.insertlinklist_spec hne ho hnode
    replace ho := ho.swap.drop
    rw [← cells_cons] at ho
    exact ⟨h', by rw [LinkHeap.exec, heq]; rfl, hs.step hkept hB ho⟩
  | insertlinklist_nil hL hnode =>
    obtain ⟨B, hB, ho⟩ := hs.owns_of_perm hL
    rw [cells_cons, cells_cons] at ho
    exact ⟨h, by rw [LinkHeap.exec, LinkHeap.insertlinklist_nil ho hnode]; rfl, hs⟩
  | @popnode _ _ _ _ _ _ _ _ free hL =>
    obtain ⟨B, hB, ho⟩ := hs.owns_of_perm hL
    rw [cells_cons] at ho
    have hpop : h.popnode free _ = _ := LinkHeap.popnode_cons ho
    obtain ⟨h', heq, hkept, ho⟩ := LinkHeap.unlinknode_spec (l := []) ho
    rw [nil_append] at ho
    replace ho := ho.rotate.swap
    exact ⟨h', hpop.trans heq, hs.step hkept (perm_leftover hB) (by rw [cells_cons]; exact ho)⟩
  | popnode_nil hL =>
    obtain ⟨B, hB, ho⟩ := hs.owns_of_perm hL
    rw [cells_cons] at ho
    exact ⟨h, LinkHeap.popnode_nil ho, hs⟩
  | unlinknode hL =>
    obtain ⟨B, hB, ho⟩ := hs.owns_of_perm hL
    rw [cells_cons] at ho
    obtain ⟨h', heq, hkept, ho⟩ := LinkHeap.unlinknode_spec ho
    exact ⟨h', heq, hs.step hkept (perm_leftover hB) (by rw [cells_cons]; exact ho.rotate.swap)⟩
  | rolllist hL =>
    obtain ⟨B, hB, ho⟩ := hs.owns_of_perm hL
    rw [cells_cons] at ho
    obtain ⟨h', heq, hkept, ho⟩ := LinkHeap.rolllist_spec ho
    rw [← cells_cons] at ho
    exact ⟨h', by rw [LinkHeap.exec, heq]; rfl, hs.step hkept hB ho⟩
  | joinlists hL hne =>
    obtain ⟨B, hB, ho⟩ := hs.owns_of_perm hL
    rw [cells_cons, cells_cons] at ho
    obtain ⟨h', heq, hkept, ho⟩ := LinkHeap.joinlists_spec hne ho
    replace ho := ho.swap.drop
    rw [← cells_cons] at ho
    exact ⟨h', by rw [LinkHeap.exec, heq]; rfl, hs.step hkept hB ho⟩
  | joinlists_nil hL =>
    obtain ⟨B, hB, ho⟩ := hs.owns_of_perm hL
    rw [cells_cons, cells_cons] at ho
    exact ⟨h, by rw [LinkHeap.exec, LinkHeap.joinlists_nil ho]; rfl, hs⟩

theorem holds_empty : Holds (LinkHeap.empty : LinkHeap δ) ⟨[], [], 0⟩ :=
  ⟨rfl, fun _ _ ↦ rfl, [], .refl _, nodup_nil, fun _ h ↦ nomatch h⟩

theorem Holds.execAll {s t : LinkLists δ} {ops : List (LinkOp δ)} {vs : List δ} (hs : Holds h s)
    (hsteps : Steps s ops vs t) : ∃ h', h.execAll ops = some (vs, h') ∧ Holds h' t := by
  induction hsteps generalizing h with
  | nil s => exact ⟨h, rfl, hs⟩
  | cons first rest ih =>
    obtain ⟨h₁, hfirst, hs⟩ := hs.exec first
    obtain ⟨h₂, hrest, hs⟩ := ih hs
    refine ⟨h₂, ?_, hs⟩
    rw [LinkHeap.execAll, hfirst]
    simp only [Option.bind_eq_bind, Option.bind_some, hrest]
    rfl

theorem Holds.represents {s : LinkLists δ} (hs : Holds h s) {x : ℕ × List (ℕ × δ)}
    (hx : x ∈ s.lists) : h.Represents x.1 x.2 := by
  obtain ⟨K, hK⟩ : ∃ K, s.lists.Perm (x :: K) := by
    obtain ⟨front, rest, hsplit⟩ := append_of_mem hx
    exact ⟨front ++ rest, hsplit ▸ perm_middle⟩
  obtain ⟨B, -, ho⟩ := hs.owns_of_perm hK
  rw [cells_cons] at ho
  exact LinkHeap.represents ho

end LinkLists

/-- Lists in use are linked both ways and have the nodes of the run, and what the operations return
is the data of the nodes taken off. -/
theorem linklists_represented {ops : List (LinkOp δ)} {vs : List δ} {s : LinkLists δ}
    (hsteps : LinkLists.Steps ⟨[], [], 0⟩ ops vs s) :
    ∃ h, (LinkHeap.empty : LinkHeap δ).execAll ops = some (vs, h) ∧
      ∀ x ∈ s.lists, h.Represents x.1 x.2 := by
  obtain ⟨h, heq, hs⟩ := LinkLists.holds_empty.execAll hsteps
  exact ⟨h, heq, fun x hx ↦ hs.represents hx⟩

/-- A node in front of another, and the second taken off. -/
theorem linklists_represented_pushed :
    ∃ h, (LinkHeap.empty : LinkHeap ℕ).execAll [.newlinklist, .insertlinknode 0 0 7,
      .insertlinknode 0 0 5, .unlinknode true 0 1] = some ([0, 0, 0, 7], h) ∧
      ∀ x ∈ [(0, [(2, 5)])], h.Represents x.1 x.2 :=
  linklists_represented (s := ⟨[(0, [(2, 5)])], [], 3⟩)
    (.cons .newlinklist (.cons (.insertlinknode (l := []) (m := []) (.refl _) rfl)
      (.cons (.insertlinknode (l := []) (m := [(1, 7)]) (.refl _) rfl)
        (.cons (.unlinknode (l := [(2, 5)]) (m := []) (.refl _)) (.nil _)))))

/-- Without nodes, the link back of the first node is written behind the memory of the list. -/
theorem not_represents_newsizedlist : ¬ ∀ size : ℕ, ∃ h,
    (LinkHeap.empty : LinkHeap ℕ).newsizedlist size = some h ∧
      h.Represents 0 (LinkHeap.sized 0 size) := by
  intro h
  obtain ⟨h', heq, -⟩ := h 0
  exact nomatch heq

end Bsh.Shell
