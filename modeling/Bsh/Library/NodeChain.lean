import Bsh.Library.Linked

/-!
# Doubly linked nodes in memory

`chain` lists the addresses of a run of nodes with what each of them holds, between a node in front
and one behind; `Stores` says that a memory holds them.  A run is taken apart with `chain_append`, and
what is not written stays by `Stores.frame`.
-/

namespace Bsh.Library

open List

variable {α δ ν : Type*}

/-- A node of a doubly linked list. -/
structure Node (α δ : Type*) where
  next : Option α
  prev : Option α
  dat : δ

/-- The memory holds these values at these addresses. -/
def Stores (mem : α → Option ν) (cs : List (α × ν)) : Prop := ∀ c ∈ cs, mem c.1 = some c.2

namespace Stores

variable {mem mem' : α → Option ν} {cs ds : List (α × ν)}

theorem append_iff : Stores mem (cs ++ ds) ↔ Stores mem cs ∧ Stores mem ds := by
  unfold Stores
  rw [forall_mem_append]

theorem frame (h : Stores mem cs) (hsame : ∀ x ∈ cs.map Prod.fst, mem' x = mem x) :
    Stores mem' cs :=
  fun c hc ↦ (hsame c.1 (mem_map_of_mem hc)).trans (h c hc)

end Stores

/-- The nodes of a list, between what stands before the first and behind the last. -/
def chain : Option α → List (α × δ) → Option α → List (α × Node α δ)
  | _, [], _ => []
  | before, (a, d) :: l, behind => (a, ⟨firstOr l behind, before, d⟩) :: chain (some a) l behind

@[simp]
theorem lastOr_nil (before : Option α) : lastOr ([] : List (α × δ)) before = before := rfl

theorem lastOr_cons (a : α) (d : δ) (l : List (α × δ)) (before : Option α) :
    lastOr ((a, d) :: l) before = lastOr l (some a) := by
  rw [lastOr, lastOr, List.getLast?_cons]
  cases l.getLast? <;> rfl

theorem lastOr_append (l m : List (α × δ)) (before : Option α) :
    lastOr (l ++ m) before = lastOr m (lastOr l before) := by
  rw [lastOr, lastOr, lastOr, List.getLast?_append, Option.map_or, Option.or_assoc]

theorem chain_append (before behind : Option α) (l m : List (α × δ)) :
    chain before (l ++ m) behind =
      chain before l (firstOr m behind) ++ chain (lastOr l before) m behind := by
  induction l generalizing before with
  | nil => rfl
  | cons x l ih =>
    rw [cons_append, chain, chain, ih, firstOr_append, lastOr_cons, cons_append]

theorem map_fst_chain (before behind : Option α) (l : List (α × δ)) :
    (chain before l behind).map Prod.fst = l.map Prod.fst := by
  induction l generalizing before with
  | nil => rfl
  | cons x l ih => rw [chain, map_cons, ih, map_cons]

/-! ## Memory that is written -/

/-- The memory holds these values, each at an address of its own. -/
def Owns (mem : α → Option ν) (cs : List (α × ν)) : Prop := (cs.map Prod.fst).Nodup ∧ Stores mem cs

namespace Owns

variable {mem : α → Option ν} {A B C D : List (α × ν)}

theorem perm (h : Owns mem A) (hperm : A.Perm B) : Owns mem B :=
  ⟨(hperm.map Prod.fst).nodup_iff.mp h.1, fun c hc ↦ h.2 c (hperm.mem_iff.mpr hc)⟩

theorem swap (h : Owns mem (A ++ (B ++ C))) : Owns mem (B ++ (A ++ C)) :=
  h.perm (by rw [← append_assoc, ← append_assoc]; exact List.perm_append_comm.append_right C)

theorem rotate (h : Owns mem (A ++ (B ++ (C ++ D)))) : Owns mem (C ++ (A ++ (B ++ D))) := by
  rw [← append_assoc] at h
  rw [← append_assoc A]
  exact h.swap

theorem drop (h : Owns mem (A ++ B)) : Owns mem B := by
  have hnodup := h.1
  rw [map_append] at hnodup
  exact ⟨(List.nodup_append.mp hnodup).2.1, (Stores.append_iff.mp h.2).2⟩

variable [DecidableEq α] {a : α} {n : ν}

theorem write (h : Owns mem ((a, n) :: A)) (n' : ν) :
    Owns (Function.update mem a (some n')) ((a, n') :: A) := by
  obtain ⟨ha, -⟩ := List.nodup_cons.mp h.1
  refine ⟨h.1, fun c hc ↦ ?_⟩
  rcases List.mem_cons.mp hc with rfl | hc
  · exact Function.update_self _ _ _
  · have hne : c.1 ≠ a := ne_of_mem_of_not_mem (mem_map_of_mem hc) ha
    rw [Function.update_of_ne hne]
    exact h.2 c (mem_cons_of_mem _ hc)

theorem erase (h : Owns mem ((a, n) :: A)) : Owns (Function.update mem a none) A := by
  obtain ⟨ha, hnodup⟩ := List.nodup_cons.mp h.1
  refine ⟨hnodup, fun c hc ↦ ?_⟩
  have hne : c.1 ≠ a := ne_of_mem_of_not_mem (mem_map_of_mem hc) ha
  rw [Function.update_of_ne hne]
  exact h.2 c (mem_cons_of_mem _ hc)

end Owns

section Links

variable {mem : α → Option (Node α δ)} {before behind : Option α} {l : List (α × δ)} {a : α} {d : δ}
  {A : List (α × Node α δ)}

theorem Owns.last (h : Owns mem (chain before (l ++ [(a, d)]) behind ++ A)) :
    mem a = some ⟨behind, lastOr l before, d⟩ := by
  rw [chain_append] at h
  exact h.2 (a, _) (by simp [chain])

theorem Owns.head (h : Owns mem (chain before ((a, d) :: l) behind ++ A)) :
    mem a = some ⟨firstOr l behind, before, d⟩ := h.2 (a, _) mem_cons_self

variable [DecidableEq α]

theorem Owns.setNext (h : Owns mem (chain before (l ++ [(a, d)]) behind ++ A)) (v : Option α) :
    Owns (Function.update mem a (some ⟨v, lastOr l before, d⟩))
      (chain before (l ++ [(a, d)]) v ++ A) := by
  rw [chain_append, append_assoc] at h ⊢
  exact (h.swap.write _).swap (A := [_])

theorem Owns.setPrev (h : Owns mem (chain before ((a, d) :: l) behind ++ A)) (v : Option α) :
    Owns (Function.update mem a (some ⟨firstOr l behind, v, d⟩))
      (chain v ((a, d) :: l) behind ++ A) := h.write _

end Links

section Traversals

variable [DecidableEq α] {mem : α → Option (Node α δ)} {stop behind : Option α}

/-- The nodes along one kind of link, up to a stop. -/
def follow (link : α → Option α) (stop : Option α) : ℕ → Option α → List α
  | 0, _ => []
  | turns + 1, p =>
    if p = stop then []
    else match p with
      | none => []
      | some a => a :: follow link stop turns (link a)

theorem follow_stop (link : α → Option α) (turns : ℕ) : follow link stop turns stop = [] := by
  cases turns with
  | zero => rfl
  | succ turns => exact if_pos rfl

theorem follow_next {before : Option α} {l : List (α × δ)} {turns : ℕ}
    (h : Stores mem (chain before l none)) (hturns : l.length ≤ turns) :
    follow (fun a ↦ (mem a).bind Node.next) none turns (firstOr l none) = l.map Prod.fst := by
  induction l generalizing before turns with
  | nil => exact follow_stop _ _
  | cons x l ih =>
    obtain ⟨turns, rfl⟩ := Nat.exists_eq_add_one.mpr (Nat.zero_lt_of_lt hturns)
    have hnode := h _ mem_cons_self
    have hrest := ih (fun c hc ↦ h c (mem_cons_of_mem _ hc)) (Nat.le_of_succ_le_succ hturns)
    rw [firstOr_cons, follow, if_neg (Option.some_ne_none _)]
    rw [hnode, Option.bind_some, hrest, map_cons]

theorem follow_prev {l : List (α × δ)} {turns : ℕ} (h : Stores mem (chain stop l behind))
    (hstop : ∀ x ∈ l, some x.1 ≠ stop) (hturns : l.length ≤ turns) :
    follow (fun a ↦ (mem a).bind Node.prev) stop turns (lastOr l stop) =
      (l.map Prod.fst).reverse := by
  induction l using List.reverseRecOn generalizing behind turns with
  | nil => exact follow_stop _ _
  | append_singleton l x ih =>
    rw [length_append] at hturns
    obtain ⟨turns, rfl⟩ := Nat.exists_eq_add_one.mpr (Nat.zero_lt_of_lt hturns)
    rw [chain_append, Stores.append_iff] at h
    have hnode := h.2 _ mem_cons_self
    have hrest := ih h.1 (fun y hy ↦ hstop y (mem_append_left _ hy))
      (Nat.le_of_succ_le_succ hturns)
    rw [lastOr_concat, follow, if_neg (hstop x (by simp))]
    rw [hnode, Option.bind_some, hrest, map_append, reverse_append]
    rfl

end Traversals

end Bsh.Library
