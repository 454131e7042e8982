import Mathlib.Order.Lattice.Nat

/-!
# The restricted edit distance

One list is turned into another from the front: an element is kept, inserted, deleted or replaced by
another, or two neighbours are exchanged, and nothing is edited twice.  The distance is the least
number of edits.  A common head can always be kept, so that the edits may wait until the heads
differ.
-/

namespace Bsh.Library

namespace EditDistance

variable {α : Type*}

/-- The first list is turned into the second by `n` edits. -/
inductive Edits : List α → List α → ℕ → Prop
  | nil : Edits [] [] 0
  | keep {p s : List α} {n : ℕ} (a : α) (h : Edits p s n) : Edits (a :: p) (a :: s) n
  | replace {p s : List α} {n : ℕ} (a b : α) (h : Edits p s n) : Edits (a :: p) (b :: s) (n + 1)
  | insert {p s : List α} {n : ℕ} (b : α) (h : Edits p s n) : Edits p (b :: s) (n + 1)
  | delete {p s : List α} {n : ℕ} (a : α) (h : Edits p s n) : Edits (a :: p) s (n + 1)
  | exchange {p s : List α} {n : ℕ} (a b : α) (h : Edits p s n) :
    Edits (a :: b :: p) (b :: a :: s) (n + 1)

/-- No more than `N` edits are needed. -/
def Within (N : ℕ) (p s : List α) : Prop := ∃ n ≤ N, Edits p s n

/-- The least number of edits. -/
noncomputable def distance (p s : List α) : ℕ := sInf {n | Edits p s n}

variable {N n : ℕ} {a : α} {p s : List α}

theorem Within.mono {M : ℕ} (h : M ≤ N) (hp : Within M p s) : Within N p s := by
  obtain ⟨n, hn, hedits⟩ := hp
  exact ⟨n, hn.trans h, hedits⟩

/-! ## Heads -/

/-- Without an element of the target one more edit is enough. -/
theorem Edits.tail_target (h : Edits p (a :: s) n) :
    Within (n + 1) p s := by
  generalize ht : a :: s = t at h
  induction h generalizing s with
  | nil => cases ht
  | keep b h _ =>
    cases ht
    exact ⟨_, le_rfl, .delete _ h⟩
  | replace b _ h _ =>
    cases ht
    exact ⟨_, Nat.le_succ _, .delete b h⟩
  | insert _ h _ =>
    cases ht
    exact ⟨_, (Nat.le_succ _).trans (Nat.le_succ _), h⟩
  | delete b _ ih =>
    obtain ⟨m, hm, hedits⟩ := ih ht
    exact ⟨m + 1, Nat.succ_le_succ hm, .delete b hedits⟩
  | exchange b c h _ =>
    cases ht
    exact ⟨_, Nat.le_succ _, .keep b (.delete _ h)⟩

theorem Edits.symm (h : Edits p s n) : Edits s p n := by
  induction h with
  | nil => exact .nil
  | keep a _ ih => exact .keep a ih
  | replace a b _ ih => exact .replace b a ih
  | insert b _ ih => exact .delete b ih
  | delete a _ ih => exact .insert a ih
  | exchange a b _ ih => exact .exchange b a ih

theorem Edits.tail_source (h : Edits (a :: p) s n) :
    Within (n + 1) p s := by
  obtain ⟨m, hm, hedits⟩ := h.symm.tail_target
  exact ⟨m, hm, hedits.symm⟩

theorem within_cons_cons :
    Within N (a :: p) (a :: s) ↔ Within N p s := by
  constructor
  · rintro ⟨n, hn, h⟩
    suffices hless : Within n p s from hless.mono hn
    cases h with
    | keep _ h => exact ⟨_, le_rfl, h⟩
    | replace _ _ h => exact ⟨_, Nat.le_succ _, h⟩
    | insert _ h => exact h.tail_source
    | delete _ h => exact h.tail_target
    | exchange _ _ h => exact ⟨_, Nat.le_succ _, .keep _ h⟩
  · rintro ⟨n, hn, h⟩
    exact ⟨n, hn, .keep a h⟩

/-- The first edit where the heads differ, or the target is exhausted. -/
theorem within_cons_of_ne (hne : ∀ b ∈ s.head?, a ≠ b) :
    Within N (a :: p) s ↔ 0 < N ∧
      ((∃ b s', s = b :: s' ∧ Within (N - 1) (a :: p) s') ∨
        (∃ b s' p', s = b :: a :: s' ∧ p = b :: p' ∧ Within (N - 1) p' s') ∨
        (∃ b s', s = b :: s' ∧ Within (N - 1) p s') ∨ Within (N - 1) p s) := by
  constructor
  · rintro ⟨n, hn, h⟩
    cases h with
    | keep _ h => exact absurd rfl (hne a rfl)
    | replace _ b h => exact ⟨by omega, .inr (.inr (.inl ⟨b, _, rfl, _, by omega, h⟩))⟩
    | insert b h => exact ⟨by omega, .inl ⟨b, _, rfl, _, by omega, h⟩⟩
    | delete _ h => exact ⟨by omega, .inr (.inr (.inr ⟨_, by omega, h⟩))⟩
    | exchange _ b h => exact ⟨by omega, .inr (.inl ⟨b, _, _, rfl, rfl, _, by omega, h⟩)⟩
  · rintro ⟨hpos, ⟨b, s', rfl, n, hn, h⟩ | ⟨b, s', p', rfl, rfl, n, hn, h⟩ | ⟨b, s', rfl, n, hn, h⟩ |
      ⟨n, hn, h⟩⟩
    · exact ⟨n + 1, by omega, .insert b h⟩
    · exact ⟨n + 1, by omega, .exchange a b h⟩
    · exact ⟨n + 1, by omega, .replace a b h⟩
    · exact ⟨n + 1, by omega, .delete a h⟩

/-- All elements of the one list can be deleted and those of the other inserted. -/
theorem edits_length (p s : List α) : Edits p s (p.length + s.length) := by
  induction p with
  | nil =>
    induction s with
    | nil => exact .nil
    | cons b s ih => exact .insert b ih
  | cons a p ih =>
    rw [List.length_cons, Nat.add_right_comm]
    exact .delete a ih

theorem within_nil : Within N [] s ↔ s.length ≤ N := by
  constructor
  · rintro ⟨n, hn, h⟩
    suffices hle : s.length ≤ n from hle.trans hn
    generalize hp : ([] : List α) = p at h
    induction h generalizing N with
    | nil => exact le_rfl
    | insert b _ ih => exact Nat.succ_le_succ (ih (Nat.le_of_succ_le hn) hp)
    | keep _ _ _ => cases hp
    | replace _ _ _ _ => cases hp
    | delete _ _ _ => cases hp
    | exchange _ _ _ _ => cases hp
  · intro hle
    have hedits := edits_length [] s
    rw [List.length_nil, Nat.zero_add] at hedits
    exact ⟨s.length, hle, hedits⟩

theorem within_zero : Within 0 p s ↔ p = s := by
  constructor
  · rintro ⟨n, hn, h⟩
    obtain rfl := Nat.le_zero.mp hn
    generalize hzero : 0 = n at h
    induction h with
    | nil => rfl
    | keep a _ ih => exact congrArg (a :: ·) (ih hzero)
    | replace _ _ _ _ => cases hzero
    | insert _ _ _ => cases hzero
    | delete _ _ _ => cases hzero
    | exchange _ _ _ _ => cases hzero
  · rintro rfl
    refine ⟨0, le_rfl, ?_⟩
    induction p with
    | nil => exact .nil
    | cons a p ih => exact .keep a ih

theorem within_iff : Within N p s ↔ distance p s ≤ N := by
  constructor
  · rintro ⟨n, hn, h⟩
    exact (Nat.sInf_le h).trans hn
  · intro hle
    exact ⟨distance p s, hle, Nat.sInf_mem ⟨_, edits_length p s⟩⟩

end EditDistance

end Bsh.Library
