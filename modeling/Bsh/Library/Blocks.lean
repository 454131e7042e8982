import Mathlib.Data.List.Basic
import Mathlib.Logic.Equiv.Basic

/-!
# Blocks of memory with one owner each

A store of blocks that are allocated, written, copied and freed.  Reading or writing outside of a
block, or in one that has been freed, gives `none`.  Slots own the blocks: every block is known to
exactly one slot, and begins with the text that the slot is said to hold.
-/

namespace Bsh.Library

open List

/-- Blocks by number; a cell is `none` before anything is written to it. -/
structure Blocks (α : Type*) where
  block : ℕ → Option (List (Option α))
  fresh : ℕ

namespace Blocks

variable {α σ : Type*}

def empty (α : Type*) : Blocks α := ⟨fun _ ↦ none, 0⟩

/-- `malloc`: the store with the new block, whose number was `fresh`. -/
def alloc (b : Blocks α) (size : ℕ) : Blocks α :=
  ⟨Function.update b.block b.fresh (some (List.replicate size none)), b.fresh + 1⟩

/-- `free`, which takes NULL too. -/
def free (b : Blocks α) : Option ℕ → Option (Blocks α)
  | none => some b
  | some p => (b.block p).map fun _ ↦ ⟨Function.update b.block p none, b.fresh⟩

/-- `memcpy` into a block. -/
def write (b : Blocks α) (p off : ℕ) (text : List α) : Option (Blocks α) :=
  (b.block p).bind fun cells ↦
    if off + text.length ≤ cells.length then
      some { b with block := Function.update b.block p (some
        (cells.take off ++ text.map some ++ cells.drop (off + text.length))) }
    else none

/-- The first cells of a block; what has not been written reads as `junk`. -/
def read (junk : α) (b : Blocks α) (p len : ℕ) : Option (List α) :=
  (b.block p).bind fun cells ↦
    if len ≤ cells.length then some ((cells.take len).map (·.getD junk)) else none

/-- `realloc` of a block, which always moves it: the store with the new block, whose number was
`fresh`. -/
def realloc (b : Blocks α) (p size : ℕ) : Option (Blocks α) :=
  (b.block p).map fun cells ↦
    ⟨Function.update (Function.update b.block p none) b.fresh
      (some (cells.take size ++ List.replicate (size - cells.length) none)), b.fresh + 1⟩

/-- The block has so many cells and begins with the text. -/
def Holds (b : Blocks α) (p size : ℕ) (text : List α) : Prop :=
  ∃ rest, b.block p = some (text.map some ++ rest) ∧ text.length + rest.length = size

/-- Every block is owned by exactly one slot, and begins with the slot's text. -/
structure Owned (b : Blocks α) (owner : σ → Option ℕ) (text : σ → Option (List α)) : Prop where
  unique : ∀ {s t p}, owner s = some p → owner t = some p → s = t
  covered : ∀ {p}, (b.block p).isSome → ∃ s, owner s = some p
  bound : ∀ {p}, (b.block p).isSome → p < b.fresh
  null : ∀ {s}, owner s = none → text s = none
  holds : ∀ {s p}, owner s = some p → ∃ xs size, text s = some xs ∧ b.Holds p size xs

theorem owned_empty : (empty α).Owned (fun _ : σ ↦ none) fun _ ↦ none :=
  ⟨nofun, nofun, nofun, fun _ ↦ rfl, nofun⟩

/-! ## Single operations -/

variable {b : Blocks α} {p size : ℕ} {xs ys : List α}

theorem alloc_holds (b : Blocks α) (size : ℕ) : (b.alloc size).Holds b.fresh size [] :=
  ⟨List.replicate size none, Function.update_self _ _ _, by simp⟩

theorem Holds.append (h : b.Holds p size xs) (ys : List α)
    (hroom : xs.length + ys.length ≤ size) :
    ∃ b', b.write p xs.length ys = some b' ∧ b'.Holds p size (xs ++ ys) ∧
      b'.fresh = b.fresh ∧ ∀ q, q ≠ p → b'.block q = b.block q := by
  obtain ⟨rest, hblock, hsize⟩ := h
  have hfits : xs.length + ys.length ≤ (xs.map some ++ rest).length := by
    rw [length_append, length_map]
    omega
  have hwrite : b.write p xs.length ys = some ⟨Function.update b.block p (some
      ((xs.map some ++ rest).take xs.length ++ ys.map some ++
        (xs.map some ++ rest).drop (xs.length + ys.length))), b.fresh⟩ := by
    rw [write, hblock, Option.bind_some, if_pos hfits]
  refine ⟨_, hwrite, ⟨rest.drop ys.length, ?_, ?_⟩, rfl,
    fun q hq ↦ Function.update_of_ne hq _ _⟩
  · have hlength : (xs.map some).length = xs.length := length_map _
    refine (Function.update_self _ _ _).trans (congrArg some ?_)
    rw [map_append, drop_append, ← hlength, take_left,
      drop_eq_nil_of_le (Nat.le_add_right _ _), Nat.add_sub_cancel_left, nil_append]
  · rw [length_append, length_drop]
    omega

theorem Holds.read (h : b.Holds p size xs) (junk : α) : b.read junk p xs.length = some xs := by
  obtain ⟨rest, hblock, _⟩ := h
  have hlength : (xs.map some).length = xs.length := length_map _
  have hfits : xs.length ≤ (xs.map some ++ rest).length := by
    rw [length_append, length_map]
    omega
  rw [Blocks.read, hblock, Option.bind_some, if_pos hfits, ← hlength, take_left,
    map_map]
  exact congrArg some ((map_congr_left fun x _ ↦ rfl).trans (map_id xs))

theorem Holds.of_block_eq {b' : Blocks α} {q : ℕ} (h : b.Holds p size xs)
    (heq : b'.block q = b.block p) : b'.Holds q size xs := by
  obtain ⟨rest, hblock, hsize⟩ := h
  exact ⟨rest, heq.trans hblock, hsize⟩

theorem Holds.front (h : b.Holds p size (xs ++ ys)) : b.Holds p size xs := by
  obtain ⟨rest, hblock, hsize⟩ := h
  refine ⟨ys.map some ++ rest, ?_, ?_⟩
  · rw [hblock, map_append, append_assoc]
  · rw [length_append, length_map, ← hsize, length_append, Nat.add_assoc]

theorem Holds.isSome (h : b.Holds p size xs) : (b.block p).isSome := by
  obtain ⟨rest, hblock, _⟩ := h
  rw [hblock]
  rfl

theorem Holds.realloc (h : b.Holds p size xs) (size' : ℕ) (hroom : xs.length ≤ size')
    (hbound : p < b.fresh) :
    ∃ b', b.realloc p size' = some b' ∧ b'.Holds b.fresh size' xs ∧ b'.fresh = b.fresh + 1 ∧
      b'.block p = none ∧ ∀ q, q ≠ p → q ≠ b.fresh → b'.block q = b.block q := by
  obtain ⟨rest, hblock, hsize⟩ := h
  have hlength : (xs.map some).length = xs.length := length_map _
  have hmove : b.realloc p size' = some ⟨Function.update (Function.update b.block p none) b.fresh
      (some ((xs.map some ++ rest).take size' ++
        List.replicate (size' - (xs.map some ++ rest).length) none)), b.fresh + 1⟩ := by
    rw [Blocks.realloc, hblock]
    rfl
  refine ⟨_, hmove, ⟨rest.take (size' - xs.length) ++
    List.replicate (size' - (xs.length + rest.length)) none, ?_, ?_⟩, rfl, ?_, ?_⟩
  · refine (Function.update_self _ _ _).trans (congrArg some ?_)
    rw [take_append, hlength, take_of_length_le (Nat.le_trans (Nat.le_of_eq hlength) hroom),
      length_append, hlength, append_assoc]
  · rw [length_append, length_take, List.length_replicate]
    omega
  · exact (Function.update_of_ne (Nat.ne_of_lt hbound) _ _).trans (Function.update_self _ _ _)
  · intro q hq hfresh
    exact (Function.update_of_ne hfresh _ _).trans (Function.update_of_ne hq _ _)

/-! ## Owners -/

section Owners

variable {owner : σ → Option ℕ} {text : σ → Option (List α)}

theorem Owned.reindex (h : b.Owned owner text) (e : Equiv σ σ) :
    b.Owned (owner ∘ e) (text ∘ e) where
  unique hs ht := e.injective (h.unique hs ht)
  covered hq := by
    obtain ⟨t, ht⟩ := h.covered hq
    exact ⟨e.symm t, by rwa [Function.comp, Equiv.apply_symm_apply]⟩
  bound := h.bound
  null := h.null
  holds := h.holds

theorem Owned.fresh_block (h : b.Owned owner text) : b.block b.fresh = none := by
  cases hb : b.block b.fresh with
  | none => rfl
  | some cells => exact absurd (h.bound (by rw [hb]; rfl)) (Nat.lt_irrefl _)

variable [DecidableEq σ]

theorem Owned.drop {s : σ} (h : b.Owned owner text) (hs : owner s = some p) :
    (Blocks.mk (Function.update b.block p none) b.fresh).Owned (Function.update owner s none)
      (Function.update text s none) := by
  have hother : ∀ {t q}, Function.update owner s none t = some q →
      t ≠ s ∧ owner t = some q ∧ q ≠ p := by
    intro t q ht
    have hts : t ≠ s := by
      rintro rfl
      rw [Function.update_self] at ht
      exact nomatch ht
    rw [Function.update_of_ne hts] at ht
    exact ⟨hts, ht, fun hqp ↦ hts (h.unique ht (hqp ▸ hs))⟩
  have hlive : ∀ {q}, (Function.update b.block p none q).isSome →
      q ≠ p ∧ (b.block q).isSome := by
    intro q hq
    have hqp : q ≠ p := by
      rintro rfl
      rw [Function.update_self] at hq
      exact nomatch hq
    rw [Function.update_of_ne hqp] at hq
    exact ⟨hqp, hq⟩
  constructor
  · intro t u q ht hu
    exact h.unique (hother ht).2.1 (hother hu).2.1
  · intro q hq
    obtain ⟨hqp, hq⟩ := hlive hq
    obtain ⟨t, ht⟩ := h.covered hq
    refine ⟨t, ?_⟩
    rwa [Function.update_of_ne]
    rintro rfl
    exact hqp (Option.some.inj (ht.symm.trans hs))
  · intro q hq
    exact h.bound (hlive hq).2
  · intro t ht
    by_cases hts : t = s
    · rw [hts, Function.update_self]
    · rw [Function.update_of_ne hts] at ht ⊢
      exact h.null ht
  · intro t q ht
    obtain ⟨hts, ht, hqp⟩ := hother ht
    obtain ⟨ys, size', htext', hholds'⟩ := h.holds ht
    refine ⟨ys, size', ?_, hholds'.of_block_eq (Function.update_of_ne hqp _ _)⟩
    rwa [Function.update_of_ne hts]

theorem Owned.free (h : b.Owned owner text) (s : σ) :
    ∃ b', b.free (owner s) = some b' ∧
      b'.Owned (Function.update owner s none) (Function.update text s none) := by
  cases hs : owner s with
  | none =>
    refine ⟨b, rfl, ?_⟩
    rw [← hs, Function.update_eq_self, ← h.null hs, Function.update_eq_self]
    exact h
  | some p =>
    obtain ⟨xs, size, _, rest, hblock, _⟩ := h.holds hs
    exact ⟨_, by rw [Blocks.free, hblock]; rfl, h.drop hs⟩

/-- A slot gets a block that nobody owns; every other block is as it was. -/
theorem Owned.take {b' : Blocks α} {s : σ} (h : b.Owned owner text) (hs : owner s = none)
    (hholds : b'.Holds p size xs) (hnew : b.block p = none) (hbound : p < b'.fresh)
    (hfresh : b.fresh ≤ b'.fresh) (hother : ∀ q, q ≠ p → b'.block q = b.block q) :
    b'.Owned (Function.update owner s (some p)) (Function.update text s (some xs)) := by
  have howner : ∀ {t q}, owner t = some q → t ≠ s ∧ q ≠ p := by
    intro t q ht
    constructor
    · rintro rfl
      exact absurd (ht.symm.trans hs) (Option.some_ne_none q)
    rintro rfl
    obtain ⟨ys, size', _, hblock⟩ := h.holds ht
    have hsome := hblock.isSome
    rw [hnew] at hsome
    exact nomatch hsome
  have hcases : ∀ {t q}, Function.update owner s (some p) t = some q →
      t = s ∧ q = p ∨ owner t = some q := by
    intro t q ht
    by_cases hts : t = s
    · rw [hts, Function.update_self] at ht
      exact .inl ⟨hts, (Option.some.inj ht).symm⟩
    · rw [Function.update_of_ne hts] at ht
      exact .inr ht
  constructor
  · intro t u q ht hu
    rcases hcases ht with ⟨hts, hqt⟩ | ht' <;> rcases hcases hu with ⟨hus, hqu⟩ | hu'
    · rw [hts, hus]
    · exact absurd hqt (howner hu').2
    · exact absurd hqu (howner ht').2
    · exact h.unique ht' hu'
  · intro q hq
    by_cases hqp : q = p
    · exact ⟨s, by rw [Function.update_self, hqp]⟩
    · rw [hother q hqp] at hq
      obtain ⟨t, ht⟩ := h.covered hq
      exact ⟨t, by rwa [Function.update_of_ne (howner ht).1]⟩
  · intro q hq
    by_cases hqp : q = p
    · exact hqp ▸ hbound
    · rw [hother q hqp] at hq
      exact Nat.lt_of_lt_of_le (h.bound hq) hfresh
  · intro t ht
    by_cases hts : t = s
    · rw [hts, Function.update_self] at ht
      exact nomatch ht
    · rw [Function.update_of_ne hts] at ht ⊢
      exact h.null ht
  · intro t q ht
    rcases hcases ht with ⟨rfl, rfl⟩ | ht
    · exact ⟨xs, size, Function.update_self _ _ _, hholds⟩
    · obtain ⟨ys, size', htext, hblock⟩ := h.holds ht
      refine ⟨ys, size', ?_, hblock.of_block_eq (hother q (howner ht).2)⟩
      rwa [Function.update_of_ne (howner ht).1]

theorem Owned.replace {b' : Blocks α} {s : σ} (h : b.Owned owner text) (hs : owner s = some p)
    (hholds : b'.Holds b.fresh size xs) (hfresh : b'.fresh = b.fresh + 1)
    (hgone : b'.block p = none)
    (hother : ∀ q, q ≠ p → q ≠ b.fresh → b'.block q = b.block q) :
    b'.Owned (Function.update owner s (some b.fresh)) (Function.update text s (some xs)) := by
  have hp : p ≠ b.fresh := by
    rintro rfl
    obtain ⟨ys, size', _, hblock⟩ := h.holds hs
    have hsome := hblock.isSome
    rw [h.fresh_block] at hsome
    exact nomatch hsome
  have hnew : (Blocks.mk (Function.update b.block p none) b.fresh).block b.fresh = none :=
    (Function.update_of_ne hp.symm _ _).trans h.fresh_block
  have hnone : Function.update owner s none s = none := Function.update_self _ _ _
  have hsame : ∀ q, q ≠ b.fresh →
      b'.block q = (Blocks.mk (Function.update b.block p none) b.fresh).block q := by
    intro q hq
    by_cases hqp : q = p
    · rw [hqp, hgone]
      exact (Function.update_self p none b.block).symm
    · rw [hother q hqp hq]
      exact (Function.update_of_ne hqp none b.block).symm
  have hbound : b.fresh < b'.fresh := hfresh ▸ Nat.lt_succ_self _
  have htake := (h.drop hs).take hnone hholds hnew hbound (Nat.le_of_lt hbound) hsame
  rwa [Function.update_idem, Function.update_idem] at htake

end Owners

end Blocks

end Bsh.Library
