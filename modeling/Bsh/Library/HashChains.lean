import Mathlib.Data.List.Nodup
import Mathlib.Logic.Function.Basic

/-!
# Hash tables with chains

A table has a list of nodes for every hash value.  Nodes with the same key replace each other; what
`same` and `hash` say about nodes is given from outside, so that it may change while nodes are in a
table.
-/

namespace Bsh.Library

open List

/-- When nodes have the same key, and where they belong. -/
structure Hashing (α : Type*) where
  hash : α → ℕ
  same : α → α → Bool
  same_refl : ∀ x, same x x = true
  same_symm : ∀ x y, same x y = true → same y x = true
  same_trans : ∀ x y z, same x y = true → same y z = true → same x z = true
  hash_eq : ∀ x y, same x y = true → hash x = hash y

structure HashChains (α : Type*) where
  hsize : ℕ
  nodes : ℕ → List α
  ct : ℕ

namespace HashChains

variable {α : Type*}

def empty (hsize : ℕ) : HashChains α := ⟨hsize, fun _ ↦ [], 0⟩

/-- The list of a node. -/
def chain (h : Hashing α) (t : HashChains α) (x : α) : List α := t.nodes (h.hash x % t.hsize)

/-- A node takes the place of the first one that `p` holds of. -/
def replaceFirst (p : α → Bool) (x : α) : List α → List α
  | [] => []
  | y :: l => if p y then x :: l else y :: replaceFirst p x l

/-- The table with another list for a node, of `ct` nodes now. -/
def setChain (h : Hashing α) (t : HashChains α) (x : α) (l : List α) (ct : ℕ) : HashChains α :=
  ⟨t.hsize, Function.update t.nodes (h.hash x % t.hsize) l, ct⟩

/-- Add a node; the one that it replaces is returned. -/
def add (h : Hashing α) (t : HashChains α) (x : α) : HashChains α × Option α :=
  match (t.chain h x).find? (h.same · x) with
  | some old => (t.setChain h x (replaceFirst (h.same · x) x (t.chain h x)) t.ct, some old)
  | none => (t.setChain h x (x :: t.chain h x) (t.ct + 1), none)

/-- Take out the first node with the key of `x`. -/
def remove (h : Hashing α) (t : HashChains α) (x : α) : HashChains α :=
  if (t.chain h x).any (h.same · x) then
    t.setChain h x ((t.chain h x).eraseP (h.same · x)) (t.ct - 1)
  else t

/-- All nodes, chain after chain. -/
def all (t : HashChains α) : List α := (List.range t.hsize).flatMap t.nodes

/-- The table holds exactly the nodes of `S`, each of them once, and no two of one key. -/
structure Holds (h : Hashing α) (t : HashChains α) (S : α → Prop) : Prop where
  size_pos : 0 < t.hsize
  mem_iff : ∀ i x, x ∈ t.nodes i ↔ S x ∧ i = h.hash x % t.hsize
  nodup : ∀ i, (t.nodes i).Nodup
  unique : ∀ x y, S x → S y → h.same x y = true → x = y

variable {h : Hashing α} {t : HashChains α} {S : α → Prop}

theorem holds_empty (h : Hashing α) {hsize : ℕ} (hpos : 0 < hsize) :
    (empty hsize : HashChains α).Holds h fun _ ↦ False :=
  ⟨hpos, fun _ _ ↦ ⟨fun hmem ↦ absurd hmem not_mem_nil, fun hfalse ↦ hfalse.1.elim⟩,
    fun _ ↦ nodup_nil, fun _ _ hfalse ↦ hfalse.elim⟩

variable {l : List α} {x y : α}

theorem Holds.mem_chain (ht : t.Holds h S) (hxy : h.same y x = true) :
    y ∈ t.chain h x ↔ S y := by
  unfold chain
  rw [ht.mem_iff, h.hash_eq y x hxy]
  exact and_iff_left rfl

theorem Holds.find_none (ht : t.Holds h S) (hx : ∀ y, S y → h.same y x = false) :
    (t.chain h x).find? (h.same · x) = none := by
  rw [List.find?_eq_none]
  intro y hy hsame
  rw [hx y ((ht.mem_chain hsame).mp hy)] at hsame
  exact Bool.false_ne_true hsame

theorem Holds.find_some (ht : t.Holds h S) (hy : S y) (hxy : h.same y x = true) :
    (t.chain h x).find? (h.same · x) = some y := by
  cases hfind : (t.chain h x).find? (h.same · x) with
  | none =>
    rw [List.find?_eq_none] at hfind
    exact absurd hxy (hfind y ((ht.mem_chain hxy).mpr hy))
  | some z =>
    have hzx := List.find?_some hfind
    have hz := (ht.mem_chain hzx).mp (mem_of_find?_eq_some hfind)
    have hzy := h.same_trans z x y hzx (h.same_symm y x hxy)
    rw [ht.unique z y hz hy hzy]

/-- A change of one chain is a change of what the table holds. -/
theorem Holds.setChain (ht : t.Holds h S) {S' : α → Prop} (ct : ℕ)
    (hl : ∀ y, y ∈ l ↔ S' y ∧ h.hash y % t.hsize = h.hash x % t.hsize) (hnodup : l.Nodup)
    (hother : ∀ y, h.hash y % t.hsize ≠ h.hash x % t.hsize → (S' y ↔ S y))
    (hunique : ∀ y z, S' y → S' z → h.same y z = true → y = z) :
    (t.setChain h x l ct).Holds h S' := by
  refine ⟨ht.size_pos, fun i y ↦ ?_, fun i ↦ ?_, hunique⟩
  · by_cases hi : i = h.hash x % t.hsize
    · subst hi
      change y ∈ Function.update t.nodes _ l _ ↔ _ ∧ _ = h.hash y % t.hsize
      rw [Function.update_self, hl y, eq_comm]
    · change y ∈ Function.update t.nodes _ l i ↔ _ ∧ i = h.hash y % t.hsize
      rw [Function.update_of_ne hi, ht.mem_iff]
      constructor
      · rintro ⟨hy, rfl⟩
        exact ⟨(hother y hi).mpr hy, rfl⟩
      · rintro ⟨hy, rfl⟩
        exact ⟨(hother y hi).mp hy, rfl⟩
  · by_cases hi : i = h.hash x % t.hsize
    · subst hi
      change (Function.update t.nodes _ l _).Nodup
      rwa [Function.update_self]
    · change (Function.update t.nodes _ l i).Nodup
      rw [Function.update_of_ne hi]
      exact ht.nodup i

theorem Holds.nodup_chain (ht : t.Holds h S) (x : α) : (t.chain h x).Nodup := ht.nodup _

theorem Holds.mem_chain_iff (ht : t.Holds h S) (x y : α) :
    y ∈ t.chain h x ↔ S y ∧ h.hash y % t.hsize = h.hash x % t.hsize := by
  unfold chain
  rw [ht.mem_iff, eq_comm]

theorem Holds.add_new (ht : t.Holds h S) (hx : ∀ y, S y → h.same y x = false) :
    (t.add h x).2 = none ∧ (t.add h x).1.Holds h fun z ↦ S z ∨ z = x := by
  have hnot : ¬ S x := by
    intro hS
    have hrefl := h.same_refl x
    rw [hx x hS] at hrefl
    exact Bool.false_ne_true hrefl
  unfold add
  rw [ht.find_none hx]
  refine ⟨rfl, ht.setChain _ (fun y ↦ ?_) ?_ (fun y hy ↦ ?_) ?_⟩
  · rw [mem_cons, ht.mem_chain_iff]
    constructor
    · rintro (rfl | ⟨hy, hhash⟩)
      · exact ⟨Or.inr rfl, rfl⟩
      · exact ⟨Or.inl hy, hhash⟩
    · rintro ⟨hy | rfl, hhash⟩
      · exact Or.inr ⟨hy, hhash⟩
      · exact Or.inl rfl
  · exact List.nodup_cons.mpr ⟨fun hmem ↦ hnot ((ht.mem_chain_iff x x).mp hmem).1, ht.nodup_chain x⟩
  · refine ⟨fun h' ↦ h'.resolve_right ?_, Or.inl⟩
    rintro rfl
    exact hy rfl
  · rintro y z (hy | rfl) (hz | rfl) hsame
    · exact ht.unique y z hy hz hsame
    · rw [hx y hy] at hsame
      cases hsame
    · have hsymm := h.same_symm _ _ hsame
      rw [hx z hz] at hsymm
      cases hsymm
    · rfl

theorem mem_replaceFirst {p : α → Bool} (hnodup : l.Nodup)
    (hfind : l.find? p = some y) (z : α) :
    z ∈ replaceFirst p x l ↔ (z ∈ l ∧ z ≠ y) ∨ z = x := by
  induction l with
  | nil => cases hfind
  | cons a l ih =>
    obtain ⟨ha, hnodup⟩ := List.nodup_cons.mp hnodup
    rw [replaceFirst]
    by_cases hp : p a = true
    · rw [List.find?_cons_of_pos hp] at hfind
      cases hfind
      rw [if_pos hp]
      constructor
      · intro hz
        rcases List.mem_cons.mp hz with rfl | hz
        · exact Or.inr rfl
        · refine Or.inl ⟨mem_cons_of_mem _ hz, ?_⟩
          rintro rfl
          exact ha hz
      · rintro (⟨hz, hne⟩ | rfl)
        · exact mem_cons_of_mem x ((List.mem_cons.mp hz).resolve_left hne)
        · exact mem_cons_self
    · rw [List.find?_cons_of_neg hp] at hfind
      have hya : y ≠ a := by
        rintro rfl
        exact ha (mem_of_find?_eq_some hfind)
      rw [if_neg hp, mem_cons, ih hnodup hfind, mem_cons]
      constructor
      · rintro (rfl | ⟨hz, hne⟩ | rfl)
        · exact Or.inl ⟨Or.inl rfl, Ne.symm hya⟩
        · exact Or.inl ⟨Or.inr hz, hne⟩
        · exact Or.inr rfl
      · rintro (⟨rfl | hz, hne⟩ | rfl)
        · exact Or.inl rfl
        · exact Or.inr (Or.inl ⟨hz, hne⟩)
        · exact Or.inr (Or.inr rfl)

theorem mem_of_mem_replaceFirst {p : α → Bool} {z : α}
    (h : z ∈ replaceFirst p x l) : z ∈ l ∨ z = x := by
  induction l with
  | nil => cases h
  | cons a l ih =>
    rw [replaceFirst] at h
    split at h
    · rcases List.mem_cons.mp h with rfl | h
      · exact Or.inr rfl
      · exact Or.inl (mem_cons_of_mem a h)
    · rcases List.mem_cons.mp h with rfl | h
      · exact Or.inl mem_cons_self
      · exact (ih h).imp (mem_cons_of_mem a) id

theorem nodup_replaceFirst {p : α → Bool} (hnodup : l.Nodup) (hx : x ∉ l) :
    (replaceFirst p x l).Nodup := by
  induction l with
  | nil => exact nodup_nil
  | cons a l ih =>
    obtain ⟨ha, hnodup⟩ := List.nodup_cons.mp hnodup
    rw [mem_cons, not_or] at hx
    rw [replaceFirst]
    split
    · exact List.nodup_cons.mpr ⟨hx.2, hnodup⟩
    · refine List.nodup_cons.mpr ⟨fun hmem ↦ ?_, ih hnodup hx.2⟩
      rcases mem_of_mem_replaceFirst hmem with hal | rfl
      · exact ha hal
      · exact hx.1 rfl

/-- A node whose key another one has takes its place. -/
theorem Holds.add_same (ht : t.Holds h S) (hx : ¬ S x) (hy : S y)
    (hyx : h.same y x = true) :
    (t.add h x).2 = some y ∧ (t.add h x).1.Holds h fun z ↦ (S z ∧ z ≠ y) ∨ z = x := by
  have hfind := ht.find_some hy hyx
  have hxchain : x ∉ t.chain h x := fun hmem ↦ hx ((ht.mem_chain_iff x x).mp hmem).1
  unfold add
  rw [hfind]
  refine ⟨rfl, ht.setChain _ (fun z ↦ ?_) (nodup_replaceFirst (ht.nodup_chain x) hxchain)
    (fun z hz ↦ ?_) ?_⟩
  · rw [mem_replaceFirst (ht.nodup_chain x) hfind, ht.mem_chain_iff]
    constructor
    · rintro (⟨⟨hz, hhash⟩, hne⟩ | rfl)
      · exact ⟨Or.inl ⟨hz, hne⟩, hhash⟩
      · exact ⟨Or.inr rfl, rfl⟩
    · rintro ⟨⟨hz, hne⟩ | rfl, hhash⟩
      · exact Or.inl ⟨⟨hz, hhash⟩, hne⟩
      · exact Or.inr rfl
  · constructor
    · rintro (⟨hS, -⟩ | rfl)
      · exact hS
      · exact absurd rfl hz
    · intro hS
      refine Or.inl ⟨hS, ?_⟩
      rintro rfl
      exact hz (by rw [h.hash_eq z x hyx])
  · rintro z w (⟨hz, hzy⟩ | rfl) (⟨hw, hwy⟩ | rfl) hsame
    · exact ht.unique z w hz hw hsame
    · exact absurd (ht.unique z y hz hy (h.same_trans _ _ _ hsame (h.same_symm _ _ hyx))) hzy
    · exact absurd (ht.unique w y hw hy
        (h.same_symm _ _ (h.same_trans _ _ _ hyx hsame))) hwy
    · rfl

theorem mem_eraseP {p : α → Bool} (hnodup : l.Nodup)
    (hfind : l.find? p = some y) (z : α) : z ∈ l.eraseP p ↔ z ∈ l ∧ z ≠ y := by
  induction l with
  | nil => cases hfind
  | cons a l ih =>
    obtain ⟨ha, hnodup⟩ := List.nodup_cons.mp hnodup
    by_cases hp : p a = true
    · rw [List.find?_cons_of_pos hp] at hfind
      cases hfind
      rw [eraseP_cons_of_pos hp]
      constructor
      · intro hz
        refine ⟨mem_cons_of_mem _ hz, ?_⟩
        rintro rfl
        exact ha hz
      · rintro ⟨hz, hne⟩
        exact (List.mem_cons.mp hz).resolve_left hne
    · rw [List.find?_cons_of_neg hp] at hfind
      have hay : a ≠ y := by
        rintro rfl
        exact ha (mem_of_find?_eq_some hfind)
      rw [eraseP_cons_of_neg hp, mem_cons, ih hnodup hfind, mem_cons]
      constructor
      · rintro (rfl | ⟨hz, hne⟩)
        · exact ⟨Or.inl rfl, hay⟩
        · exact ⟨Or.inr hz, hne⟩
      · rintro ⟨rfl | hz, hne⟩
        · exact Or.inl rfl
        · exact Or.inr ⟨hz, hne⟩

theorem Holds.remove (ht : t.Holds h S) (hx : S x) :
    (t.remove h x).Holds h fun z ↦ S z ∧ z ≠ x := by
  have hrefl := h.same_refl x
  have hfind := ht.find_some hx hrefl
  have hany : ((t.chain h x).any fun y ↦ h.same y x) = true :=
    List.any_eq_true.mpr ⟨x, mem_of_find?_eq_some hfind, hrefl⟩
  unfold HashChains.remove
  rw [if_pos hany]
  refine ht.setChain _ (fun z ↦ ?_) ((ht.nodup_chain x).sublist eraseP_sublist)
    (fun z hz ↦ ?_) ?_
  · rw [mem_eraseP (ht.nodup_chain x) hfind, ht.mem_chain_iff]
    exact and_right_comm
  · refine ⟨And.left, fun hS ↦ ⟨hS, ?_⟩⟩
    rintro rfl
    exact hz rfl
  · exact fun z w hz hw ↦ ht.unique z w hz.1 hw.1

/-- Only what is said about the nodes of the table matters. -/
theorem Holds.congr {h' : Hashing α} (ht : t.Holds h S) (hhash : ∀ x, S x → h'.hash x = h.hash x)
    (hsame : ∀ x y, S x → S y → h'.same x y = true → h.same x y = true) : t.Holds h' S := by
  refine ⟨ht.size_pos, fun i x ↦ ?_, ht.nodup, fun x y hx hy hxy ↦ ?_⟩
  · rw [ht.mem_iff]
    refine and_congr_right fun hx ↦ ?_
    rw [hhash x hx]
  · exact ht.unique x y hx hy (hsame x y hx hy hxy)

theorem Holds.iff {S' : α → Prop} (ht : t.Holds h S) (hS : ∀ x, S x ↔ S' x) : t.Holds h S' := by
  obtain rfl : S = S' := funext fun x ↦ propext (hS x)
  exact ht

theorem Holds.mem_all (ht : t.Holds h S) (x : α) : x ∈ t.all ↔ S x := by
  unfold all
  rw [mem_flatMap]
  constructor
  · rintro ⟨i, -, hx⟩
    exact ((ht.mem_iff i x).mp hx).1
  · intro hx
    exact ⟨_, List.mem_range.mpr (Nat.mod_lt _ ht.size_pos), (ht.mem_iff _ x).mpr ⟨hx, rfl⟩⟩

theorem Holds.nodup_all (ht : t.Holds h S) : t.all.Nodup := by
  unfold all
  rw [nodup_flatMap]
  refine ⟨fun i _ ↦ ht.nodup i, ?_⟩
  refine List.Nodup.pairwise_of_forall_ne nodup_range fun i _ j _ hij x hi hj ↦ ?_
  exact hij (((ht.mem_iff i x).mp hi).2.trans ((ht.mem_iff j x).mp hj).2.symm)

end HashChains

end Bsh.Library
