import Mathlib.Data.Prod.Lex
import Mathlib.Algebra.Order.Group.Int
import Bsh.Library.Comparator

/-!
# Comparisons by several criteria

A comparison by one criterion and then, among the values that tie, by another one.  The second
criterion has to be a preorder only among values that tie.  Lists of parts are compared by the first
part in which they differ.
-/

namespace Bsh.Library

variable {α β κ : Type*}

/-- What a sort relies on among related values. -/
structure PreorderWithin (R : α → α → Prop) (cmp : α → α → ℤ) : Prop where
  refl : ∀ a, cmp a a = 0
  swap : ∀ a b, R a b → (cmp a b < 0 ↔ 0 < cmp b a)
  trans : ∀ a b c, R a b → R b c → cmp a b ≤ 0 → cmp b c ≤ 0 → cmp a c ≤ 0

theorem TotalPreorder.within {cmp : α → α → ℤ} (h : TotalPreorder cmp) (R : α → α → Prop) :
    PreorderWithin R cmp where
  refl := h.refl
  swap a b _ := h.swap a b
  trans a b c _ _ := h.trans a b c

theorem PreorderWithin.total {cmp : α → α → ℤ} (h : PreorderWithin (fun _ _ ↦ True) cmp) :
    TotalPreorder cmp where
  refl := h.refl
  swap a b := h.swap a b trivial
  trans a b c := h.trans a b c trivial trivial

theorem TotalPreorder.flip {cmp : α → α → ℤ} (h : TotalPreorder cmp) :
    TotalPreorder fun a b ↦ cmp b a where
  refl := h.refl
  swap a b := h.swap b a
  trans a b c hba hcb := h.trans c b a hcb hba

theorem totalPreorder_zero : TotalPreorder fun _ _ : α ↦ 0 where
  refl _ := rfl
  swap _ _ := Iff.rfl
  trans _ _ _ _ _ := le_rfl

theorem totalPreorder_sub (f : α → ℤ) : TotalPreorder fun a b ↦ f a - f b where
  refl a := sub_self (f a)
  swap a b := by omega
  trans a b c := by omega

/-! ## Directions -/

/-- The sign of a result, or the opposite one. -/
def directed (desc : Bool) (r : ℤ) : ℤ := if desc then -r.sign else r.sign

theorem directed_eq_zero {desc : Bool} {r : ℤ} : directed desc r = 0 ↔ r = 0 := by
  unfold directed
  split
  · rw [neg_eq_zero, Int.sign_eq_zero_iff_zero]
  · exact Int.sign_eq_zero_iff_zero

theorem sign_neg_iff {r : ℤ} : r.sign < 0 ↔ r < 0 :=
  ⟨Int.neg_of_sign_eq_neg_one ∘ fun h ↦ by
      have := Int.sign_trichotomy r
      omega,
    fun h ↦ by rw [Int.sign_eq_neg_one_of_neg h]; decide⟩

theorem sign_pos_iff {r : ℤ} : 0 < r.sign ↔ 0 < r := Int.sign_pos_iff

theorem PreorderWithin.directed {R : α → α → Prop} {cmp : α → α → ℤ}
    (hR : Equivalence R) (h : PreorderWithin R cmp) (desc : Bool) :
    PreorderWithin R fun a b ↦ directed desc (cmp a b) where
  refl a := directed_eq_zero.mpr (h.refl a)
  swap a b hab := by
    have hswap := h.swap a b hab
    have hswap' := h.swap b a (hR.symm hab)
    have hneg (x y : α) := @sign_neg_iff (cmp x y)
    have hpos (x y : α) := @sign_pos_iff (cmp x y)
    have hneg1 := hneg a b
    have hneg2 := hneg b a
    have hpos1 := hpos a b
    have hpos2 := hpos b a
    unfold Library.directed
    split <;> omega
  trans a b c hab hbc := by
    have hneg (x y : α) := @sign_neg_iff (cmp x y)
    have hpos (x y : α) := @sign_pos_iff (cmp x y)
    have hp1 := hpos a b
    have hp2 := hpos b c
    have hp3 := hpos a c
    have hn1 := hneg a b
    have hn2 := hneg b c
    have hn3 := hneg a c
    have hac := hR.trans hab hbc
    have htrans := h.trans a b c hab hbc
    have htrans' := h.trans c b a (hR.symm hbc) (hR.symm hab)
    have ht1 := h.swap a b hab
    have ht2 := h.swap b c hbc
    have ht3 := h.swap a c hac
    unfold Library.directed
    split <;> omega

/-! ## Ties -/

/-- The second comparison decides where the first one ties. -/
def thenCompare (cmp next : α → α → ℤ) (a b : α) : ℤ :=
  if cmp a b ≠ 0 then cmp a b else next a b

theorem PreorderWithin.then {R : α → α → Prop} {cmp next : α → α → ℤ} (hR : Equivalence R)
    (h : PreorderWithin R cmp) (hnext : PreorderWithin (fun a b ↦ R a b ∧ cmp a b = 0) next) :
    PreorderWithin R (thenCompare cmp next) where
  refl a := by
    rw [thenCompare, if_neg (not_not.mpr (h.refl a))]
    exact hnext.refl a
  swap a b hab := by
    have hswap := h.swap a b hab
    have hswap' := h.swap b a (hR.symm hab)
    unfold thenCompare
    by_cases hzero : cmp a b = 0
    · have hzero' : cmp b a = 0 := by omega
      rw [if_neg (not_not.mpr hzero), if_neg (not_not.mpr hzero')]
      exact hnext.swap a b ⟨hab, hzero⟩
    · have hne : cmp b a ≠ 0 := by omega
      rw [if_pos hzero, if_pos hne]
      exact hswap
  trans a b c hab hbc := by
    have hac := hR.trans hab hbc
    have hs1 := h.swap a b hab
    have hs2 := h.swap b c hbc
    have hs3 := h.swap a c hac
    have htrans := h.trans a b c hab hbc
    have hcba := h.trans c b a (hR.symm hbc) (hR.symm hab)
    have hcab := h.trans c a b (hR.symm hac) hab
    have hbca := h.trans b c a hbc (hR.symm hac)
    unfold thenCompare
    by_cases h1 : cmp a b = 0
    · rw [if_neg (not_not.mpr h1)]
      by_cases h2 : cmp b c = 0
      · have h3 : cmp a c = 0 := by omega
        rw [if_neg (not_not.mpr h2), if_neg (not_not.mpr h3)]
        exact hnext.trans a b c ⟨hab, h1⟩ ⟨hbc, h2⟩
      · omega
    · by_cases h2 : cmp b c = 0
      · omega
      · omega

theorem thenCompare_assoc (c d e : α → α → ℤ) :
    thenCompare c (thenCompare d e) = thenCompare (thenCompare c d) e := by
  funext a b
  unfold thenCompare
  by_cases hc : c a b = 0
  · simp only [hc, ne_eq, not_true_eq_false, if_false]
  · simp only [if_pos hc]

theorem PreorderWithin.tie_equivalence {R : α → α → Prop} {cmp : α → α → ℤ} (hR : Equivalence R)
    (h : PreorderWithin R cmp) : Equivalence fun a b ↦ R a b ∧ cmp a b = 0 where
  refl a := ⟨hR.refl a, h.refl a⟩
  symm {a b} hab := by
    have hswap := h.swap a b hab.1
    have hswap' := h.swap b a (hR.symm hab.1)
    exact ⟨hR.symm hab.1, by omega⟩
  trans {a b c} hab hbc := by
    have hac := hR.trans hab.1 hbc.1
    have hs1 := h.swap a b hab.1
    have hs2 := h.swap b c hbc.1
    have hs3 := h.swap a c hac
    have htrans := h.trans a b c hab.1 hbc.1
    have hcba := h.trans c b a (hR.symm hbc.1) (hR.symm hab.1)
    exact ⟨hac, by omega⟩

theorem TotalPreorder.no_circle {cmp : α → α → ℤ} (h : TotalPreorder cmp) {x y z : α} {e : ℤ}
    (hxy : cmp x y = e) (hyz : cmp y z = e ∨ cmp y z = 0) (hzx : cmp z x = e ∨ cmp z x = 0) :
    e = 0 := by
  have hs1 := h.swap x y
  have hs2 := h.swap y z
  have hs3 := h.swap z x
  have htrans := h.trans y z x
  have htrans' := h.trans x z y
  omega

/-! ## Keys of two parts -/

section

variable [LinearOrder β] [LinearOrder κ] {result : ℤ}

theorem Agrees.fst {x y : β} (h : Agrees result x y) (p q : κ) :
    Agrees result (toLex (x, p)) (toLex (y, q)) := by
  obtain ⟨hneg, hlt⟩ | ⟨hpos, hlt⟩ := h
  · exact .inl ⟨hneg, Prod.Lex.toLex_lt_toLex.mpr (.inl hlt)⟩
  · exact .inr ⟨hpos, Prod.Lex.toLex_lt_toLex.mpr (.inl hlt)⟩

theorem Agrees.snd {p q : κ} (x : β) (h : Agrees result p q) :
    Agrees result (toLex (x, p)) (toLex (x, q)) := by
  obtain ⟨hneg, hlt⟩ | ⟨hpos, hlt⟩ := h
  · exact .inl ⟨hneg, Prod.Lex.toLex_lt_toLex.mpr (.inr ⟨rfl, hlt⟩)⟩
  · exact .inr ⟨hpos, Prod.Lex.toLex_lt_toLex.mpr (.inr ⟨rfl, hlt⟩)⟩

/-- Only the sign of a result counts. -/
theorem Agrees.directed_false {p q : κ} (h : Agrees result p q) :
    Agrees (directed false result) p q := by
  obtain ⟨hneg, hlt⟩ | ⟨hpos, hlt⟩ := h
  · exact .inl ⟨sign_neg_iff.mpr hneg, hlt⟩
  · exact .inr ⟨sign_pos_iff.mpr hpos, hlt⟩

theorem Agrees.directed_true {p q : κ} (h : Agrees result p q) :
    Agrees (directed true result) q p := by
  have hneg := @sign_neg_iff result
  have hpos := @sign_pos_iff result
  unfold directed
  rw [if_pos rfl]
  obtain ⟨hr, hlt⟩ | ⟨hr, hlt⟩ := h
  · exact .inr ⟨by omega, hlt⟩
  · exact .inl ⟨by omega, hlt⟩

theorem Agrees.dual {p q : κ} (h : Agrees result p q) :
    Agrees result (OrderDual.toDual q) (OrderDual.toDual p) := h

end

end Bsh.Library
