import Mathlib.Data.Set.Insert

/-!
# Demands on a set

A test of a set asks for some elements and rules out others.  Several tests together are one test,
which asks for whatever any of them asks for.  A test that forgets a demand can still accept the
same sets, but only when what it keeps cannot be met at all.
-/

namespace Bsh.Library

open List

variable {ι : Type*}

/-- The elements that have to be in a set, and those that have to be out of it. -/
@[ext]
structure Demands (ι : Type*) where
  present : Set ι
  absent : Set ι

namespace Demands

/-- A set that has what is asked for and nothing that is ruled out. -/
def Meets (d : Demands ι) (v : Set ι) : Prop := d.present ⊆ v ∧ ∀ i ∈ d.absent, i ∉ v

/-- What several tests demand. -/
def all (l : List (Demands ι)) : Demands ι :=
  ⟨{i | ∃ d ∈ l, i ∈ d.present}, {i | ∃ d ∈ l, i ∈ d.absent}⟩

/-- The demands on some of the elements. -/
def on (d : Demands ι) (s : Set ι) : Demands ι := ⟨d.present ∩ s, d.absent ∩ s⟩

theorem meets_all (l : List (Demands ι)) (v : Set ι) : (all l).Meets v ↔ ∀ d ∈ l, d.Meets v := by
  constructor
  · intro h d hd
    exact ⟨fun i hi ↦ h.1 ⟨d, hd, hi⟩, fun i hi ↦ h.2 i ⟨d, hd, hi⟩⟩
  · intro h
    constructor
    · intro i hi
      obtain ⟨d, hd, hpresent⟩ := hi
      exact (h d hd).1 hpresent
    · intro i hi
      obtain ⟨d, hd, habsent⟩ := hi
      exact (h d hd).2 i habsent

/-- Two demands exclude each other. -/
def Contradictory (d : Demands ι) : Prop := (d.present ∩ d.absent).Nonempty

theorem Contradictory.not_meets {d : Demands ι} (h : d.Contradictory) (v : Set ι) : ¬ d.Meets v := by
  intro hmeets
  obtain ⟨i, hpresent, habsent⟩ := h
  exact hmeets.2 i habsent (hmeets.1 hpresent)

/-- A test that keeps only some of the demands accepts the same sets when no demand that matters
is lost, or when it accepts no set at all. -/
theorem meets_iff_meets_iff {kept full : Demands ι} {domain : Set ι}
    (hpresent : kept.present ⊆ full.present) (habsent : kept.absent ⊆ full.absent)
    (hdomain : kept.present ⊆ domain) :
    (∀ v ⊆ domain, kept.Meets v ↔ full.Meets v) ↔
      (full.present ⊆ kept.present ∧ full.absent ∩ domain ⊆ kept.absent) ∨ kept.Contradictory := by
  constructor
  · intro h
    by_cases hcontra : kept.Contradictory
    · exact .inr hcontra
    left
    have hkept : kept.Meets kept.present :=
      ⟨Set.Subset.rfl, fun i hi hi' ↦ hcontra ⟨i, hi', hi⟩⟩
    constructor
    · exact ((h _ hdomain).mp hkept).1
    · intro i hi
      by_contra hnot
      -- The element is ruled out by a lost demand, so adding it fools the test.
      have hsub : insert i kept.present ⊆ domain := Set.insert_subset hi.2 hdomain
      have hmeets : kept.Meets (insert i kept.present) := by
        constructor
        · exact Set.subset_insert i kept.present
        · intro j hj hmem
          cases hmem with
          | inl heq => exact hnot (heq ▸ hj)
          | inr hmem => exact hkept.2 j hj hmem
      exact ((h _ hsub).mp hmeets).2 i hi.1 (Set.mem_insert i kept.present)
  · intro h v hv
    have hfull : full.Meets v → kept.Meets v :=
      fun hmeets ↦ ⟨hpresent.trans hmeets.1, fun i hi ↦ hmeets.2 i (habsent hi)⟩
    refine ⟨fun hmeets ↦ ?_, hfull⟩
    obtain ⟨hall, hruled⟩ | hcontra := h
    · constructor
      · exact hall.trans hmeets.1
      · intro i hi hmem
        exact hmeets.2 i (hruled ⟨hi, hv hmem⟩) hmem
    · exact absurd hmeets (hcontra.not_meets v)

/-- Demands of two tests. -/
def join (d e : Demands ι) : Demands ι := ⟨d.present ∪ e.present, d.absent ∪ e.absent⟩

variable {w : ℕ} (d : Demands ι)

theorem join_assoc (e f : Demands ι) : (d.join e).join f = d.join (e.join f) := by
  rw [join, join, join, join, Set.union_assoc, Set.union_assoc]

theorem join_on (e : Demands ι) (s : Set ι) : (d.join e).on s = (d.on s).join (e.on s) := by
  rw [join, on, on, on, join, Set.union_inter_distrib_right, Set.union_inter_distrib_right]

theorem on_on (s t : Set ι) : (d.on s).on t = d.on (s ∩ t) := by
  rw [on, on, on, Set.inter_assoc, Set.inter_assoc]

theorem on_univ : d.on Set.univ = d := by
  rw [on, Set.inter_univ, Set.inter_univ]

theorem all_singleton : all [d] = d := by
  rw [all]
  congr 1 <;>
  · simp

theorem all_cons (l : List (Demands ι)) : all (d :: l) = d.join (all l) := by
  rw [all, all, join]
  congr 1 <;>
  · ext i
    simp

/-! ## Masks -/

/-- The bits of a number. -/
def bits {w : ℕ} (x : BitVec w) : Set ℕ := {i | x.getLsbD i = true}

@[simp]
theorem mem_bits {x : BitVec w} {i : ℕ} : i ∈ bits x ↔ x.getLsbD i = true := Iff.rfl

theorem and_eq_right_iff (v y : BitVec w) : v &&& y = y ↔ bits y ⊆ bits v := by
  constructor
  · intro h i hi
    have hbit := congrArg (BitVec.getLsbD · i) h
    rw [BitVec.getLsbD_and, mem_bits.mp hi, Bool.and_true] at hbit
    exact hbit
  · intro h
    apply BitVec.eq_of_getLsbD_eq
    intro i _
    rw [BitVec.getLsbD_and]
    cases hy : y.getLsbD i with
    | false => exact Bool.and_false _
    | true =>
      rw [Bool.and_true]
      exact h hy

theorem and_eq_zero_iff (v n : BitVec w) : v &&& n = 0 ↔ ∀ i ∈ bits n, i ∉ bits v := by
  constructor
  · intro h i hn hv
    have hbit := congrArg (BitVec.getLsbD · i) h
    rw [BitVec.getLsbD_and, mem_bits.mp hn, mem_bits.mp hv] at hbit
    simp at hbit
  · intro h
    apply BitVec.eq_of_getLsbD_eq
    intro i _
    have hzero : (0 : BitVec w).getLsbD i = false := BitVec.getLsbD_zero
    rw [BitVec.getLsbD_and, hzero]
    cases hn : n.getLsbD i with
    | false => exact Bool.and_false _
    | true =>
      rw [Bool.and_true]
      exact Bool.eq_false_iff.mpr (h i hn)

theorem exists_bits {v : Set ℕ} (hv : v ⊆ {i | i < w}) : ∃ x : BitVec w, bits x = v := by
  classical
  have hlength : ((List.range w).map fun i ↦ decide (i ∈ v)).length = w := by
    rw [length_map, length_range]
  refine ⟨(BitVec.ofBoolListLE _).cast hlength, ?_⟩
  ext i
  rw [mem_bits, BitVec.getLsbD_cast, BitVec.getLsbD_ofBoolListLE]
  by_cases hi : i < w
  · simp [getD_eq_getElem?_getD, hi]
  · have hout : i ∉ v := fun hmem ↦ hi (hv hmem)
    simp [getD_eq_getElem?_getD, hi, hout]

end Demands

end Bsh.Library
