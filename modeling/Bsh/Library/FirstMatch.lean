import Mathlib.Data.List.Basic

/-!
# Tables searched from the front

A table is a list of rows; a row fits some of the keys, and a search returns the first row that
fits.  Replacing, appending or dropping rows that do not fit a key leaves its search alone.  In an
exclusive table no two rows fit the same key, so that a row is found as soon as it is there.
-/

namespace Bsh.Library

open List

variable {Key Row : Type*}

/-! ## What leaves a search alone -/

theorem find?_set_of_not {fits : Row → Bool} {rows : List Row} {index : ℕ} {old new : Row}
    (hold : rows[index]? = some old) (hold' : fits old = false) (hnew : fits new = false) :
    (rows.set index new).find? fits = rows.find? fits := by
  induction rows generalizing index with
  | nil => simp at hold
  | cons row rest ih =>
    cases index with
    | zero =>
      cases hold
      simp [hold', hnew]
    | succ index =>
      rw [set_cons_succ, List.find?_cons, List.find?_cons, ih (by simpa using hold)]

theorem find?_append_of_not {fits : Row → Bool} {new : Row} (hnew : fits new = false)
    (rows : List Row) : (rows ++ [new]).find? fits = rows.find? fits := by
  simp [List.find?_append, hnew]

/-- A change of one row that no search notices. -/
theorem find?_modify {fits : Row → Bool} {change : Row → Row}
    (hchange : ∀ row, fits (change row) = fits row) {rows : List Row} {row : Row}
    (h : rows.find? fits = some row) (index : ℕ) :
    ∃ found, (rows.modify index change).find? fits = some found ∧
      (found = row ∨ found = change row) := by
  induction rows generalizing index with
  | nil => simp at h
  | cons first rest ih =>
    rw [List.find?_cons] at h
    cases index with
    | zero =>
      rw [modify_zero_cons, List.find?_cons, hchange]
      cases hfirst : fits first with
      | true =>
        rw [hfirst] at h
        cases h
        exact ⟨_, rfl, .inr rfl⟩
      | false =>
        rw [hfirst] at h
        exact ⟨row, h, .inl rfl⟩
    | succ index =>
      rw [modify_succ_cons, List.find?_cons]
      cases hfirst : fits first with
      | true =>
        rw [hfirst] at h
        cases h
        exact ⟨_, rfl, .inl rfl⟩
      | false =>
        rw [hfirst] at h
        exact ih h index

/-! ## Exclusive tables -/

/-- No two rows fit the same key. -/
def Exclusive (fits : Key → Row → Bool) (rows : List Row) : Prop :=
  rows.Pairwise fun a b ↦ ∀ key, fits key a = true → fits key b = false

variable {fits : Key → Row → Bool} {rows : List Row}

theorem exclusive_iff : Exclusive fits rows ↔ ∀ (i j : ℕ) a b, rows[i]? = some a → rows[j]? = some b →
    i ≠ j → ∀ key, fits key a = true → fits key b = false := by
  unfold Exclusive
  rw [pairwise_iff_getElem]
  constructor
  · intro h i j a b ha hb hne key hkey
    obtain ⟨hi, rfl⟩ := List.getElem?_eq_some_iff.mp ha
    obtain ⟨hj, rfl⟩ := List.getElem?_eq_some_iff.mp hb
    rcases Nat.lt_or_gt_of_ne hne with hlt | hgt
    · exact h i j hi hj hlt key hkey
    · cases hb : fits key rows[j] with
      | false => rfl
      | true =>
        rw [h j i hj hi hgt key hb] at hkey
        exact absurd hkey Bool.false_ne_true
  · intro h i j hi hj hlt key hkey
    exact h i j _ _ (List.getElem?_eq_getElem hi) (List.getElem?_eq_getElem hj) (Nat.ne_of_lt hlt)
      key hkey

/-- The only row that fits is the one that is found. -/
theorem Exclusive.find? (h : Exclusive fits rows) {row : Row} (hrow : row ∈ rows) {key : Key}
    (hkey : fits key row = true) : rows.find? (fits key) = some row := by
  induction rows with
  | nil => simp at hrow
  | cons first rest ih =>
    obtain ⟨hfirst, hrest⟩ := List.pairwise_cons.mp h
    rcases List.mem_cons.mp hrow with rfl | hmem
    · simp [hkey]
    · cases hfit : fits key first with
      | true =>
        rw [hfirst row hmem key hfit] at hkey
        exact absurd hkey Bool.false_ne_true
      | false =>
        rw [List.find?_cons, hfit]
        exact ih hrest hmem

theorem Exclusive.filter_length_le (h : Exclusive fits rows) {keep : Row → Bool} (key : Key)
    (hkeep : ∀ row, keep row = true → fits key row = true) : (rows.filter keep).length ≤ 1 := by
  induction rows with
  | nil => simp
  | cons first rest ih =>
    obtain ⟨hfirst, hrest⟩ := List.pairwise_cons.mp h
    rw [filter_cons]
    split
    · next hkept =>
      have hnone : rest.filter keep = [] := by
        rw [filter_eq_nil_iff]
        intro row hrow hk
        have hfit := hfirst row hrow key (hkeep first hkept)
        rw [hkeep row hk] at hfit
        exact absurd hfit.symm Bool.false_ne_true
      simp [hnone]
    · exact ih hrest

theorem Exclusive.sublist (h : Exclusive fits rows) {kept : List Row} (hkept : kept.Sublist rows) :
    Exclusive fits kept :=
  List.Pairwise.sublist hkept h

theorem Exclusive.append (h : Exclusive fits rows) {new : Row}
    (hnew : ∀ row ∈ rows, ∀ key, fits key row = true → fits key new = false) :
    Exclusive fits (rows ++ [new]) := by
  refine List.pairwise_append.mpr ⟨h, pairwise_singleton _ _, ?_⟩
  intro row hrow other hother
  rw [List.mem_singleton.mp hother]
  exact hnew row hrow

/-- A row may be replaced by one that fits keys of no other row. -/
theorem Exclusive.set (h : Exclusive fits rows) {index : ℕ} {new : Row}
    (hnew : ∀ (j : ℕ) row, rows[j]? = some row → index ≠ j → ∀ key, fits key new = true →
      fits key row = false) : Exclusive fits (rows.set index new) := by
  rw [exclusive_iff] at h ⊢
  intro i j a b ha hb hne key hkey
  rw [List.getElem?_set] at ha hb
  by_cases hi : index = i
  · have hj : index ≠ j := fun heq ↦ hne (hi.symm.trans heq)
    rw [if_pos hi] at ha
    rw [if_neg hj] at hb
    split at ha
    · cases ha
      exact hnew j b hb hj key hkey
    · cases ha
  · rw [if_neg hi] at ha
    by_cases hj : index = j
    · rw [if_pos hj] at hb
      split at hb
      · cases hb
        cases hfit : fits key new with
        | false => rfl
        | true =>
          rw [hnew i a ha hi key hfit] at hkey
          exact absurd hkey Bool.false_ne_true
      · cases hb
    · rw [if_neg hj] at hb
      exact h i j a b ha hb hne key hkey

theorem Exclusive.modify (h : Exclusive fits rows) {change : Row → Row}
    (hchange : ∀ key row, fits key (change row) = fits key row) (index : ℕ) :
    Exclusive fits (rows.modify index change) := by
  rw [exclusive_iff] at h ⊢
  intro i j a b ha hb hne key hkey
  rw [List.getElem?_modify] at ha hb
  obtain ⟨a', ha', rfl⟩ := Option.map_eq_some_iff.mp ha
  obtain ⟨b', hb', rfl⟩ := Option.map_eq_some_iff.mp hb
  have hkey' : fits key a' = true := by
    split at hkey
    · rwa [hchange] at hkey
    · exact hkey
  have hother := h i j a' b' ha' hb' hne key hkey'
  split
  · rwa [hchange]
  · exact hother

/-! ## Tables side by side -/

section Parallel

variable {Other : Type*} {related : Row → Other → Prop} {left : List Row} {right : List Other}

theorem forall₂_set (h : List.Forall₂ related left right) {a : Row} {b : Other}
    (hab : related a b) (index : ℕ) :
    List.Forall₂ related (left.set index a) (right.set index b) := by
  induction h generalizing index with
  | nil => exact List.Forall₂.nil
  | cons hfirst hrest ih =>
    cases index with
    | zero => exact List.Forall₂.cons hab hrest
    | succ index => exact List.Forall₂.cons hfirst (ih index)

theorem forall₂_concat (h : List.Forall₂ related left right) {a : Row} {b : Other}
    (hab : related a b) : List.Forall₂ related (left ++ [a]) (right ++ [b]) := by
  induction h with
  | nil => exact List.Forall₂.cons hab List.Forall₂.nil
  | cons hfirst _ ih => exact List.Forall₂.cons hfirst ih

theorem forall₂_eraseIdx (h : List.Forall₂ related left right) (index : ℕ) :
    List.Forall₂ related (left.eraseIdx index) (right.eraseIdx index) := by
  induction h generalizing index with
  | nil => exact List.Forall₂.nil
  | cons hfirst hrest ih =>
    cases index with
    | zero => exact hrest
    | succ index => exact List.Forall₂.cons hfirst (ih index)

theorem forall₂_modify_left (h : List.Forall₂ related left right) {change : Row → Row}
    (hchange : ∀ a b, related a b → related (change a) b) (index : ℕ) :
    List.Forall₂ related (left.modify index change) right := by
  induction h generalizing index with
  | nil =>
    rw [modify_nil]
    exact List.Forall₂.nil
  | cons hfirst hrest ih =>
    cases index with
    | zero => exact List.Forall₂.cons (hchange _ _ hfirst) hrest
    | succ index => exact List.Forall₂.cons hfirst (ih index)

theorem forall₂_getElem? (h : List.Forall₂ related left right) {index : ℕ} {a : Row}
    (ha : left[index]? = some a) : ∃ b, right[index]? = some b ∧ related a b := by
  induction h generalizing index with
  | nil => simp at ha
  | cons hfirst hrest ih =>
    cases index with
    | zero =>
      cases ha
      exact ⟨_, rfl, hfirst⟩
    | succ index => exact ih ha

end Parallel

end Bsh.Library
