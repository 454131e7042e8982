import Mathlib.Data.List.Induction
import Mathlib.Order.Lattice

/-!
# Tables ranked by insertion

Rows arrive one after the other; each goes in behind the rows whose rank is at least its own.  The
first row of such a table that fits is the row of highest rank among those that fit, the earliest
one of equals, and the order is kept when rows are dropped or change without changing rank.
-/

namespace Bsh.Library

open List

variable {Row Rank : Type*} [LinearOrder Rank]

/-- Insert a row behind those of at least its rank. -/
def rankInsert (rank : Row → Rank) (new : Row) : List Row → List Row
  | [] => [new]
  | row :: rest =>
    if rank new ≤ rank row then row :: rankInsert rank new rest else new :: row :: rest

/-- The table of some rows in order of arrival. -/
def ranked (rank : Row → Rank) (rows : List Row) : List Row :=
  rows.foldl (fun table row ↦ rankInsert rank row table) []

/-- A row fits, those before it that fit have lower rank, and those behind it no higher one. -/
def Preferred (rank : Row → Rank) (fits : Row → Bool) (rows : List Row) (row : Row) : Prop :=
  ∃ before after, rows = before ++ row :: after ∧ fits row = true ∧
    (∀ other ∈ before, fits other = true → rank other < rank row) ∧
    ∀ other ∈ after, fits other = true → rank other ≤ rank row

variable {rank : Row → Rank} {rows : List Row}

@[simp]
theorem ranked_nil : ranked rank [] = [] := rfl

theorem ranked_concat (rows : List Row) (new : Row) :
    ranked rank (rows ++ [new]) = rankInsert rank new (ranked rank rows) := by
  simp [ranked, foldl_append]

theorem rankInsert_perm (rank : Row → Rank) (new : Row) (table : List Row) :
    (rankInsert rank new table).Perm (new :: table) := by
  induction table with
  | nil => exact List.Perm.refl _
  | cons first rest ih =>
    rw [rankInsert]
    split
    · exact (ih.cons first).trans (List.Perm.swap new first rest)
    · exact List.Perm.refl _

theorem ranked_perm (rank : Row → Rank) (rows : List Row) : (ranked rank rows).Perm rows := by
  induction rows using List.reverseRecOn with
  | nil => exact List.Perm.refl _
  | append_singleton rows new ih =>
    rw [ranked_concat]
    exact (rankInsert_perm rank new _).trans ((ih.cons new).trans (perm_append_singleton _ _).symm)

variable {row : Row} {table : List Row}

theorem mem_rankInsert {new : Row} :
    row ∈ rankInsert rank new table ↔ row = new ∨ row ∈ table :=
  (rankInsert_perm rank new table).mem_iff.trans mem_cons

theorem mem_ranked : row ∈ ranked rank rows ↔ row ∈ rows :=
  (ranked_perm rank rows).mem_iff

/-! ## Descending order -/

/-- Ranks do not grow. -/
def Descending (rank : Row → Rank) (table : List Row) : Prop :=
  table.Pairwise fun a b ↦ rank b ≤ rank a

theorem Descending.rankInsert (h : Descending rank table) (new : Row) :
    Descending rank (rankInsert rank new table) := by
  induction table with
  | nil => exact pairwise_singleton _ _
  | cons first rest ih =>
    obtain ⟨hfirst, hrest⟩ := List.pairwise_cons.mp h
    rw [Library.rankInsert]
    split
    · next hle =>
      refine List.pairwise_cons.mpr ⟨fun row hrow ↦ ?_, ih hrest⟩
      rcases mem_rankInsert.mp hrow with rfl | hmem
      · exact hle
      · exact hfirst row hmem
    · next hlt =>
      refine List.pairwise_cons.mpr ⟨fun row hrow ↦ ?_, h⟩
      have hbelow : rank first ≤ rank new := (not_le.mp hlt).le
      rcases List.mem_cons.mp hrow with rfl | hmem
      · exact hbelow
      · exact (hfirst row hmem).trans hbelow

theorem ranked_descending (rows : List Row) : Descending rank (ranked rank rows) := by
  induction rows using List.reverseRecOn with
  | nil => exact List.Pairwise.nil
  | append_singleton rows new ih =>
    rw [ranked_concat]
    exact ih.rankInsert new

/-! ## Changes of a table -/

theorem rankInsert_map {Row' : Type*} {rank' : Row' → Rank} {change : Row → Row'}
    (hchange : ∀ row, rank' (change row) = rank row) (new : Row) (table : List Row) :
    rankInsert rank' (change new) (table.map change) = (rankInsert rank new table).map change := by
  induction table with
  | nil => rfl
  | cons first rest ih =>
    rw [map_cons, rankInsert, rankInsert, hchange, hchange]
    split
    · rw [map_cons, ih]
    · rfl

theorem ranked_map {Row' : Type*} {rank' : Row' → Rank} {change : Row → Row'}
    (hchange : ∀ row, rank' (change row) = rank row) (rows : List Row) :
    ranked rank' (rows.map change) = (ranked rank rows).map change := by
  induction rows using List.reverseRecOn with
  | nil => rfl
  | append_singleton rows new ih =>
    rw [map_append, map_singleton, ranked_concat, ranked_concat, ih,
      rankInsert_map hchange]

/-- In a descending table a dropped row leaves no trace. -/
theorem filter_rankInsert {keep : Row → Bool} {new : Row}
    (h : Descending rank table) : (rankInsert rank new table).filter keep =
      if keep new then rankInsert rank new (table.filter keep) else table.filter keep := by
  induction table with
  | nil => cases hnew : keep new <;> simp [rankInsert, hnew]
  | cons first rest ih =>
    obtain ⟨hfirst, hrest⟩ := List.pairwise_cons.mp h
    rw [rankInsert]
    by_cases hle : rank new ≤ rank first
    · rw [if_pos hle, filter_cons, ih hrest, filter_cons]
      cases hnew : keep new with
      | false => rfl
      | true =>
        cases hkeep : keep first with
        | false => rfl
        | true => simp [rankInsert, hle]
    · -- Every row that is kept stands behind the new one as well.
      have hbelow : ∀ row ∈ (first :: rest).filter keep, ¬ rank new ≤ rank row := by
        intro row hrow hnew
        rcases List.mem_cons.mp (List.mem_filter.mp hrow).1 with rfl | hmem
        · exact hle hnew
        · exact hle (hnew.trans (hfirst row hmem))
      have hfront : rankInsert rank new ((first :: rest).filter keep) =
          new :: (first :: rest).filter keep := by
        cases hkept : (first :: rest).filter keep with
        | nil => rfl
        | cons row kept =>
          rw [rankInsert, if_neg (hbelow row (by simp [hkept]))]
      rw [if_neg hle, hfront, filter_cons]

theorem ranked_filter (keep : Row → Bool) (rows : List Row) :
    ranked rank (rows.filter keep) = (ranked rank rows).filter keep := by
  induction rows using List.reverseRecOn with
  | nil => rfl
  | append_singleton rows new ih =>
    rw [ranked_concat, filter_rankInsert (ranked_descending rows), filter_append, ← ih]
    cases hnew : keep new with
    | false => simp [hnew]
    | true => simp [hnew, ranked_concat]

/-! ## Searches -/

theorem find?_rankInsert {fits : Row → Bool} {new : Row}
    (h : Descending rank table) : (rankInsert rank new table).find? fits =
      match table.find? fits with
      | none => if fits new then some new else none
      | some row => if fits new && decide (rank row < rank new) then some new else some row := by
  induction table with
  | nil => cases hnew : fits new <;> simp [rankInsert, hnew]
  | cons first rest ih =>
    obtain ⟨hfirst, hrest⟩ := List.pairwise_cons.mp h
    rw [rankInsert]
    by_cases hle : rank new ≤ rank first
    · rw [if_pos hle, List.find?_cons, List.find?_cons, ih hrest]
      cases hfit : fits first with
      | false => rfl
      | true => simp [hle.not_gt]
    · rw [if_neg hle, List.find?_cons]
      cases hnew : fits new with
      | false =>
        cases (first :: rest).find? fits <;> simp
      | true =>
        cases hfind : (first :: rest).find? fits with
        | none => simp
        | some row =>
          have hrow : rank row < rank new := by
            rcases List.mem_cons.mp (mem_of_find?_eq_some hfind) with rfl | hmem
            · exact not_le.mp hle
            · exact (hfirst row hmem).trans_lt (not_le.mp hle)
          simp [hrow]

theorem find?_ranked_none {fits : Row → Bool} :
    (ranked rank rows).find? fits = none ↔ ∀ row ∈ rows, fits row = false := by
  simp only [List.find?_eq_none, mem_ranked, Bool.not_eq_true]

theorem preferred_of_find? {fits : Row → Bool}
    (h : (ranked rank rows).find? fits = some row) : Preferred rank fits rows row := by
  induction rows using List.reverseRecOn generalizing row with
  | nil => simp at h
  | append_singleton rows new ih =>
    rw [ranked_concat, find?_rankInsert (ranked_descending rows)] at h
    cases hfind : (ranked rank rows).find? fits with
    | none =>
      rw [hfind] at h
      obtain ⟨hnew, rfl⟩ : fits new = true ∧ new = row := by
        simpa using h
      refine ⟨rows, [], rfl, hnew, fun other hother hfit ↦ ?_, by simp⟩
      rw [find?_ranked_none.mp hfind other hother] at hfit
      exact absurd hfit Bool.false_ne_true
    | some old =>
      rw [hfind] at h
      obtain ⟨before, after, heq, hold, hbefore, hafter⟩ := ih hfind
      by_cases hnew : fits new = true ∧ rank old < rank new
      · obtain rfl : new = row := by simpa [hnew.1, hnew.2] using h
        refine ⟨rows, [], rfl, hnew.1, fun other hother hfit ↦ ?_, by simp⟩
        rw [heq] at hother
        rcases List.mem_append.mp hother with hb | hb
        · exact (hbefore other hb hfit).trans hnew.2
        · rcases List.mem_cons.mp hb with rfl | ha
          · exact hnew.2
          · exact (hafter other ha hfit).trans_lt hnew.2
      · obtain rfl : old = row := by
          have hkept : (fits new && decide (rank old < rank new)) = false := by
            simpa only [← Bool.not_eq_true, Bool.and_eq_true, decide_eq_true_eq] using hnew
          simpa [hkept] using h
        refine ⟨before, after ++ [new], by simp [heq], hold, hbefore, fun other hother hfit ↦ ?_⟩
        rcases List.mem_append.mp hother with ha | ha
        · exact hafter other ha hfit
        · rw [List.mem_singleton.mp ha] at hfit ⊢
          exact not_lt.mp fun hlt ↦ hnew ⟨hfit, hlt⟩

/-- What the rows are preferred by may be exchanged for anything that orders them alike. -/
theorem Preferred.of_lt_iff {Rank' : Type*} [LinearOrder Rank'] {rank' : Row → Rank'}
    {fits : Row → Bool} (h : Preferred rank fits rows row)
    (hrank : ∀ a ∈ rows, ∀ b ∈ rows, rank a < rank b ↔ rank' a < rank' b) :
    Preferred rank' fits rows row := by
  obtain ⟨before, after, rfl, hrow, hbefore, hafter⟩ := h
  refine ⟨before, after, rfl, hrow, fun other hother hfit ↦ ?_, fun other hother hfit ↦ ?_⟩
  · exact (hrank other (by simp [hother]) row (by simp)).mp (hbefore other hother hfit)
  · refine not_lt.mp fun hlt ↦ not_lt.mpr (hafter other hother hfit) ?_
    exact (hrank row (by simp) other (by simp [hother])).mpr hlt

end Bsh.Library
