import Mathlib.Data.List.Basic
import Mathlib.Data.List.Nodup

/-!
# Tables of lists

A table maps keys to lists of values, in the order in which the keys were first set.  What a table
holds is the list of its pairs of a key and one value: adding a value adds one pair, and leaving
values of a key out leaves out the pairs.
-/

namespace Bsh.Library

open List

/-- A map from keys to lists. -/
abbrev ListTable (K V : Type*) := List (K × List V)

namespace ListTable

variable {K V : Type*}

/-- The pairs of a key and a value. -/
def pairs (table : ListTable K V) : List (K × V) :=
  table.flatMap fun row ↦ row.2.map fun value ↦ (row.1, value)

theorem pairs_cons (k : K) (values : List V) (rest : ListTable K V) :
    pairs ((k, values) :: rest) = (values.map fun value ↦ (k, value)) ++ pairs rest := rfl

/-- No key is set twice. -/
def KeysNodup (table : ListTable K V) : Prop := (table.map Prod.fst).Nodup

variable [DecidableEq K]

def get (table : ListTable K V) (key : K) : Option (List V) := table.lookup key

/-- Set the list of a key, in place or at the end. -/
def set (key : K) (values : List V) : ListTable K V → ListTable K V
  | [] => [(key, values)]
  | (k, old) :: rest => if k = key then (k, values) :: rest else (k, old) :: set key values rest

def delete (key : K) (table : ListTable K V) : ListTable K V := table.filter fun row ↦ row.1 ≠ key

/-- Keep some values of a key; a key without values is deleted. -/
def keepOnly (key : K) (keep : V → Bool) (table : ListTable K V) : ListTable K V :=
  match get table key with
  | none => table
  | some values =>
    if values.filter keep = [] then delete key table else set key (values.filter keep) table

theorem get_cons (k : K) (values : List V) (rest : ListTable K V) (key : K) :
    get ((k, values) :: rest) key = if k = key then some values else get rest key := by
  unfold get
  rw [lookup_cons]
  by_cases h : k = key
  · simp [h]
  · have hne : (key == k) = false := by simpa using fun e ↦ h e.symm
    rw [hne, if_neg h]

variable {table : ListTable K V}

theorem mem_keys_set {key k : K} {values : List V}
    (h : k ∈ (set key values table).map Prod.fst) : k = key ∨ k ∈ table.map Prod.fst := by
  induction table with
  | nil => simpa [set] using h
  | cons row rest ih =>
    rw [set] at h
    split at h
    · exact .inr h
    · rcases List.mem_cons.mp h with h | h
      · exact .inr (by simp [h])
      · exact (ih h).imp id fun h ↦ mem_cons_of_mem _ h

theorem KeysNodup.set (h : KeysNodup table) (key : K) (values : List V) :
    KeysNodup (set key values table) := by
  unfold KeysNodup at h ⊢
  induction table with
  | nil => simp [ListTable.set]
  | cons row rest ih =>
    rw [ListTable.set]
    split
    · exact h
    · next hk =>
      rw [map_cons, nodup_cons] at h ⊢
      exact ⟨fun hmem ↦ (mem_keys_set hmem).elim hk h.1, ih h.2⟩

theorem KeysNodup.delete (h : KeysNodup table) (key : K) :
    KeysNodup (delete key table) :=
  (List.filter_sublist.map Prod.fst).nodup h

theorem KeysNodup.keepOnly (h : KeysNodup table) (key : K)
    (keep : V → Bool) : KeysNodup (keepOnly key keep table) := by
  unfold ListTable.keepOnly
  split
  · exact h
  · split
    · exact h.delete key
    · exact h.set key _

theorem pairs_add (table : ListTable K V) (key : K) (value : V) :
    (pairs (set key ((get table key).getD [] ++ [value]) table)).Perm
      ((key, value) :: pairs table) := by
  induction table with
  | nil => exact .refl _
  | cons row rest ih =>
    obtain ⟨k, old⟩ := row
    rw [get_cons, ListTable.set]
    by_cases hk : k = key
    · subst hk
      rw [if_pos rfl, if_pos rfl, pairs_cons, pairs_cons, Option.getD_some, map_append,
        append_assoc]
      exact perm_middle
    · rw [if_neg hk, if_neg hk, pairs_cons, pairs_cons]
      exact (ih.append_left _).trans perm_middle

theorem pairs_filter_of_notMem {key : K} (keep : V → Bool)
    (h : key ∉ table.map Prod.fst) :
    (pairs table).filter (fun x ↦ x.1 ≠ key || keep x.2) = pairs table := by
  rw [filter_eq_self]
  intro x hx
  obtain ⟨row, hrow, hvalue⟩ := List.mem_flatMap.mp hx
  obtain ⟨value, -, rfl⟩ := List.mem_map.mp hvalue
  have hne : row.1 ≠ key := fun e ↦ h (e ▸ mem_map_of_mem hrow)
  simp [hne]

theorem delete_of_notMem {key : K} (h : key ∉ table.map Prod.fst) :
    delete key table = table := by
  rw [delete, filter_eq_self]
  intro row hrow
  exact decide_eq_true fun e ↦ h (e ▸ mem_map_of_mem hrow)

theorem pairs_keepOnly (h : KeysNodup table) (key : K) (keep : V → Bool) :
    pairs (keepOnly key keep table) =
      (pairs table).filter fun x ↦ x.1 ≠ key || keep x.2 := by
  induction table with
  | nil => rfl
  | cons row rest ih =>
    obtain ⟨k, values⟩ := row
    obtain ⟨hk, hrest⟩ := List.nodup_cons.mp h
    rw [pairs_cons, filter_append, filter_map]
    unfold keepOnly
    rw [get_cons]
    by_cases hkey : k = key
    · subst hkey
      have hcomp : (fun x : K × V ↦ x.1 ≠ k || keep x.2) ∘ (fun value ↦ (k, value)) = keep := by
        funext value
        simp
      rw [if_pos rfl, hcomp, pairs_filter_of_notMem keep hk]
      dsimp only
      split
      · next hnil =>
        have hdelete : delete k ((k, values) :: rest) = rest := by
          rw [delete, filter_cons_of_neg (by simp)]
          exact delete_of_notMem hk
        rw [hdelete, hnil, map_nil, nil_append]
      · rw [set, if_pos rfl, pairs_cons]
    · have hcomp : (fun x : K × V ↦ x.1 ≠ key || keep x.2) ∘ (fun value ↦ (k, value)) =
          fun _ ↦ true := by
        funext value
        simp [hkey]
      rw [if_neg hkey, hcomp, filter_true, ← ih hrest, ← pairs_cons]
      unfold keepOnly
      cases get rest key with
      | none => rfl
      | some found =>
        dsimp only
        split
        · rw [delete, filter_cons_of_pos (by simpa using hkey)]
          rfl
        · rw [set, if_neg hkey]

end ListTable

end Bsh.Library
