import Bsh.Shell.HashScan

/-!
# Expanding a table

`expandhashtable` adds the nodes to new buckets one after the other.  When there are many of them,
the table is expanded again on the way, once for every time that it is full; the nodes that are there
then all fit into the buckets of that expansion.
-/

namespace Bsh.Shell

open Bsh.Library List

namespace HashTable

variable {κ : Type*} [LinearOrder κ] {hash : κ → ℕ} {s t : HashTable κ} {m : κ → Option ℕ}

variable (hash) in
/-- `t` has the nodes of `s` in more buckets. -/
structure Expanded (s : HashTable κ) (m : κ → Option ℕ) (t : HashTable κ) : Prop where
  refines : t.Refines hash m
  node : t.node = s.node
  scan : t.scan = s.scan
  scans : t.scans = s.scans
  started : t.started = s.started
  grown : 4 * s.table.hsize ≤ t.table.hsize
  room : t.table.ct < 2 * t.table.hsize

/-- The part of the map that has been added so far. -/
def restrict (m : κ → Option ℕ) (done : List ℕ) (k : κ) : Option ℕ := (m k).filter (· ∈ done)

omit [LinearOrder κ] in
theorem restrict_eq_some {done : List ℕ} {k : κ} {n : ℕ} :
    restrict m done k = some n ↔ m k = some n ∧ n ∈ done := by
  rw [restrict, Option.filter_eq_some_iff, decide_eq_true_iff]

omit [LinearOrder κ] in
theorem restrict_nil : restrict m [] = fun _ ↦ none := by
  funext k
  exact Option.eq_none_iff_forall_ne_some.mpr fun n hn ↦
    not_mem_nil (restrict_eq_some.mp hn).2

theorem restrict_concat {done : List ℕ} {k : κ} {n : ℕ} (hk : m k = some n)
    (hname : ∀ k', m k' = some n → k' = k) :
    restrict m (done ++ [n]) = Function.update (restrict m done) k (some n) := by
  funext k'
  by_cases hkey : k' = k
  · rw [hkey, Function.update_self, restrict_eq_some]
    exact ⟨hk, by simp⟩
  · rw [Function.update_of_ne hkey]
    refine Option.ext fun n' ↦ ?_
    rw [restrict_eq_some, restrict_eq_some, mem_append, mem_singleton]
    refine and_congr_right fun hn' ↦ or_iff_left ?_
    rintro rfl
    exact hkey (hname k' hn')

theorem Refines.restrict_all (h : s.Refines hash m) : restrict m s.table.all = m := by
  funext k
  refine Option.ext fun n ↦ ?_
  rw [restrict_eq_some]
  refine and_iff_left_of_imp fun hn ↦ (h.mem_all n).mpr ?_
  rw [h.named k n hn, hn]

omit [LinearOrder κ] in
theorem rename_eq {nam : κ} {hn : ℕ} (h : (s.node hn).nam = nam) : s.rename nam hn = s.node := by
  rw [rename, ← h]
  exact Function.update_eq_self hn s.node

/-- The loop of `expandhashtable`, where `expand` expands a table that is full. -/
theorem expand_fold (h : s.Refines hash m) (hscan : s.scan = none)
    (expand : HashTable κ → Option (HashTable κ))
    (hexpand : ∀ t done, done <+: s.table.all → t.Refines hash (restrict m done) →
      t.node = s.node → t.scan = none → t.table.ct = 2 * t.table.hsize → 4 * s.table.hsize ≤ t.table.hsize →
      ∃ u, expand t = some u ∧ Expanded hash t (restrict m done) u)
    (rest done : List ℕ) (t : HashTable κ) (hall : done ++ rest = s.table.all)
    (ht : Expanded hash s (restrict m done) t) :
    ∃ u, rest.foldlM (fun t hn ↦
        (addWith hash expand t (t.node hn).nam hn).map Prod.fst) t = some u ∧
      Expanded hash s m u := by
  induction rest generalizing done t with
  | nil =>
    rw [append_nil] at hall
    rw [hall, h.restrict_all] at ht
    exact ⟨t, rfl, ht⟩
  | cons hn rest ih =>
    have hmem : m (s.node hn).nam = some hn :=
      (h.mem_all hn).mp (hall ▸ mem_append_right done mem_cons_self)
    have hnodup : (done ++ hn :: rest).Nodup := hall ▸ h.holds.nodup_all
    have hnew : hn ∉ done := fun hold ↦
      (disjoint_of_nodup_append hnodup) hold mem_cons_self
    have hnot : hn ∉ t.table.all := fun hin ↦
      hnew (restrict_eq_some.mp ((ht.refines.mem_all hn).mp hin)).2
    have hnone : restrict m done (t.node hn).nam = none := by
      rw [ht.node]
      refine Option.eq_none_iff_forall_ne_some.mpr fun n hn' ↦ ?_
      obtain ⟨hn', hdone⟩ := restrict_eq_some.mp hn'
      exact hnew (Option.some.inj (hmem.symm.trans hn') ▸ hdone)
    have hrestrict : Function.update (restrict m done) (t.node hn).nam (some hn) =
        restrict m (done ++ [hn]) := by
      rw [ht.node]
      exact (restrict_concat hmem fun k' hk' ↦ (h.named k' hn hk').symm).symm
    have hpushed := ht.refines.pushed hnot hnone
    rw [hrestrict] at hpushed
    have hadd := ht.refines.addWith_new hnot hnone expand
    have hnode : (t.pushed hash (t.node hn).nam hn).node = s.node :=
      (rename_eq rfl).trans ht.node
    have hstep : ∃ u, (addWith hash expand t (t.node hn).nam hn).map Prod.fst = some u ∧
        Expanded hash s (restrict m (done ++ [hn])) u := by
      have hnull : t.scan = none := ht.scan.trans hscan
      rw [hadd, hnull]
      by_cases hfull : 2 * t.table.hsize ≤ t.table.ct + 1
      · have hct : t.table.ct + 1 = 2 * t.table.hsize := by
          have hroom := ht.room
          omega
        rw [Option.isNone_none, Bool.and_true, if_pos (decide_eq_true hfull)]
        obtain ⟨u, hu, hex⟩ := hexpand _ (done ++ [hn])
          ⟨rest, by rw [append_assoc]; exact hall⟩ hpushed hnode hnull hct ht.grown
        refine ⟨u, by rw [hu]; rfl, hex.refines, hex.node.trans hnode, hex.scan.trans ht.scan,
          hex.scans.trans ht.scans, hex.started.trans ht.started, ?_, hex.room⟩
        exact Nat.le_trans ht.grown (Nat.le_trans (Nat.le_mul_of_pos_left _ (by omega)) hex.grown)
      · rw [decide_eq_false hfull]
        refine ⟨_, rfl, hpushed, hnode, ht.scan, ht.scans, ht.started, ht.grown, ?_⟩
        exact Nat.lt_of_not_le hfull
    obtain ⟨u, hu, hex⟩ := hstep
    obtain ⟨v, hv, hfinal⟩ := ih (done ++ [hn]) u
      (by rw [append_assoc]; exact hall) hex
    refine ⟨v, ?_, hfinal⟩
    rw [foldlM_cons, hu]
    exact hv

theorem expanded_start (h : s.Refines hash m) : Expanded hash s (restrict m [])
    { s with table := .empty (4 * s.table.hsize), nodes := s.nodes + 1 } := by
  have hpos : 0 < 4 * s.table.hsize := Nat.mul_pos (by omega) h.holds.size_pos
  rw [restrict_nil]
  refine ⟨⟨?_, nofun, ?_⟩, rfl, rfl, rfl, rfl, Nat.le_refl _, ?_⟩
  · exact (HashChains.holds_empty _ hpos).iff fun n ↦ ⟨False.elim, nofun⟩
  · have hempty := length_all_eq (HashChains.holds_empty (hashing hash s.node) hpos) nodup_nil
      fun n ↦ ⟨fun hn ↦ not_mem_nil hn, False.elim⟩
    exact hempty.symm
  · change 0 < 2 * (4 * s.table.hsize)
    omega

theorem expandhashtable_once (h : s.Refines hash m) (hscan : s.scan = none)
    (hct : s.table.ct < 8 * s.table.hsize) (depth : ℕ) :
    ∃ u, expandhashtable hash (depth + 1) s = some u ∧ Expanded hash s m u := by
  refine expand_fold h hscan _ (fun t done hdone ht hnode _ hfull hgrown ↦ ?_) _ [] _ rfl
    (expanded_start h)
  -- So many nodes are not there.
  have hlength : t.table.ct ≤ s.table.ct := by
    rw [ht.count, h.count]
    have hnodup := h.holds.nodup_all.sublist hdone.sublist
    refine (length_all_eq ht.holds hnodup fun n ↦ ?_).trans_le hdone.length_le
    rw [restrict_eq_some, hnode]
    exact ⟨fun hn ↦ ⟨(h.mem_all n).mp (hdone.mem hn), hn⟩, And.right⟩
  omega

theorem expandhashtable_spec (h : s.Refines hash m) (hscan : s.scan = none) :
    ∃ u, expandhashtable hash 2 s = some u ∧ Expanded hash s m u := by
  refine expand_fold h hscan _ (fun t done _ ht _ hnull hfull _ ↦ ?_) _ [] _ rfl
    (expanded_start h)
  have hpos := ht.holds.size_pos
  exact expandhashtable_once ht hnull (by omega) 0

end HashTable

end Bsh.Shell
