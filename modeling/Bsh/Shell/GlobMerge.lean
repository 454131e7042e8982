import Bsh.Shell.GlobSelect

/-!
# Merging groups of glob qualifiers

Two groups are merged into one list whose alternatives are all pairs of an alternative of the new
group and one of the groups before.  All pairs but the last are made of copies, the last one of the
nodes there are.
-/

namespace Bsh.Shell

open Bsh.Library List

variable {σ : Type}

namespace QualHeap

variable {s t : QualHeap σ} {rows news olds : List (QualRow σ)} {row new old : QualRow σ}
  {c : OrChain σ} {turns : ℕ} {a b : ℕ}

/-! ## Rows to be merged -/

/-- An alternative in memory. -/
structure Stands (s : QualHeap σ) (row : QualRow σ) : Prop where
  linked : Linked s.cell row.cells none
  nodup : row.addrs.Nodup
  bound : ∀ a ∈ row.addrs, a < s.fresh

theorem Holds.stands (h : s.Holds rows) (hmem : row ∈ rows) : s.Stands row := by
  obtain ⟨front, more, rfl⟩ := append_of_mem hmem
  have hsub : ∀ a ∈ row.addrs, a ∈ addrsOf (front ++ row :: more) := fun a ha ↦
    List.mem_flatMap.mpr ⟨row, hmem, ha⟩
  have hnodup := h.nodup
  rw [addrsOf_append, addrsOf_cons] at hnodup
  exact ⟨(Rows.append_iff.mp h.strung).2.1,
    (List.nodup_append.mp (List.nodup_append.mp hnodup).2.1).1, fun a ha ↦ h.bound a (hsub a ha)⟩

theorem length_le_addrsOf (rows : List (QualRow σ)) : rows.length ≤ (addrsOf rows).length := by
  induction rows with
  | nil => exact le_rfl
  | cons row rows ih =>
    have hrow : 0 < row.addrs.length := length_pos_of_mem Row.addr_mem
    rw [addrsOf_cons, length_append, length_cons]
    omega

theorem Holds.length_le (h : s.Holds rows) : rows.length ≤ s.fresh :=
  (length_le_addrsOf rows).trans (length_le_of_lt h.nodup h.bound)

theorem Stands.length_le (h : s.Stands row) : row.cells.length ≤ s.fresh := by
  rw [← length_map]
  exact length_le_of_lt h.nodup h.bound

theorem Stands.keep (h : s.Stands row) (hkeeps : Keeps s.fresh s t) : t.Stands row where
  linked := hkeeps.linked h.linked h.bound
  nodup := h.nodup
  bound a ha := (h.bound a ha).trans_le hkeeps.fresh_le

theorem Stands.getOr (h : s.Stands row) : s.getOr row.addr = some (s.or row.addr) := by
  rw [QualHeap.getOr, h.linked.1]
  rfl

theorem Keeps.getOr (hkeeps : Keeps s.fresh s t) (h : s.Stands row) :
    t.getOr row.addr = some (s.or row.addr) := by
  rw [(h.keep hkeeps).getOr, hkeeps.or _ (h.bound _ Row.addr_mem)]

theorem lastNode_spec {l : List (ℕ × Option (Qual σ))} {v : Option (Qual σ)}
    (h : Linked s.cell ((a, v) :: l) none) (hturns : l.length < turns) :
    s.lastNode turns a = lastOr ((a, v) :: l) none := by
  induction l generalizing a v turns with
  | nil =>
    obtain ⟨turns, rfl⟩ : ∃ k, turns = k + 1 := ⟨turns - 1, by omega⟩
    rw [lastNode, h.1]
    rfl
  | cons x l ih =>
    obtain ⟨turns, rfl⟩ : ∃ k, turns = k + 1 := ⟨turns - 1, by omega⟩
    rw [lastNode, h.1]
    have hrest := ih h.2 (Nat.lt_of_succ_lt_succ hturns)
    exact hrest

theorem exists_last (row : QualRow σ) : ∃ last, lastOr row.cells none = some last := by
  rcases eq_nil_or_concat row.cells with h | ⟨l, ⟨a, v⟩, h⟩
  · exact absurd h (cons_ne_nil _ _)
  · rw [h, concat_eq_append]
    exact ⟨a, lastOr_concat _ _ _ _⟩

theorem setNext_isSome {next : Option ℕ} (h : s.setNext a next = some t) (x : ℕ)
    (hx : (s.cell x).isSome) : (t.cell x).isSome := by
  obtain ⟨c, hc, rfl⟩ := Option.map_eq_some_iff.mp h
  dsimp only
  rcases eq_or_ne x a with rfl | hne
  · rw [Function.update_self]
    rfl
  · rw [Function.update_of_ne hne]
    exact hx

/-! ## One pair of alternatives -/

/-- The new list so far: copies, made when there was the store `s`. -/
structure Chained (s : QualHeap σ) (c : OrChain σ) (rows : List (QualRow σ)) : Prop where
  holds : c.heap.Holds rows
  lower : ∀ a ∈ addrsOf rows, s.fresh ≤ a
  keeps : Keeps s.fresh s c.heap
  head : c.qorhead = firstRow rows none
  tail : c.qortail = rows.getLast?.map Row.addr

theorem firstRow_concat (rows : List (QualRow σ)) (new row : QualRow σ)
    (haddr : row.addr = new.addr) :
    (firstRow rows none).or (some new.addr) = firstRow (rows ++ [row]) none := by
  rw [firstRow_append, firstRow_cons, haddr, firstRow, firstRow, Option.or_none]

/-- A pair that is not the last is copied. -/
theorem combineOne_copy (h : Chained s c rows) (hnew : s.Stands new) (hold : s.Stands old)
    (hmore : ((s.or new.addr).isNone && (s.or old.addr).isNone) = false) :
    ∃ c' row, combineOne c new.addr old.addr = some c' ∧ row.vals = new.vals ++ old.vals ∧
      Chained s c' (rows ++ [row]) := by
  have hnew' := hnew.keep h.keeps
  have hle := h.keeps.fresh_le
  obtain ⟨t, first, ht, hfirst, hvals, hkeept⟩ :=
    dup_qual_list_spec hnew'.linked hnew'.nodup hnew'.bound
  obtain ⟨last, hlast⟩ := exists_last first
  have hholdt := hkeept.holds h.holds h.holds.bound
  have hdisj : ∀ a ∈ addrsOf rows, ∀ b ∈ first.addrs, a ≠ b := fun a ha b hb ↦
    ((h.holds.bound a ha).trans_le (hfirst.lower b hb)).ne
  have hnodup : (addrsOf (rows ++ [first])).Nodup := by
    rw [addrsOf_concat]
    exact List.nodup_append.mpr ⟨h.holds.nodup, hfirst.nodup, hdisj⟩
  obtain ⟨u, hu, hholdu, hcellu, hfreshu, horu⟩ :=
    hholdt.strung_on hfirst.linked (hfirst.or _ Row.addr_mem) hnodup hfirst.upper
  have hkeepu : Keeps s.fresh s u := by
    refine (h.keeps.trans (hkeept.mono hle)).trans ⟨fun a _ ↦ by rw [hcellu], fun a ha ↦ ?_,
      hfreshu.ge⟩
    exact horu a fun hmem ↦ (h.lower a hmem).not_gt ha
  have hold' := hold.keep hkeepu
  obtain ⟨v, second, hv, hsecond, hvals', hkeepv⟩ :=
    dup_qual_list_spec hold'.linked hold'.nodup hold'.bound
  have hholdv := hkeepv.holds hholdu hholdu.bound
  have hnodup' : (addrsOf (rows ++ [first]) ++ second.cells.map Prod.fst).Nodup :=
    List.nodup_append.mpr ⟨hnodup, hsecond.nodup, fun a ha b hb ↦
      ((hholdu.bound a ha).trans_le (hsecond.lower b hb)).ne⟩
  obtain ⟨w, hw, hholdw, horw, hfreshw, hmem, hcellw⟩ :=
    hholdv.extend_last hlast hsecond.linked hnodup' hsecond.upper
  have hlastge : s.fresh ≤ last := hle.trans (hfirst.lower last hmem)
  have hkeepw : Keeps s.fresh s w := by
    refine (hkeepu.trans (hkeepv.mono hkeepu.fresh_le)).trans
      ⟨fun a ha ↦ hcellw a (ha.trans_le hlastge).ne, fun a _ ↦ by rw [horw], hfreshw.ge⟩
  have hrun : combineOne c new.addr old.addr =
      some ⟨w, c.qorhead.or (some first.addr), some first.addr⟩ := by
    rw [combineOne, h.keeps.getOr hnew, h.keeps.getOr hold]
    dsimp only [Option.bind_eq_bind, Option.bind_some]
    rw [hmore, if_neg Bool.false_ne_true, ht, hlast]
    dsimp only [Option.bind_some]
    rw [h.tail, hu]
    dsimp only [Option.bind_some]
    rw [if_neg Bool.false_ne_true, hv]
    dsimp only [Option.map_some, Option.bind_some]
    rw [← Row.firstOr_cells none, hw]
    rfl
  refine ⟨_, first.extend second.cells, hrun, ?_, hholdw, fun a ha ↦ ?_, hkeepw, ?_, ?_⟩
  · rw [Row.vals_extend, hvals]
    exact congrArg (new.vals ++ ·) hvals'
  · rw [addrsOf_concat, Row.addrs_extend, mem_append, mem_append] at ha
    rcases ha with ha | ha | ha
    · exact h.lower a ha
    · exact hle.trans (hfirst.lower a ha)
    · exact hkeepu.fresh_le.trans (hsecond.lower a ha)
  · rw [h.head]
    exact firstRow_concat rows first _ rfl
  · rw [List.getLast?_concat]
    rfl

/-- The list at the end of the loops. -/
structure Merged (s : QualHeap σ) (c : OrChain σ) (rows : List (QualRow σ)) : Prop where
  holds : c.heap.Holds rows
  head : c.qorhead = firstRow rows none
  or : ∀ a < s.fresh, c.heap.or a = s.or a
  cell : ∀ a < s.fresh, (s.cell a).isSome → (c.heap.cell a).isSome

theorem Merged.getOr (h : Merged s c rows) (hrow : s.Stands row) :
    c.heap.getOr row.addr = some (s.or row.addr) := by
  have hlt := hrow.bound _ Row.addr_mem
  have hsome : (s.cell row.addr).isSome := by
    rw [hrow.linked.1]
    rfl
  obtain ⟨cell, hcell⟩ := Option.isSome_iff_exists.mp (h.cell _ hlt hsome)
  rw [QualHeap.getOr, hcell, Option.map_some, h.or _ hlt]

/-- The last pair is spliced together from the nodes of both alternatives. -/
theorem combineOne_last (h : Chained s c rows) (hnew : s.Stands new) (hold : s.Stands old)
    (hnewor : s.or new.addr = none) (holdor : s.or old.addr = none)
    (hdisj : ∀ a ∈ new.addrs, ∀ b ∈ old.addrs, a ≠ b) :
    ∃ c' row, combineOne c new.addr old.addr = some c' ∧ row.vals = new.vals ++ old.vals ∧
      Merged s c' (rows ++ [row]) := by
  have hnew' := hnew.keep h.keeps
  have hold' := hold.keep h.keeps
  obtain ⟨last, hlast⟩ := exists_last new
  have hwalk : c.heap.lastNode c.heap.fresh new.addr = some last :=
    (lastNode_spec hnew'.linked hnew'.length_le).trans hlast
  have hnodup : (addrsOf (rows ++ [new])).Nodup := by
    rw [addrsOf_concat]
    exact List.nodup_append.mpr ⟨h.holds.nodup, hnew.nodup, fun a ha b hb ↦
      ((hnew.bound b hb).trans_le (h.lower a ha)).ne'⟩
  have hor : c.heap.or new.addr = none :=
    (h.keeps.or _ (hnew.bound _ Row.addr_mem)).trans hnewor
  obtain ⟨u, hu, hholdu, hcellu, hfreshu, horu⟩ :=
    h.holds.strung_on hnew'.linked hor hnodup hnew'.bound
  have hlinked : Linked u.cell old.cells none := by
    rw [hcellu]
    exact hold'.linked
  have hnodup' : (addrsOf (rows ++ [new]) ++ old.cells.map Prod.fst).Nodup := by
    refine List.nodup_append.mpr ⟨hnodup, hold.nodup, fun a ha b hb ↦ ?_⟩
    rw [addrsOf_concat, mem_append] at ha
    rcases ha with ha | ha
    · exact ((hold.bound b hb).trans_le (h.lower a ha)).ne'
    · exact hdisj a ha b hb
  obtain ⟨w, hw, hholdw, horw, hfreshw, hmem, hcellw⟩ :=
    hholdu.extend_last hlast hlinked hnodup' fun a ha ↦ by
      rw [hfreshu]
      exact hold'.bound a ha
  have hends : ((s.or new.addr).isNone && (s.or old.addr).isNone) = true := by
    rw [hnewor, holdor]
    rfl
  have hrun : combineOne c new.addr old.addr =
      some ⟨w, c.qorhead.or (some new.addr), some new.addr⟩ := by
    rw [combineOne, h.keeps.getOr hnew, h.keeps.getOr hold]
    dsimp only [Option.bind_eq_bind, Option.bind_some]
    rw [if_pos hends, hwalk]
    dsimp only [Option.map_some, Option.bind_some]
    rw [h.tail, hu]
    dsimp only [Option.bind_some]
    rw [if_pos hends, ← Row.firstOr_cells none, hw]
    rfl
  refine ⟨_, new.extend old.cells, hrun, Row.vals_extend, hholdw, ?_, fun a ha ↦ ?_,
    fun a ha hsome ↦ ?_⟩
  · rw [h.head]
    exact firstRow_concat rows new _ rfl
  · have hnot : a ∉ addrsOf rows := fun hmem ↦ (h.lower a hmem).not_gt ha
    rw [horw, horu a hnot, h.keeps.or a ha]
  · refine setNext_isSome hw a ?_
    rw [hcellu, h.keeps.cell a ha]
    exact hsome

/-! ## All pairs -/

/-- The inner loop, for an alternative of the new group that is not the last. -/
theorem combineOld_copy (h : Chained s c rows) (hnew : s.Stands new) (hor : s.or new.addr ≠ none)
    (holds : Rows s.cell s.or olds none) (hstand : ∀ old ∈ olds, s.Stands old)
    (hturns : olds.length ≤ turns) :
    ∃ c' more, combineOld turns c new.addr (firstRow olds none) = some c' ∧
      Chained s c' (rows ++ more) ∧
      more.map Row.vals = olds.map fun old ↦ new.vals ++ old.vals := by
  induction olds generalizing c rows turns with
  | nil =>
    refine ⟨c, [], by cases turns <;> rfl, ?_, rfl⟩
    rw [append_nil]
    exact h
  | cons old olds ih =>
    rw [length_cons] at hturns
    obtain ⟨turns, rfl⟩ : ∃ k, turns = k + 1 := ⟨turns - 1, by omega⟩
    have hold := hstand old mem_cons_self
    have hmore : ((s.or new.addr).isNone && (s.or old.addr).isNone) = false := by
      rw [Option.isNone_eq_false_iff.mpr (Option.isSome_iff_ne_none.mpr hor), Bool.false_and]
    obtain ⟨c₁, row, hone, hvals, hchain⟩ := combineOne_copy h hnew hold hmore
    obtain ⟨c₂, more, hrest, hchain', hall⟩ := ih hchain holds.2.2
      (fun x hx ↦ hstand x (mem_cons_of_mem _ hx)) (Nat.le_of_succ_le_succ hturns)
    refine ⟨c₂, row :: more, ?_, ?_, ?_⟩
    · rw [firstRow_cons, combineOld, hone]
      dsimp only [Option.bind_eq_bind, Option.bind_some]
      rw [hchain.keeps.getOr hold, holds.2.1]
      exact hrest
    · rw [append_assoc] at hchain'
      exact hchain'
    · rw [map_cons, map_cons, hvals, hall]

/-- The inner loop, for the last alternative of the new group. -/
theorem combineOld_last (h : Chained s c rows) (hnew : s.Stands new) (hor : s.or new.addr = none)
    (holds : Rows s.cell s.or olds none) (hstand : ∀ old ∈ olds, s.Stands old)
    (hdisj : ∀ a ∈ new.addrs, ∀ b ∈ addrsOf olds, a ≠ b) (hne : olds ≠ [])
    (hturns : olds.length ≤ turns) :
    ∃ c' more, combineOld turns c new.addr (firstRow olds none) = some c' ∧
      Merged s c' (rows ++ more) ∧
      more.map Row.vals = olds.map fun old ↦ new.vals ++ old.vals := by
  induction olds generalizing c rows turns with
  | nil => exact absurd rfl hne
  | cons old olds ih =>
    rw [length_cons] at hturns
    obtain ⟨turns, rfl⟩ : ∃ k, turns = k + 1 := ⟨turns - 1, by omega⟩
    have hold := hstand old mem_cons_self
    cases olds with
    | nil =>
      have holdor : s.or old.addr = none := holds.2.1
      obtain ⟨c₁, row, hone, hvals, hmerged⟩ := combineOne_last h hnew hold hor holdor
        fun a ha b hb ↦ hdisj a ha b (mem_append_left _ hb)
      refine ⟨c₁, [row], ?_, hmerged, ?_⟩
      · rw [firstRow_cons, combineOld, hone]
        dsimp only [Option.bind_eq_bind, Option.bind_some]
        rw [hmerged.getOr hold, holdor]
        cases turns <;> rfl
      · rw [map_singleton, map_singleton, hvals]
    | cons next olds =>
      have hmore : ((s.or new.addr).isNone && (s.or old.addr).isNone) = false := by
        rw [holds.2.1, firstRow_cons, Option.isNone_some, Bool.and_false]
      obtain ⟨c₁, row, hone, hvals, hchain⟩ := combineOne_copy h hnew hold hmore
      obtain ⟨c₂, more, hrest, hmerged, hall⟩ := ih hchain holds.2.2
        (fun x hx ↦ hstand x (mem_cons_of_mem _ hx))
        (fun a ha b hb ↦ hdisj a ha b (mem_append_right _ hb)) (cons_ne_nil _ _)
        (Nat.le_of_succ_le_succ hturns)
      refine ⟨c₂, row :: more, ?_, ?_, ?_⟩
      · rw [firstRow_cons, combineOld, hone]
        dsimp only [Option.bind_eq_bind, Option.bind_some]
        rw [hchain.keeps.getOr hold, holds.2.1]
        exact hrest
      · rw [append_assoc] at hmerged
        exact hmerged
      · calc (row :: more).map Row.vals = row.vals :: more.map Row.vals := map_cons
          _ = _ := by
            rw [hvals, hall]
            rfl

/-- All pairs of alternatives, in the order of the loops. -/
def pairs {α : Type} (news olds : List (List α)) : List (List α) :=
  news.flatMap fun new ↦ olds.map (new ++ ·)

theorem combineNew_spec (h : Chained s c rows) (hnews : Rows s.cell s.or news none)
    (hstandn : ∀ new ∈ news, s.Stands new) (holds : s.Holds olds)
    (hdisj : ∀ a ∈ addrsOf news, ∀ b ∈ addrsOf olds, a ≠ b) (hnne : news ≠ []) (hone : olds ≠ [])
    (hturns : news.length ≤ turns) :
    ∃ c' more, combineNew turns c (firstRow olds none) (firstRow news none) = some c' ∧
      Merged s c' (rows ++ more) ∧
      more.map Row.vals = pairs (news.map Row.vals) (olds.map Row.vals) := by
  induction news generalizing c rows turns with
  | nil => exact absurd rfl hnne
  | cons new news ih =>
    rw [length_cons] at hturns
    obtain ⟨turns, rfl⟩ : ∃ k, turns = k + 1 := ⟨turns - 1, by omega⟩
    have hnew := hstandn new mem_cons_self
    have hlen : olds.length ≤ c.heap.fresh := holds.length_le.trans h.keeps.fresh_le
    have hmap : (olds.map fun old ↦ new.vals ++ old.vals) =
        (olds.map Row.vals).map (new.vals ++ ·) := by
      rw [map_map]
      rfl
    cases news with
    | nil =>
      have hor : s.or new.addr = none := hnews.2.1
      obtain ⟨c₁, more, hold, hmerged, hall⟩ := combineOld_last h hnew hor holds.strung
        (fun _ hx ↦ holds.stands hx)
        (fun a ha b hb ↦ hdisj a (mem_append_left _ ha) b hb) hone hlen
      refine ⟨c₁, more, ?_, hmerged, ?_⟩
      · rw [firstRow_cons, combineNew, hold]
        dsimp only [Option.bind_eq_bind, Option.bind_some]
        rw [hmerged.getOr hnew, hor]
        cases turns <;> rfl
      · rw [hall, hmap, map_singleton, pairs, flatMap_cons, flatMap_nil,
          append_nil]
    | cons next news =>
      have hor : s.or new.addr ≠ none := by
        rw [hnews.2.1, firstRow_cons]
        exact Option.some_ne_none _
      obtain ⟨c₁, more₁, hold, hchain, hall₁⟩ := combineOld_copy h hnew hor holds.strung
        (fun _ hx ↦ holds.stands hx) hlen
      obtain ⟨c₂, more₂, hrest, hmerged, hall₂⟩ := ih hchain hnews.2.2
        (fun x hx ↦ hstandn x (mem_cons_of_mem _ hx))
        (fun a ha b hb ↦ hdisj a (mem_append_right _ ha) b hb) (cons_ne_nil _ _)
        (Nat.le_of_succ_le_succ hturns)
      refine ⟨c₂, more₁ ++ more₂, ?_, ?_, ?_⟩
      · rw [firstRow_cons, combineNew, hold]
        dsimp only [Option.bind_eq_bind, Option.bind_some]
        rw [hchain.keeps.getOr hnew, hnews.2.1]
        exact hrest
      · rw [append_assoc] at hmerged
        exact hmerged
      · rw [map_append, hall₁, hall₂, hmap]
        rfl

/-- Both ways to merge two lists give all pairs. -/
theorem merge_spec (hnews : s.Holds news) (holds : s.Holds olds)
    (hdisj : ∀ a ∈ addrsOf news, ∀ b ∈ addrsOf olds, a ≠ b) (hnne : news ≠ []) (hone : olds ≠ []) :
    ∃ t rows, s.merge (firstRow olds none) (firstRow news none) = some (t, firstRow rows none) ∧
      t.Holds rows ∧ rows ≠ [] ∧
      rows.map Row.vals = pairs (news.map Row.vals) (olds.map Row.vals) := by
  obtain ⟨new, news', rfl⟩ := exists_cons_of_ne_nil hnne
  obtain ⟨old, olds', rfl⟩ := exists_cons_of_ne_nil hone
  have hnew := hnews.stands (mem_cons_self)
  have hold := holds.stands (mem_cons_self)
  rw [firstRow_cons, firstRow_cons, merge, hold.getOr, hnew.getOr]
  dsimp only [Option.bind_eq_bind, Option.bind_some]
  by_cases hhard : ((s.or old.addr).isSome || (s.or new.addr).isSome) = true
  · rw [if_pos hhard]
    have hstart : Chained s ⟨s, none, none⟩ [] :=
      ⟨⟨trivial, nodup_nil, nofun⟩, nofun, .refl, rfl, rfl⟩
    obtain ⟨c, rows, hc, hmerged, hall⟩ := combineNew_spec hstart hnews.strung
      (fun _ hx ↦ hnews.stands hx) holds hdisj hnne hone hnews.length_le
    rw [firstRow_cons, firstRow_cons] at hc
    rw [hc]
    dsimp only [Option.bind_some]
    refine ⟨c.heap, rows, ?_, hmerged.holds, ?_, hall⟩
    · rw [hmerged.head]
      rfl
    · rintro rfl
      exact cons_ne_nil _ _ hall.symm
  · rw [if_neg hhard]
    rw [Bool.or_eq_true, not_or, Option.not_isSome_iff_eq_none, Option.not_isSome_iff_eq_none,
      holds.strung.2.1, hnews.strung.2.1] at hhard
    obtain rfl : olds' = [] := by
      cases olds' with
      | nil => rfl
      | cons x l => exact absurd hhard.1 (Option.some_ne_none _)
    obtain rfl : news' = [] := by
      cases news' with
      | nil => rfl
      | cons x l => exact absurd hhard.2 (Option.some_ne_none _)
    obtain ⟨last, hlast⟩ := exists_last new
    have hwalk : s.lastNode s.fresh new.addr = some last :=
      (lastNode_spec hnew.linked hnew.length_le).trans hlast
    have hnodup : (addrsOf ([] ++ [new]) ++ old.cells.map Prod.fst).Nodup :=
      List.nodup_append.mpr ⟨hnews.nodup, hold.nodup, fun a ha b hb ↦
        hdisj a ha b (mem_append_left _ hb)⟩
    obtain ⟨t, ht, hholds, hor, hfresh, hmem, hcell⟩ :=
      @Holds.extend_last _ _ [] _ _ _ hnews hlast hold.linked hnodup hold.bound
    rw [hwalk]
    dsimp only [Option.bind_some]
    rw [← Row.firstOr_cells none, ht]
    refine ⟨t, [new.extend old.cells], rfl, hholds, cons_ne_nil _ _, ?_⟩
    rw [map_singleton, Row.vals_extend]
    rfl

end QualHeap

end Bsh.Shell
