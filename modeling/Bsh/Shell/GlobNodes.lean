import Bsh.Library.LexCompare
import Bsh.Shell.GlobQuals
import Bsh.Shell.GlobSort
import Bsh.Shell.SortKeys

/-!
# Chains of glob qualifiers in memory

The nodes of a qualifier list as rows: what becomes of them when a node or a row is added, when the
last row grows, when a test is filled in, and when an alternative is copied.
-/

namespace Bsh.Shell

open Bsh.Library List

variable {σ : Type}

/-- A row of nodes. -/
abbrev QualRow (σ : Type) := Row ℕ (Option (Qual σ))

namespace QualHeap

variable {s t u : QualHeap σ} {rows : List (QualRow σ)} {row new : QualRow σ}
  {l rest : List (ℕ × Option (Qual σ))} {n m a b : ℕ} {v w : Option (Qual σ)}

/-- The rows are in the store, with no node in two places. -/
structure Holds (s : QualHeap σ) (rows : List (QualRow σ)) : Prop where
  strung : Rows s.cell s.or rows none
  nodup : (addrsOf rows).Nodup
  bound : ∀ a ∈ addrsOf rows, a < s.fresh

/-- The nodes with numbers below `n` stay as they are. -/
structure Keeps (n : ℕ) (s t : QualHeap σ) : Prop where
  cell : ∀ a < n, t.cell a = s.cell a
  or : ∀ a < n, t.or a = s.or a
  fresh_le : s.fresh ≤ t.fresh

namespace Keeps

theorem refl : Keeps n s s := ⟨fun _ _ ↦ rfl, fun _ _ ↦ rfl, le_rfl⟩

theorem trans (h : Keeps n s t) (h' : Keeps n t u) : Keeps n s u where
  cell a ha := (h'.cell a ha).trans (h.cell a ha)
  or a ha := (h'.or a ha).trans (h.or a ha)
  fresh_le := h.fresh_le.trans h'.fresh_le

theorem mono (h : Keeps n s t) (hle : m ≤ n) : Keeps m s t where
  cell a ha := h.cell a (ha.trans_le hle)
  or a ha := h.or a (ha.trans_le hle)
  fresh_le := h.fresh_le

theorem linked (h : Keeps n s t) (hl : Linked s.cell l none) (hlt : ∀ a ∈ l.map Prod.fst, a < n) :
    Linked t.cell l none := hl.congr fun a ha ↦ h.cell a (hlt a ha)

theorem holds (h : Keeps n s t) (hs : s.Holds rows) (hlt : ∀ a ∈ addrsOf rows, a < n) :
    t.Holds rows where
  strung := hs.strung.congr (fun a ha ↦ h.cell a (hlt a ha)) fun a ha ↦ h.or a (hlt a ha)
  nodup := hs.nodup
  bound a ha := (hs.bound a ha).trans_le h.fresh_le

end Keeps

/-! ## The last row -/

theorem Holds.cell_isSome (h : s.Holds rows) {row : QualRow σ} (hmem : row ∈ rows) :
    ∃ next, s.cell row.addr = some ⟨row.val, next⟩ := by
  obtain ⟨front, more, rfl⟩ := append_of_mem hmem
  exact ⟨_, (Rows.append_iff.mp h.strung).2.1.1⟩

theorem Holds.last_nodup (h : s.Holds (rows ++ [row])) : row.addrs.Nodup := by
  have hnodup := h.nodup
  rw [addrsOf_concat] at hnodup
  exact (List.nodup_append.mp hnodup).2.1

theorem Holds.ne_of_front (h : s.Holds (rows ++ [row])) (ha : a ∈ addrsOf rows)
    (hb : b ∈ row.addrs) : a ≠ b := by
  have hnodup := h.nodup
  rw [addrsOf_concat] at hnodup
  exact (List.nodup_append.mp hnodup).2.2 a ha b hb

theorem Holds.strung_on (h : s.Holds rows) (hnew : Linked s.cell new.cells none)
    (hor : s.or new.addr = none) (hnodup : (addrsOf (rows ++ [new])).Nodup)
    (hbound : ∀ a ∈ new.addrs, a < s.fresh) :
    ∃ t, s.orTo (rows.getLast?.map Row.addr) new.addr = some t ∧ t.Holds (rows ++ [new]) ∧
      t.cell = s.cell ∧ t.fresh = s.fresh ∧ ∀ a, a ∉ addrsOf rows → t.or a = s.or a := by
  have hbound' : ∀ a ∈ addrsOf (rows ++ [new]), a < s.fresh := by
    intro a ha
    rw [addrsOf_concat] at ha
    exact (List.mem_append.mp ha).elim (h.bound a) (hbound a)
  rcases eq_nil_or_concat rows with rfl | ⟨rows, row, rfl⟩
  · exact ⟨s, rfl, ⟨⟨hnew, hor, trivial⟩, hnodup, hbound'⟩, rfl, rfl, fun _ _ ↦ rfl⟩
  · rw [concat_eq_append] at *
    obtain ⟨next, hcell⟩ := h.cell_isSome (show row ∈ rows ++ [row] by simp)
    have hset : s.orTo ((rows ++ [row]).getLast?.map Row.addr) new.addr =
        some { s with or := Function.update s.or row.addr (some new.addr) } := by
      rw [List.getLast?_concat, Option.map_some, orTo, setOr, hcell]
      rfl
    have hnot : new.addr ∉ addrsOf (rows ++ [row]) := by
      rw [addrsOf_concat (rows ++ [row])] at hnodup
      exact fun ha ↦ (List.nodup_append.mp hnodup).2.2 _ ha _ Row.addr_mem rfl
    refine ⟨_, hset, ⟨h.strung.concat h.nodup hnew hor hnot, hnodup, hbound'⟩, rfl, rfl,
      fun a ha ↦ Function.update_of_ne (fun heq ↦ ha ?_) _ _⟩
    rw [heq, addrsOf_concat]
    exact mem_append_right _ Row.addr_mem

theorem Holds.extend_last (h : s.Holds (rows ++ [row])) (hlast : lastOr row.cells none = some a)
    (hmore : Linked s.cell l none) (hnodup : (addrsOf (rows ++ [row]) ++ l.map Prod.fst).Nodup)
    (hbound : ∀ a ∈ l.map Prod.fst, a < s.fresh) :
    ∃ t, s.setNext a (firstOr l none) = some t ∧ t.Holds (rows ++ [row.extend l]) ∧
      t.or = s.or ∧ t.fresh = s.fresh ∧ a ∈ row.addrs ∧ ∀ x, x ≠ a → t.cell x = s.cell x := by
  obtain ⟨front, ⟨b, v⟩, hcells⟩ := eq_nil_or_concat row.cells |>.resolve_left
    (cons_ne_nil _ _)
  rw [concat_eq_append] at hcells
  rw [hcells, lastOr_concat, Option.some.injEq] at hlast
  subst hlast
  have hb : b ∈ row.addrs := by
    rw [Row.addrs, hcells]
    simp
  have hrow : Linked s.cell (front ++ [(b, v)]) none := hcells ▸ h.strung.linked_last
  have hrowids : ((front ++ [(b, v)]).map Prod.fst).Nodup := by
    rw [← hcells]
    exact h.last_nodup
  have hset : s.setNext b (firstOr l none) =
      some { s with cell := Function.update s.cell b (some ⟨v, firstOr l none⟩) } := by
    rw [setNext, hrow.cell_eq]
    rfl
  have hfront : ∀ x ∈ addrsOf rows,
      Function.update s.cell b (some ⟨v, firstOr l none⟩) x = s.cell x := fun x hx ↦
    Function.update_of_ne (h.ne_of_front hx hb) _ _
  have hnot : b ∉ l.map Prod.fst := by
    rw [addrsOf_concat] at hnodup
    exact fun hl ↦
      (List.nodup_append.mp hnodup).2.2 b (mem_append_right _ hb) b hl rfl
  have hlinked : Linked (Function.update s.cell b (some ⟨v, firstOr l none⟩))
      (row.extend l).cells none := by
    rw [Row.cells_extend, hcells, Linked.append_iff]
    exact ⟨hrow.set_next hrowids _, hmore.update_of_notMem hnot _⟩
  have haddrs : addrsOf (rows ++ [row.extend l]) = addrsOf (rows ++ [row]) ++ l.map Prod.fst := by
    rw [addrsOf_concat, addrsOf_concat, Row.addrs_extend, append_assoc]
  refine ⟨_, hset, ⟨h.strung.replace_last rfl hfront hlinked, ?_, fun x hx ↦ ?_⟩, rfl, rfl, hb,
    fun x hx ↦ Function.update_of_ne hx _ _⟩
  · rw [haddrs]
    exact hnodup
  · rw [haddrs] at hx
    exact (List.mem_append.mp hx).elim (h.bound x) (hbound x)

theorem Holds.fill_last (h : s.Holds (rows ++ [row])) (hcells : row.cells = l ++ [(a, v)])
    (w : Option (Qual σ)) :
    ∃ t, ∃ new : QualRow σ, s.setVal a w = some t ∧ new.addr = row.addr ∧
      new.cells = l ++ [(a, w)] ∧ new.addrs = row.addrs ∧ t.Holds (rows ++ [new]) ∧
      t.or = s.or ∧ t.fresh = s.fresh ∧ ∀ x, x ≠ a → t.cell x = s.cell x := by
  obtain ⟨new, hnew⟩ : ∃ new : QualRow σ, new.cells = l ++ [(a, w)] := by
    cases l with
    | nil => exact ⟨⟨a, w, []⟩, rfl⟩
    | cons x l => exact ⟨⟨x.1, x.2, l ++ [(a, w)]⟩, rfl⟩
  have haddrs : new.addrs = row.addrs := by
    rw [Row.addrs, Row.addrs, hnew, hcells, map_append, map_append]
    rfl
  have haddr : new.addr = row.addr := (List.cons.inj haddrs).1
  have hall : addrsOf (rows ++ [new]) = addrsOf (rows ++ [row]) := by
    rw [addrsOf_concat, addrsOf_concat, haddrs]
  have hrow : Linked s.cell (l ++ [(a, v)]) none := hcells ▸ h.strung.linked_last
  have hrowids : ((l ++ [(a, v)]).map Prod.fst).Nodup := by
    rw [← hcells]
    exact h.last_nodup
  have ha : a ∈ row.addrs := by
    rw [Row.addrs, hcells]
    simp
  have hset : s.setVal a w =
      some { s with cell := Function.update s.cell a (some ⟨w, none⟩) } := by
    rw [setVal, hrow.cell_eq]
    rfl
  have hfront : ∀ x ∈ addrsOf rows, Function.update s.cell a (some ⟨w, none⟩) x = s.cell x :=
    fun x hx ↦ Function.update_of_ne (h.ne_of_front hx ha) _ _
  have hlinked : Linked (Function.update s.cell a (some ⟨w, none⟩)) new.cells none := by
    rw [hnew]
    exact hrow.set_val hrowids w
  refine ⟨_, new, hset, haddr, hnew, haddrs,
    ⟨h.strung.replace_last haddr hfront hlinked, ?_, fun x hx ↦ ?_⟩, rfl, rfl,
    fun x hx ↦ Function.update_of_ne hx _ _⟩
  · rw [hall]
    exact h.nodup
  · rw [hall] at hx
    exact h.bound x hx

/-! ## One more node at the end -/

theorem keeps_alloc : Keeps s.fresh s (s.alloc v).2 where
  cell _ ha := Function.update_of_ne ha.ne _ _
  or _ ha := Function.update_of_ne ha.ne _ _
  fresh_le := Nat.le_succ _

theorem linkTo_alloc (hl : Linked s.cell l none) (hnodup : (l.map Prod.fst).Nodup)
    (hlt : ∀ a ∈ l.map Prod.fst, a < s.fresh) (v : Option (Qual σ)) :
    ∃ t, (s.alloc v).2.linkTo (lastOr l none) s.fresh = some t ∧
      Linked t.cell (l ++ [(s.fresh, v)]) none ∧ t.fresh = s.fresh + 1 ∧
      t.or = Function.update s.or s.fresh none ∧
      ∀ a, a ∉ l.map Prod.fst → a < s.fresh → t.cell a = s.cell a := by
  have hnew : s.fresh ∉ l.map Prod.fst := fun h ↦ (hlt _ h).ne rfl
  have halloc : Linked (s.alloc v).2.cell l none := hl.update_of_notMem hnew _
  have hself : (s.alloc v).2.cell s.fresh = some ⟨v, none⟩ := Function.update_self _ _ _
  rcases eq_nil_or_concat l with rfl | ⟨l, ⟨a, r⟩, rfl⟩
  · exact ⟨_, rfl, ⟨hself, trivial⟩, rfl, rfl, fun a _ ha ↦ keeps_alloc.cell a ha⟩
  · rw [concat_eq_append] at *
    have hne : s.fresh ≠ a := fun h ↦ hnew (by simp [h])
    have hcell : (s.alloc v).2.cell a = some ⟨r, none⟩ := halloc.cell_eq
    have hset : (s.alloc v).2.linkTo (lastOr (l ++ [(a, r)]) none) s.fresh =
        some { (s.alloc v).2 with
          cell := Function.update (s.alloc v).2.cell a (some ⟨r, some s.fresh⟩) } := by
      rw [lastOr_concat, linkTo, setNext, hcell]
      rfl
    have hlast : Function.update (s.alloc v).2.cell a (some ⟨r, some s.fresh⟩) s.fresh =
        some ⟨v, none⟩ := (Function.update_of_ne hne _ _).trans hself
    refine ⟨_, hset, Linked.append_iff.mpr ⟨?_, hlast, trivial⟩, rfl, rfl, fun x hx hlt ↦ ?_⟩
    · exact halloc.set_next hnodup _
    · have hxa : x ≠ a := fun h ↦ hx (by simp [h])
      exact (Function.update_of_ne hxa _ _).trans (keeps_alloc.cell x hlt)

/-! ## Copying an alternative -/

/-- A list of nodes made since there were `n`, none with an `or` link. -/
structure Copied (n : ℕ) (s : QualHeap σ) (l : List (ℕ × Option (Qual σ))) : Prop where
  linked : Linked s.cell l none
  nodup : (l.map Prod.fst).Nodup
  lower : ∀ a ∈ l.map Prod.fst, n ≤ a
  upper : ∀ a ∈ l.map Prod.fst, a < s.fresh
  or : ∀ a ∈ l.map Prod.fst, s.or a = none

theorem Copied.next (h : Copied n s l) (hn : n ≤ s.fresh) (v : Option (Qual σ)) :
    ∃ t, (s.alloc v).2.linkTo (lastOr l none) s.fresh = some t ∧
      Copied n t (l ++ [(s.fresh, v)]) ∧ Keeps n s t := by
  obtain ⟨t, ht, hlinked, hfresh, hor, hcell⟩ := linkTo_alloc h.linked h.nodup h.upper v
  have hmem : ∀ a ∈ (l ++ [(s.fresh, v)]).map Prod.fst, a ∈ l.map Prod.fst ∨ a = s.fresh := by
    intro a ha
    rw [map_append, mem_append] at ha
    exact ha.imp_right List.mem_singleton.mp
  have hnew : s.fresh ∉ l.map Prod.fst := fun ha ↦ (h.upper _ ha).ne rfl
  refine ⟨t, ht, ⟨hlinked, ?_, fun a ha ↦ ?_, fun a ha ↦ ?_, fun a ha ↦ ?_⟩,
    ⟨fun a ha ↦ ?_, fun a ha ↦ ?_, by omega⟩⟩
  · rw [map_append]
    exact h.nodup.append (nodup_singleton _) (List.disjoint_singleton.mpr hnew)
  · rcases hmem a ha with ha | rfl
    · exact h.lower a ha
    · exact hn
  · rcases hmem a ha with ha | rfl
    · have hlt := h.upper a ha
      omega
    · omega
  · rw [hor]
    rcases hmem a ha with ha | rfl
    · exact (Function.update_of_ne (h.upper a ha).ne _ _).trans (h.or a ha)
    · exact Function.update_self _ _ _
  · exact hcell a (fun hmem ↦ (h.lower a hmem).not_gt ha) (ha.trans_le hn)
  · rw [hor]
    exact Function.update_of_ne (ha.trans_le hn).ne _ _

/-- The loop of `dup_qual_list` copies what is left of the list behind what it has copied. -/
theorem dupLoop_spec {turns : ℕ} {new : List (ℕ × Option (Qual σ))} (hrest : Linked s.cell rest none)
    (hlt : ∀ a ∈ rest.map Prod.fst, a < n) (hn : n ≤ s.fresh) (hnew : Copied n s new)
    (hturns : rest.length ≤ turns) :
    ∃ t new', dupLoop turns s (firstOr rest none) (firstOr new none) (lastOr new none) =
        some (t, firstOr (new ++ new') none, lastOr (new ++ new') none) ∧
      Copied n t (new ++ new') ∧ new'.map Prod.snd = rest.map Prod.snd ∧ Keeps n s t := by
  induction rest generalizing s new turns with
  | nil =>
    have hloop : dupLoop turns s none (firstOr new none) (lastOr new none) =
        some (s, firstOr new none, lastOr new none) := by cases turns <;> rfl
    refine ⟨s, [], ?_, ?_, rfl, .refl⟩
    · rw [append_nil]
      exact hloop
    · rw [append_nil]
      exact hnew
  | cons x rest ih =>
    obtain ⟨a, v⟩ := x
    obtain ⟨turns, rfl⟩ : ∃ k, turns = k + 1 := ⟨turns - 1, by
      rw [length_cons] at hturns
      omega⟩
    obtain ⟨t, ht, hcopied, hkeeps⟩ := hnew.next hn v
    have hrest' : Linked t.cell rest none :=
      hkeeps.linked hrest.2 fun b hb ↦ hlt b (mem_cons_of_mem _ hb)
    obtain ⟨u, new', hu, hcopied', hvals, hkeeps'⟩ := ih hrest'
      (fun b hb ↦ hlt b (mem_cons_of_mem _ hb)) (hn.trans hkeeps.fresh_le) hcopied
      (Nat.le_of_succ_le_succ hturns)
    refine ⟨u, (s.fresh, v) :: new', ?_, ?_, ?_, hkeeps.trans hkeeps'⟩
    · have hfirst : (firstOr new none).or (some s.fresh) = firstOr (new ++ [(s.fresh, v)]) none := by
        rw [firstOr_append, firstOr_cons, firstOr, firstOr, Option.or_none]
      rw [firstOr_cons, dupLoop, hrest.1]
      dsimp only [Option.bind_eq_bind, Option.bind_some]
      rw [show s.alloc v = (s.fresh, (s.alloc v).2) from rfl]
      rw [ht]
      dsimp only [Option.bind_some]
      rw [hfirst, ← lastOr_concat new s.fresh v none, hu, append_assoc]
      rfl
    · rw [append_assoc] at hcopied'
      exact hcopied'
    · rw [map_cons, map_cons, hvals]

/-- `dup_qual_list` copies a row, and leaves all nodes there were alone. -/
theorem dup_qual_list_spec (hlinked : Linked s.cell row.cells none) (hnodup : row.addrs.Nodup)
    (hlt : ∀ a ∈ row.addrs, a < s.fresh) :
    ∃ t, ∃ new : QualRow σ,
      s.dup_qual_list (some row.addr) = some (t, some new.addr, lastOr new.cells none) ∧
      Copied s.fresh t new.cells ∧ new.vals = row.vals ∧ Keeps s.fresh s t := by
  have hlen : row.cells.length ≤ s.fresh := by
    rw [← length_map]
    exact length_le_of_lt hnodup hlt
  have hnone : Copied s.fresh s [] := ⟨trivial, nodup_nil, nofun, nofun, nofun⟩
  obtain ⟨t, new, ht, hcopied, hvals, hkeeps⟩ := dupLoop_spec hlinked hlt le_rfl hnone hlen
  have hne : new ≠ [] := by
    rintro rfl
    exact cons_ne_nil _ _ hvals.symm
  obtain ⟨⟨a, v⟩, new, rfl⟩ := exists_cons_of_ne_nil hne
  exact ⟨t, ⟨a, v, new⟩, ht, hcopied, hvals, hkeeps⟩

end QualHeap

end Bsh.Shell

/-!
# Paths in a sort

The comparison of two names and the depth key both look for the first difference.  Where that lies
within directories of different names, what is below the directories does not matter; what is common
above it does not matter either.  So the two keys together sort paths part by part.
-/

namespace Bsh.Shell

open Bsh.Library List

/-! ## Names -/

/-- The comparison of two names, numerically or not. -/
def nameDiff (numeric : Bool) (as bs : Bytes) : ℤ :=
  comparePlaces ⟨false, if numeric then .numeric else .off, false⟩ ⟨[], as⟩ ⟨[], bs⟩

/-- A directory is followed by a slash. -/
def below (x u : Bytes) : Bytes := x ++ char '/' :: u

variable {c : UInt8} {u y : Bytes} (numeric slash : Bool) (x a s b : Bytes)

theorem charAt_below (u v : Bytes) : charAt (below x u) = charAt (below x v) := by
  cases x <;> rfl

theorem slash_not_digit : idigit (char '/') = false := by decide

/-- Two different texts that end with the same character, which is not within them, have a first
difference. -/
theorem exists_difference {t : UInt8} {x : Bytes} (hx : t ∉ x) (hy : t ∉ y) (hne : x ≠ y) :
    ∃ common x' y', x = common ++ x' ∧ y = common ++ y' ∧
      ∀ u v, charAt (x' ++ t :: u) ≠ charAt (y' ++ t :: v) := by
  induction x generalizing y with
  | nil =>
    cases y with
    | nil => exact absurd rfl hne
    | cons d y =>
      refine ⟨[], [], d :: y, rfl, rfl, ?_⟩
      intro _ _ hsame
      have hd : t = d := hsame
      exact hy (hd ▸ mem_cons_self)
  | cons c x ih =>
    cases y with
    | nil =>
      refine ⟨[], c :: x, [], rfl, rfl, ?_⟩
      intro _ _ hsame
      have hc : c = t := hsame
      exact hx (hc ▸ mem_cons_self)
    | cons d y =>
      by_cases hcd : c = d
      · subst hcd
        obtain ⟨common, x', y', rfl, rfl, hdiffer⟩ := ih (fun h ↦ hx (mem_cons_of_mem _ h))
          (fun h ↦ hy (mem_cons_of_mem _ h)) (fun h ↦ hne (congrArg (c :: ·) h))
        exact ⟨c :: common, x', y', rfl, rfl, hdiffer⟩
      · exact ⟨[], c :: x, d :: y, rfl, rfl, fun _ _ ↦ hcd⟩

/-! ### Below different directories -/

theorem dropZeros_below {x : Bytes} (hx : char '/' ∉ x) :
    ∃ x', char '/' ∉ x' ∧ ∀ u, (below x u).dropWhile (· = char '0') = below x' u := by
  induction x with
  | nil => exact ⟨[], not_mem_nil, fun _ ↦ rfl⟩
  | cons c x ih =>
    by_cases hc : c = char '0'
    · obtain ⟨x', hx', hdrop⟩ := ih fun h ↦ hx (mem_cons_of_mem _ h)
      refine ⟨x', hx', ?_⟩
      intro u
      exact (dropWhile_cons_of_pos (by simpa using hc)).trans (hdrop u)
    · refine ⟨c :: x, hx, ?_⟩
      intro u
      exact dropWhile_cons_of_neg (by simpa using hc)

theorem passSameDigits_below {x : Bytes} (hx : char '/' ∉ x) (hy : char '/' ∉ y) :
    ∃ x' y', char '/' ∉ x' ∧ char '/' ∉ y' ∧
      ∀ u v, passSameDigits (below x u) (below y v) = (below x' u, below y' v) := by
  induction x generalizing y with
  | nil =>
    refine ⟨[], y, hx, hy, ?_⟩
    intro u v
    cases y with
    | nil => exact if_neg fun h ↦ absurd h.1 (ne_true_of_eq_false slash_not_digit)
    | cons d y => exact if_neg fun h ↦ absurd h.1 (ne_true_of_eq_false slash_not_digit)
  | cons c x ih =>
    cases y with
    | nil =>
      refine ⟨c :: x, [], hx, hy, ?_⟩
      intro u v
      refine if_neg ?_
      rintro ⟨-, hc⟩
      exact hx (hc ▸ mem_cons_self)
    | cons d y =>
      by_cases hcd : idigit c = true ∧ c = d
      · obtain ⟨x', y', hx', hy', hpass⟩ := ih (fun h ↦ hx (mem_cons_of_mem _ h))
          (fun h ↦ hy (mem_cons_of_mem _ h))
        exact ⟨x', y', hx', hy', fun u v ↦ (if_pos hcd).trans (hpass u v)⟩
      · exact ⟨c :: x, d :: y, hx, hy, fun _ _ ↦ if_neg hcd⟩

theorem passDigits_below {x : Bytes} (hx : char '/' ∉ x) (hy : char '/' ∉ y) :
    ∃ x' y', ∀ u v, passDigits (below x u) (below y v) = (below x' u, below y' v) := by
  induction x generalizing y with
  | nil =>
    refine ⟨[], y, ?_⟩
    intro u v
    cases y with
    | nil => exact if_neg fun h ↦ absurd h.1 (ne_true_of_eq_false slash_not_digit)
    | cons d y => exact if_neg fun h ↦ absurd h.1 (ne_true_of_eq_false slash_not_digit)
  | cons c x ih =>
    cases y with
    | nil =>
      refine ⟨c :: x, [], ?_⟩
      intro u v
      exact if_neg fun h ↦ absurd h.2 (ne_true_of_eq_false slash_not_digit)
    | cons d y =>
      by_cases hcd : idigit c = true ∧ idigit d = true
      · obtain ⟨x', y', hpass⟩ := ih (fun h ↦ hx (mem_cons_of_mem _ h))
          (fun h ↦ hy (mem_cons_of_mem _ h))
        exact ⟨x', y', fun u v ↦ (if_pos hcd).trans (hpass u v)⟩
      · exact ⟨c :: x, d :: y, fun _ _ ↦ if_neg hcd⟩

theorem compareNumbers_below (sortdir mul cmp : ℤ) {x : Bytes} (hx : char '/' ∉ x)
    (hy : char '/' ∉ y) (u v : Bytes) :
    compareNumbers sortdir mul cmp (below x u) (below y v) =
      compareNumbers sortdir mul cmp (below x []) (below y []) := by
  obtain ⟨x1, hx1, hdropx⟩ := dropZeros_below hx
  obtain ⟨y1, hy1, hdropy⟩ := dropZeros_below hy
  obtain ⟨x2, y2, hx2, hy2, hsame⟩ := passSameDigits_below hx1 hy1
  obtain ⟨x3, y3, hpass⟩ := passDigits_below hx2 hy2
  unfold compareNumbers
  simp only [hdropx, hdropy, hsame, hpass, charAt_below x2 u [], charAt_below y2 v [],
    charAt_below x3 u [], charAt_below y3 v []]

theorem nameDiff_eq {common : Bytes} (hcommon : 0 ∉ common) {ra rb : Bytes}
    (hdiffer : charAt ra ≠ charAt rb) :
    nameDiff numeric (common ++ ra) (common ++ rb) =
      let cmp : ℤ := (charAt ra).toNat - (charAt rb).toNat
      let run := (common.reverse.takeWhile idigit).reverse
      if numeric ∧ (idigit (charAt ra) = true ∨ idigit (charAt rb) = true) ∧
          idigit (charAt (run ++ ra)) = true ∧ idigit (charAt (run ++ rb)) = true then
        compareNumbers 1 1 cmp (run ++ ra) (run ++ rb)
      else cmp := by
  have hcoll := strcoll_spec common hcommon hdiffer
  cases numeric with
  | false =>
    change 1 * strcoll (common ++ ra) (common ++ rb) = _
    rw [hcoll, Int.one_mul]
    exact (if_neg fun h ↦ Bool.false_ne_true h.1).symm
  | true =>
    change compareNumeric 1 false (strcoll (common ++ ra) (common ++ rb)) _ _ = _
    rw [hcoll, compareNumeric]
    dsimp only
    rw [passCommon_spec common [] [] hcommon hdiffer, append_nil, backToDigits_eq]
    simp only [Bool.false_eq_true, false_and, if_false, true_and, Int.one_mul]
    by_cases hany : idigit (charAt ra) = true ∨ idigit (charAt rb) = true
    · simp only [if_pos hany, and_iff_right hany]
    · rw [if_neg hany, if_neg fun h ↦ hany h.1]

/-- What is below two different directories does not matter. -/
theorem nameDiff_below {x : Bytes} (hx : char '/' ∉ x) (hy : char '/' ∉ y)
    (h0 : 0 ∉ x) (hne : x ≠ y) (u v : Bytes) :
    nameDiff numeric (below x u) (below y v) = nameDiff numeric (below x []) (below y []) := by
  obtain ⟨common, x', y', rfl, rfl, hends⟩ := exists_difference hx hy hne
  have hdiffer (u v : Bytes) : charAt (below x' u) ≠ charAt (below y' v) := hends u v
  have hcommon : 0 ∉ common := fun h ↦ h0 (mem_append_left _ h)
  have hsplit (z w : Bytes) : below (common ++ z) w = common ++ below z w :=
    append_assoc _ _ _
  rw [hsplit, hsplit, hsplit, hsplit, nameDiff_eq numeric hcommon (hdiffer u v),
    nameDiff_eq numeric hcommon (hdiffer [] [])]
  dsimp only
  have hrun : char '/' ∉ (common.reverse.takeWhile idigit).reverse := by
    intro hmem
    have hdigit := mem_takeWhile_imp (List.mem_reverse.mp hmem)
    cases hdigit
  generalize (common.reverse.takeWhile idigit).reverse = run at hrun
  have hjoin (z w : Bytes) : run ++ below z w = below (run ++ z) w :=
    (append_assoc _ _ _).symm
  have hout {z : Bytes} (hz : char '/' ∉ common ++ z) : char '/' ∉ run ++ z := by
    intro hmem
    obtain hmem | hmem := List.mem_append.mp hmem
    · exact hrun hmem
    · exact hz (mem_append_right _ hmem)
  rw [hjoin, hjoin, hjoin, hjoin, compareNumbers_below 1 1 _ (hout hx) (hout hy) u v]
  simp only [charAt_below x' u [], charAt_below y' v [], charAt_below (run ++ x') u [],
    charAt_below (run ++ y') v []]

theorem takeWhile_stop {p : UInt8 → Bool} (hc : p c = false) (l r : Bytes) :
    (l ++ c :: r).takeWhile p = l.takeWhile p := by
  induction l with
  | nil => exact takeWhile_cons_of_neg (ne_true_of_eq_false hc)
  | cons d l ih =>
    by_cases hd : p d = true
    · rw [cons_append, takeWhile_cons_of_pos hd, takeWhile_cons_of_pos hd, ih]
    · rw [cons_append, takeWhile_cons_of_neg hd, takeWhile_cons_of_neg hd]

theorem nameDiff_self : nameDiff numeric s s = 0 := by
  cases numeric with
  | false => exact comparePlaces_self (by decide) _
  | true => exact comparePlaces_self (by decide) _

theorem nameDiff_shared {x v : Bytes} (hx : 0 ∉ x) (hu : 0 ∉ u) (hv : 0 ∉ v) :
    nameDiff numeric (below x u) (below x v) = nameDiff numeric u v := by
  by_cases heq : u = v
  · rw [heq, nameDiff_self, nameDiff_self]
  · obtain ⟨common, ra, rb, rfl, rfl, hends⟩ := exists_difference hu hv heq
    have hdiffer : charAt ra ≠ charAt rb := by
      have hend (r : Bytes) : charAt (r ++ [0]) = charAt r := by cases r <;> rfl
      have h := hends [] []
      rwa [hend, hend] at h
    have hcommon : 0 ∉ common := fun h ↦ hu (mem_append_left _ h)
    have habove : 0 ∉ below x common := by
      intro hmem
      obtain hmem | hmem := List.mem_append.mp hmem
      · exact hx hmem
      · obtain hzero | hmem := List.mem_cons.mp hmem
        · exact absurd hzero (by decide)
        · exact hcommon hmem
    have hsplit (r : Bytes) : below x (common ++ r) = below x common ++ r := by
      rw [below, below, append_assoc, cons_append]
    have hrun : (below x common).reverse.takeWhile idigit = common.reverse.takeWhile idigit := by
      rw [below, reverse_append, reverse_cons, append_assoc, singleton_append]
      exact takeWhile_stop slash_not_digit _ _
    rw [hsplit, hsplit, nameDiff_eq numeric habove hdiffer, nameDiff_eq numeric hcommon hdiffer,
      hrun]

/-! ## Depths -/

theorem passShared_spec :
    ∃ common aptr bptr, a = common ++ aptr ∧ b = common ++ bptr ∧
      (aptr = [] ∨ bptr = [] ∨ aptr.head? ≠ bptr.head?) ∧
      passShared slash a b =
        (common.getLast?.elim slash fun c ↦ decide (c = char '/'), aptr, bptr) := by
  induction a generalizing slash b with
  | nil => exact ⟨[], [], b, rfl, rfl, .inl rfl, by cases b <;> rfl⟩
  | cons c a ih =>
    cases b with
    | nil => exact ⟨[], c :: a, [], rfl, rfl, .inr (.inl rfl), rfl⟩
    | cons d b =>
      rw [passShared]
      by_cases hcd : c = d
      · subst hcd
        obtain ⟨common, aptr, bptr, rfl, rfl, hends, hpass⟩ := ih _ b
        refine ⟨c :: common, aptr, bptr, rfl, rfl, hends, ?_⟩
        rw [if_pos rfl, hpass]
        cases common with
        | nil => rfl
        | cons e common => rfl
      · refine ⟨[], c :: a, d :: b, rfl, rfl, .inr (.inr ?_), if_neg hcd⟩
        exact fun h ↦ hcd (Option.some.inj h)

theorem countsSlash_cons {d : UInt8} :
    countsSlash (c :: d :: s) = (decide (c = char '/') || countsSlash (d :: s)) := rfl

theorem countsSlash_suffix {front s : Bytes} (h : countsSlash (front ++ s) = false) :
    countsSlash s = false := by
  induction front with
  | nil => exact h
  | cons c front ih =>
    apply ih
    cases hrest : front ++ s with
    | nil => rfl
    | cons d t =>
      rw [cons_append, hrest, countsSlash_cons, Bool.or_eq_false_iff] at h
      exact h.2

theorem countsSlash_below (hu : u ≠ []) :
    countsSlash (below x u) = true := by
  induction x with
  | nil =>
    obtain ⟨d, u, rfl⟩ := exists_cons_of_ne_nil hu
    rfl
  | cons c x ih =>
    have hne : below x u ≠ [] := by cases x <;> exact cons_ne_nil _ _
    obtain ⟨d, t, ht⟩ := exists_cons_of_ne_nil hne
    rw [ht] at ih
    have hsplit : below (c :: x) u = c :: below x u := rfl
    rw [hsplit, ht, countsSlash_cons, ih, Bool.or_true]

theorem exists_below {s : Bytes} (h : countsSlash s = true) :
    ∃ x u, char '/' ∉ x ∧ u ≠ [] ∧ s = below x u := by
  induction s with
  | nil => cases h
  | cons c s ih =>
    cases s with
    | nil => cases h
    | cons d s =>
      by_cases hc : c = char '/'
      · exact ⟨[], d :: s, not_mem_nil, cons_ne_nil _ _, by rw [hc]; rfl⟩
      · rw [countsSlash_cons, decide_eq_false hc, Bool.false_or] at h
        obtain ⟨x, u, hx, hu, hsplit⟩ := ih h
        refine ⟨c :: x, u, ?_, hu, by rw [hsplit]; rfl⟩
        intro hmem
        obtain heq | hmem := List.mem_cons.mp hmem
        · exact hc heq.symm
        · exact hx hmem

theorem countsSlash_cons_of_ne (c : UInt8) {s : Bytes} (hs : s ≠ []) :
    countsSlash (c :: s) = (decide (c = char '/') || countsSlash s) := by
  obtain ⟨d, s, rfl⟩ := exists_cons_of_ne_nil hs
  rfl

/-- What `GS_DEPTH` makes of the places behind the common characters. -/
def depthOf (shared : Bool × Bytes × Bytes) : ℤ :=
  let back := (shared.2.1 = [] || shared.2.2 = []) && shared.1
  let aptr := if back then char '/' :: shared.2.1 else shared.2.1
  let bptr := if back then char '/' :: shared.2.2 else shared.2.2
  (if countsSlash aptr then 1 else 0) - (if countsSlash bptr then 1 else 0)

theorem depthDiff_eq : depthDiff a b = depthOf (passShared false a b) := rfl

theorem depthOf_ne {slash : Bool} {aptr bptr : Bytes} (ha : aptr ≠ []) (hb : bptr ≠ []) :
    depthOf (slash, aptr, bptr) =
      (if countsSlash aptr then 1 else 0) - (if countsSlash bptr then 1 else 0) := by
  have hback : ((aptr = [] || bptr = []) && slash) = false := by
    rw [decide_eq_false ha, decide_eq_false hb]
    rfl
  unfold depthOf
  rw [hback]
  rfl

theorem depthDiff_files {a b : Bytes} (ha : countsSlash a = false) (hb : countsSlash b = false) :
    depthDiff a b = 0 := by
  obtain ⟨common, aptr, bptr, rfl, rfl, -, hpass⟩ := passShared_spec false a b
  rw [depthDiff_eq, hpass]
  cases hlast : common.getLast? with
  | none =>
    have hback : depthOf (false, aptr, bptr) =
        (if countsSlash aptr then 1 else 0) - (if countsSlash bptr then 1 else 0) := by
      unfold depthOf
      rw [Bool.and_false]
      rfl
    rw [Option.elim_none, hback, countsSlash_suffix ha, countsSlash_suffix hb]
    rfl
  | some c =>
    unfold depthOf
    dsimp only
    split
    · next hback =>
      have hc : c = char '/' := of_decide_eq_true (Bool.and_eq_true _ _ |>.mp hback).2
      obtain ⟨front, rfl⟩ := List.getLast?_eq_some_iff.mp (hc ▸ hlast)
      rw [append_assoc, singleton_append] at ha hb
      rw [countsSlash_suffix ha, countsSlash_suffix hb]
      rfl
    · rw [countsSlash_suffix ha, countsSlash_suffix hb]
      rfl

theorem depthOf_over {slash : Bool} {aptr : Bytes} (ha : countsSlash aptr = true) :
    depthOf (slash, aptr, []) = 1 := by
  have hne : aptr ≠ [] := by
    rintro rfl
    cases ha
  have hback : countsSlash (char '/' :: aptr) = true := by
    rw [countsSlash_cons_of_ne _ hne, ha, Bool.or_true]
  cases slash with
  | false =>
    unfold depthOf
    simp [ha, countsSlash]
  | true =>
    unfold depthOf
    simp [hback, countsSlash]

theorem depthOf_dir_file {b : Bytes} (hu : u ≠ [])
    (hb : countsSlash b = false) : depthOf (passShared slash (below x u) b) = 1 := by
  have hdiffer {slash : Bool} {aptr bptr : Bytes} (haptr : countsSlash aptr = true)
      (hbptr : countsSlash bptr = false) (hne : bptr ≠ []) : depthOf (slash, aptr, bptr) = 1 := by
    have hne' : aptr ≠ [] := by
      rintro rfl
      cases haptr
    rw [depthOf_ne hne' hne, haptr, hbptr]
    rfl
  induction x generalizing slash b with
  | nil =>
    have hcounts : countsSlash (char '/' :: u) = true := countsSlash_below [] hu
    cases b with
    | nil => exact depthOf_over hcounts
    | cons d b =>
      have hstep : passShared slash (below [] u) (d :: b) = if char '/' = d then
          passShared true u b else (slash, char '/' :: u, d :: b) := rfl
      rw [hstep]
      by_cases hd : char '/' = d
      · -- The file is the directory itself, with its slash.
        obtain rfl : b = [] := by
          by_contra hne
          rw [countsSlash_cons_of_ne _ hne, hd.symm] at hb
          cases hb
        have hback : depthOf (true, u, []) = depthOf (false, char '/' :: u, [char '/']) := by
          unfold depthOf
          simp
        have hpass : passShared true u [] = (true, u, []) := by cases u <;> rfl
        rw [if_pos hd, hpass, hback]
        exact hdiffer hcounts rfl (cons_ne_nil _ _)
      · rw [if_neg hd]
        exact hdiffer hcounts hb (cons_ne_nil _ _)
  | cons c x ih =>
    have hcounts := countsSlash_below (c :: x) hu
    cases b with
    | nil => exact depthOf_over hcounts
    | cons d b =>
      have hstep : passShared slash (below (c :: x) u) (d :: b) = if c = d then
          passShared (decide (c = char '/')) (below x u) b
          else (slash, below (c :: x) u, d :: b) := rfl
      rw [hstep]
      by_cases hd : c = d
      · rw [if_pos hd]
        exact ih _ (@countsSlash_suffix [d] b hb)
      · rw [if_neg hd]
        exact hdiffer hcounts hb (cons_ne_nil _ _)

theorem passShared_swap :
    passShared slash b a = ((passShared slash a b).1, (passShared slash a b).2.2,
      (passShared slash a b).2.1) := by
  induction a generalizing slash b with
  | nil => cases b <;> rfl
  | cons c a ih =>
    cases b with
    | nil => rfl
    | cons d b =>
      rw [passShared, passShared]
      by_cases hcd : c = d
      · rw [if_pos hcd, if_pos hcd.symm, ← hcd]
        exact ih _ b
      · rw [if_neg hcd, if_neg fun h ↦ hcd h.symm]

theorem depthDiff_swap : depthDiff b a = -depthDiff a b := by
  rw [depthDiff_eq, depthDiff_eq, passShared_swap]
  unfold depthOf
  rw [Bool.or_comm, neg_sub]

theorem depthDiff_dir_file {b : Bytes} (hu : u ≠ []) (hb : countsSlash b = false) :
    depthDiff (below x u) b = 1 := depthOf_dir_file false x hu hb

theorem passShared_append (w : Bytes) {ra rb : Bytes}
    (hdiffer : charAt ra ≠ charAt rb) (ha : ra ≠ []) (hb : rb ≠ []) :
    ∃ slash', passShared slash (w ++ ra) (w ++ rb) = (slash', ra, rb) := by
  induction w generalizing slash with
  | nil =>
    obtain ⟨c, ra, rfl⟩ := exists_cons_of_ne_nil ha
    obtain ⟨d, rb, rfl⟩ := exists_cons_of_ne_nil hb
    exact ⟨slash, if_neg hdiffer⟩
  | cons c w ih =>
    obtain ⟨slash', h⟩ := ih _
    exact ⟨slash', (if_pos rfl).trans h⟩

theorem below_ne_nil (u : Bytes) : below x u ≠ [] := by
  cases x <;> exact cons_ne_nil _ _

theorem depthDiff_below {x v : Bytes} (hx : char '/' ∉ x) (hy : char '/' ∉ y) (hne : x ≠ y)
    (hu : u ≠ []) (hv : v ≠ []) : depthDiff (below x u) (below y v) = 0 := by
  obtain ⟨common, x', y', rfl, rfl, hends⟩ := exists_difference hx hy hne
  have hsplit (z w : Bytes) : below (common ++ z) w = common ++ below z w :=
    append_assoc _ _ _
  obtain ⟨slash, hpass⟩ := passShared_append false common (hends u v) (below_ne_nil x' u)
    (below_ne_nil y' v)
  have hpass : passShared false (common ++ below x' u) (common ++ below y' v) =
      (slash, below x' u, below y' v) := hpass
  rw [depthDiff_eq, hsplit, hsplit, hpass, depthOf_ne (below_ne_nil x' u) (below_ne_nil y' v),
    countsSlash_below x' hu, countsSlash_below y' hv]
  rfl

theorem depthDiff_shared {v : Bytes} (hu : u ≠ []) (hv : v ≠ []) :
    depthDiff (below x u) (below x v) = depthDiff u v := by
  have hpass (slash : Bool) : passShared slash (below x u) (below x v) = passShared true u v := by
    induction x generalizing slash with
    | nil => exact if_pos rfl
    | cons c x ih => exact (if_pos rfl).trans (ih _)
  rw [depthDiff_eq, depthDiff_eq, hpass]
  obtain ⟨c, u, rfl⟩ := exists_cons_of_ne_nil hu
  obtain ⟨d, v, rfl⟩ := exists_cons_of_ne_nil hv
  rw [passShared, passShared]
  by_cases hcd : c = d
  · rw [if_pos hcd, if_pos hcd]
  · rw [if_neg hcd, if_neg hcd, depthOf_ne hu hv, depthOf_ne hu hv]

/-! ### Metafied paths -/

set_option maxRecDepth 4000 in
theorem special_not_slash : ∀ c : UInt8, imeta c = true → c ^^^ 32 ≠ char '/' :=
  Bytes.forall_byte (by decide)

theorem imeta_slash : imeta (char '/') = false := by decide

theorem metafied_cons_eq (c : UInt8) (s : Bytes) :
    metafied (c :: s) =
      if imeta c then metaByte :: (c ^^^ 32) :: metafied s else c :: metafied s := by
  by_cases hc : imeta c = true
  · rw [if_pos hc]
    simpa using metafied_cons_special hc s []
  · rw [if_neg hc]
    simpa using metafied_cons_plain (Bool.eq_false_iff.mpr hc) s []

theorem metafied_eq_nil {s : Bytes} : metafied s = [] ↔ s = [] := by
  constructor
  · intro h
    cases s with
    | nil => rfl
    | cons c s =>
      rw [metafied_cons_eq] at h
      split at h <;> cases h
  · rintro rfl
    rfl

theorem countsSlash_other (hc : c ≠ char '/') (s : Bytes) :
    countsSlash (c :: s) = countsSlash s := by
  cases s with
  | nil => rfl
  | cons d s => rw [countsSlash_cons, decide_eq_false hc, Bool.false_or]

theorem countsSlash_metafied : countsSlash (metafied s) = countsSlash s := by
  induction s with
  | nil => rfl
  | cons c s ih =>
    rw [metafied_cons_eq]
    by_cases hc : imeta c = true
    · have hne : c ≠ char '/' := by
        rintro rfl
        cases hc
      rw [if_pos hc, countsSlash_other (by decide), countsSlash_other (special_not_slash c hc), ih,
        countsSlash_other hne]
    · rw [if_neg hc]
      by_cases hs : s = []
      · rw [hs]
        rfl
      · rw [countsSlash_cons_of_ne c hs, countsSlash_cons_of_ne c (mt metafied_eq_nil.mp hs), ih]

theorem depthOf_metafied :
    depthOf (slash, metafied a, metafied b) = depthOf (slash, a, b) := by
  have hslash (s : Bytes) : countsSlash (char '/' :: metafied s) = countsSlash (char '/' :: s) := by
    rw [← countsSlash_metafied (char '/' :: s), metafied_cons_eq, imeta_slash]
    rfl
  unfold depthOf
  simp only [metafied_eq_nil]
  split
  · rw [hslash, hslash]
  · rw [countsSlash_metafied, countsSlash_metafied]

/-- The depth does not depend on the metafication. -/
theorem depthDiff_metafied : depthDiff (metafied a) (metafied b) = depthDiff a b := by
  have hall (slash : Bool) : depthOf (passShared slash (metafied a) (metafied b)) =
      depthOf (passShared slash a b) := by
    induction a generalizing slash b with
    | nil =>
      have hnil (s : Bytes) : passShared slash [] s = (slash, [], s) := by cases s <;> rfl
      have hempty : metafied [] = [] := rfl
      rw [hnil b, ← depthOf_metafied slash [] b, hempty, hnil]
    | cons c a ih =>
      cases b with
      | nil =>
        have hnil (s : Bytes) : passShared slash s [] = (slash, s, []) := by cases s <;> rfl
        have hempty : metafied [] = [] := rfl
        rw [hnil (c :: a), ← depthOf_metafied slash (c :: a) [], hempty, hnil]
      | cons d b =>
        rw [metafied_cons_eq c, metafied_cons_eq d, passShared]
        by_cases hcd : c = d
        · subst hcd
          rw [if_pos rfl]
          by_cases hc : imeta c = true
          · have hne : c ≠ char '/' := by
              rintro rfl
              cases hc
            rw [if_pos hc, if_pos hc, passShared, if_pos rfl, passShared, if_pos rfl,
              decide_eq_false (special_not_slash c hc), decide_eq_false hne]
            exact ih b false
          · rw [if_neg hc, if_neg hc, passShared, if_pos rfl]
            exact ih b _
        · rw [if_neg hcd]
          by_cases hboth : imeta c = true ∧ imeta d = true
          · -- The first characters differ behind a `Meta` each.
            obtain ⟨hc, hd⟩ := hboth
            have hdiffer : c ^^^ 32 ≠ d ^^^ 32 := fun h ↦ hcd (by
              have hxor := congrArg (· ^^^ 32) h
              simpa [UInt8.xor_assoc] using hxor)
            rw [if_pos hc, if_pos hd, passShared, if_pos rfl, passShared, if_neg hdiffer,
              depthOf_ne (cons_ne_nil _ _) (cons_ne_nil _ _),
              depthOf_ne (cons_ne_nil _ _) (cons_ne_nil _ _),
              ← countsSlash_metafied (c :: a), ← countsSlash_metafied (d :: b), metafied_cons_eq c,
              metafied_cons_eq d, if_pos hc, if_pos hd,
              countsSlash_other (c := metaByte) (by decide),
              countsSlash_other (c := metaByte) (by decide)]
          · rw [← depthOf_metafied slash (c :: a) (d :: b), metafied_cons_eq c, metafied_cons_eq d]
            have hmeta : imeta metaByte = true := by decide
            by_cases hc : imeta c = true
            · have hd : ¬ imeta d = true := fun hd ↦ hboth ⟨hc, hd⟩
              have hdiffer : metaByte ≠ d := fun h ↦ hd (h ▸ hmeta)
              rw [if_pos hc, if_neg hd, passShared, if_neg hdiffer]
            · rw [if_neg hc]
              by_cases hd : imeta d = true
              · have hdiffer : c ≠ metaByte := fun h ↦ hc (h ▸ hmeta)
                rw [if_pos hd, passShared, if_neg hdiffer]
              · rw [if_neg hd, passShared, if_neg hcd]
  exact hall false

end Bsh.Shell
