import Mathlib.Data.Nat.Bitwise
import Bsh.Shell.GlobMerge
import Bsh.Shell.GlobNodes

/-!
# Sorting paths by depth and name

The depth and then the name compare paths by the parts of the path: at the first difference a
directory comes in front of a file, and two directories or two files are compared by their names.
This is a linear order.
-/

namespace Bsh.Shell

open Bsh.Library List

/-! ## Parts -/

/-- The directories of a path with their slashes, and the name of the file in the last one. -/
def pathParts (front : Bytes) : Bytes → List (Bool × Bytes)
  | [] => [(false, front)]
  | [c] => [(false, front ++ [c])]
  | c :: d :: s =>
    if c = char '/' then (true, front ++ [c]) :: pathParts [] (d :: s)
    else pathParts (front ++ [c]) (d :: s)

theorem pathParts_below {x : Bytes} (hx : char '/' ∉ x) {u : Bytes} (hu : u ≠ []) (front : Bytes) :
    pathParts front (below x u) = (true, front ++ below x []) :: pathParts [] u := by
  induction x generalizing front with
  | nil =>
    obtain ⟨d, u, rfl⟩ := exists_cons_of_ne_nil hu
    exact if_pos rfl
  | cons c x ih =>
    have hc : c ≠ char '/' := fun h ↦ hx (h ▸ mem_cons_self)
    obtain ⟨d, s, hsplit⟩ := exists_cons_of_ne_nil (below_ne_nil x u)
    have hcons (w : Bytes) : below (c :: x) w = c :: below x w := rfl
    have hrest := ih (fun h ↦ hx (mem_cons_of_mem _ h)) (front ++ [c])
    rw [hsplit] at hrest
    rw [hcons, hsplit, pathParts, if_neg hc, hrest, append_assoc]
    rfl

theorem pathParts_file {s : Bytes} (hs : countsSlash s = false) (front : Bytes) :
    pathParts front s = [(false, front ++ s)] := by
  induction s generalizing front with
  | nil => rw [append_nil]; rfl
  | cons c s ih =>
    cases s with
    | nil => rfl
    | cons d s =>
      rw [countsSlash_cons, Bool.or_eq_false_iff] at hs
      rw [pathParts, if_neg (of_decide_eq_false hs.1), ih hs.2, append_assoc]
      rfl

/-! ## Keys -/

section

variable {κ : Type} [LinearOrder κ]

/-- A path as a key: each part with the direction of the depth. -/
def treeKey (desc : Bool) (key : Bytes → κ) (s : Bytes) : List (ℤ ×ₗ κ) :=
  (pathParts [] s).map fun part ↦
    toLex (if part.1 then directed desc 1 else 0, key part.2)

/-- A comparison of names that looks only at the first difference, and the keys of the parts. -/
structure ComparesParts (cmp : Bytes → Bytes → ℤ) (key : Bytes → κ) : Prop where
  agrees : ∀ x y, 0 ∉ x → 0 ∉ y → x ≠ y → Agrees (cmp x y) (key x) (key y)
  shared : ∀ x u v, 0 ∉ x → 0 ∉ u → 0 ∉ v → cmp (below x u) (below x v) = cmp u v
  below : ∀ x y u v, char '/' ∉ x → char '/' ∉ y → 0 ∉ x → 0 ∉ y → x ≠ y →
    cmp (below x u) (below y v) = cmp (below x []) (below y [])

variable {cmp : Bytes → Bytes → ℤ} {key : Bytes → κ}

theorem zero_not_mem_below {x u : Bytes} (h : 0 ∉ below x u) : 0 ∉ x ∧ 0 ∉ u :=
  ⟨fun hmem ↦ h (mem_append_left _ hmem),
    fun hmem ↦ h (mem_append_right _ (mem_cons_of_mem _ hmem))⟩

theorem below_injective_left {x y : Bytes} (h : below x [] = below y []) : x = y :=
  append_cancel_right h

theorem zero_not_mem_dir {x : Bytes} (hx : 0 ∉ x) : 0 ∉ below x [] := by
  intro hmem
  obtain hmem | hmem := List.mem_append.mp hmem
  · exact hx hmem
  · exact absurd (List.mem_singleton.mp hmem) (by decide)

/-- By the depth and then by the name. -/
def depthThen (desc : Bool) (cmp : Bytes → Bytes → ℤ) : Bytes → Bytes → ℤ :=
  thenCompare (fun a b ↦ directed desc (depthDiff a b)) cmp

theorem depthThen_tie {desc : Bool} {a b : Bytes} (h : depthDiff a b = 0) :
    depthThen desc cmp a b = cmp a b := by
  have hzero : directed desc (depthDiff a b) = 0 := directed_eq_zero.mpr h
  exact if_neg (not_not.mpr hzero)

theorem depthThen_ne {desc : Bool} {a b : Bytes} (h : depthDiff a b ≠ 0) :
    depthThen desc cmp a b = directed desc (depthDiff a b) :=
  if_pos (mt directed_eq_zero.mp h)

theorem depthThen_shared (h : ComparesParts cmp key) (desc : Bool) {x u v : Bytes} (hx : 0 ∉ x)
    (hu0 : 0 ∉ u) (hv0 : 0 ∉ v) (hu : u ≠ []) (hv : v ≠ []) :
    depthThen desc cmp (below x u) (below x v) = depthThen desc cmp u v := by
  have hdepth := depthDiff_shared x hu hv
  by_cases hzero : depthDiff u v = 0
  · rw [depthThen_tie hzero, depthThen_tie (hdepth.trans hzero), h.shared x u v hx hu0 hv0]
  · rw [depthThen_ne hzero, depthThen_ne (hdepth ▸ hzero), hdepth]

theorem agrees_dir_file (desc : Bool) : Agrees (directed desc 1) (directed desc 1) 0 := by
  cases desc with
  | false => exact .inr ⟨by decide, by decide⟩
  | true => exact .inl ⟨by decide, by decide⟩

theorem agrees_file_dir (desc : Bool) : Agrees (directed desc (-1)) 0 (directed desc 1) := by
  cases desc with
  | false => exact .inl ⟨by decide, by decide⟩
  | true => exact .inr ⟨by decide, by decide⟩

theorem treeKey_agrees (h : ComparesParts cmp key) (desc : Bool) {a b : Bytes} (ha : 0 ∉ a)
    (hb : 0 ∉ b) (hne : a ≠ b) :
    Agrees (depthThen desc cmp a b) (treeKey desc key a) (treeKey desc key b) := by
  induction hn : a.length using Nat.strong_induction_on generalizing a b with
  | _ n ih =>
    cases hdira : countsSlash a with
    | false =>
      cases hdirb : countsSlash b with
      | false =>
        -- Two files.
        rw [depthThen_tie (depthDiff_files hdira hdirb), treeKey, treeKey, pathParts_file hdira,
          pathParts_file hdirb]
        exact Agrees.head [] [] (Agrees.snd _ (h.agrees a b ha hb hne))
      | true =>
        obtain ⟨x, u, hx, hu, rfl⟩ := exists_below hdirb
        have hdepth : depthDiff a (below x u) = -1 := by
          rw [depthDiff_swap, depthDiff_dir_file x hu hdira]
        rw [depthThen_ne (by rw [hdepth]; decide), hdepth, treeKey, treeKey, pathParts_file hdira,
          pathParts_below hx hu]
        exact Agrees.head _ _ (Agrees.fst (agrees_file_dir desc) _ _)
    | true =>
      obtain ⟨x, u, hx, hu, rfl⟩ := exists_below hdira
      cases hdirb : countsSlash b with
      | false =>
        have hdepth := depthDiff_dir_file x hu hdirb
        rw [depthThen_ne (by rw [hdepth]; decide), hdepth, treeKey, treeKey, pathParts_file hdirb,
          pathParts_below hx hu]
        exact Agrees.head _ _ (Agrees.fst (agrees_dir_file desc) _ _)
      | true =>
        obtain ⟨y, v, hy, hv, rfl⟩ := exists_below hdirb
        obtain ⟨hx0, hu0⟩ := zero_not_mem_below ha
        obtain ⟨hy0, hv0⟩ := zero_not_mem_below hb
        rw [treeKey, treeKey, pathParts_below hx hu, pathParts_below hy hv]
        by_cases hxy : x = y
        · -- The same directory.
          subst hxy
          have hshorter : u.length < n := by
            rw [← hn, below, length_append, length_cons]
            omega
          have hrest := ih u.length hshorter hu0 hv0 (fun heq ↦ hne (heq ▸ rfl)) rfl
          rw [depthThen_shared h desc hx0 hu0 hv0 hu hv]
          exact hrest.cons _
        · -- Two directories.
          rw [depthThen_tie (depthDiff_below hx hy hxy hu hv), h.below x y u v hx hy hx0 hy0 hxy]
          have hdirs := h.agrees _ _ (zero_not_mem_dir hx0) (zero_not_mem_dir hy0)
            (mt below_injective_left hxy)
          exact Agrees.head _ _ (Agrees.snd _ hdirs)

end

/-! ## The two keys -/

/-- The key of a name. -/
def nameKey (numeric : Bool) (s : Bytes) : List ℤ :=
  stringKey (if numeric then .numeric else .off) (-2) s

theorem nameDiff_agrees (numeric : Bool) {x y : Bytes} (hx : 0 ∉ x) (hy : 0 ∉ y) (hne : x ≠ y) :
    Agrees (nameDiff numeric x y) (nameKey numeric x) (nameKey numeric y) := by
  have hsigned : (if numeric then SortNumeric.numeric else .off) ≠ .signed := by
    cases numeric <;> decide
  have hplain := @eltpcmp_plain _ hsigned ⟨x, false, fun _ ↦ hx⟩ ⟨y, false, fun _ ↦ hy⟩ rfl rfl
    fun heq ↦ hne (congrArg SortElt.cmp heq)
  exact hplain

/-- The name in the direction of its key; the buffer is sorted in reverse. -/
def nameDirected (numeric desc : Bool) (x y : Bytes) : ℤ := directed desc (nameDiff numeric y x)

theorem nameDirected_ascending (numeric : Bool) :
    ComparesParts (nameDirected numeric false) fun s ↦ OrderDual.toDual (nameKey numeric s) where
  agrees _ _ hx hy hne := (nameDiff_agrees numeric hy hx hne.symm).directed_false.dual
  shared _ _ _ hx hu hv := congrArg (directed false) (nameDiff_shared numeric hx hv hu)
  below _ _ u v hx hy _ hy0 hne :=
    congrArg (directed false) (nameDiff_below numeric hy hx hy0 hne.symm v u)

theorem nameDirected_descending (numeric : Bool) :
    ComparesParts (nameDirected numeric true) (nameKey numeric) where
  agrees _ _ hx hy hne := (nameDiff_agrees numeric hy hx hne.symm).directed_true
  shared _ _ _ hx hu hv := congrArg (directed true) (nameDiff_shared numeric hx hv hu)
  below _ _ u v hx hy _ hy0 hne :=
    congrArg (directed true) (nameDiff_below numeric hy hx hy0 hne.symm v u)

theorem depthDiff_self (a : Bytes) : depthDiff a a = 0 := by
  have hswap := depthDiff_swap a a
  omega

theorem depthThen_comparesKeys {κ : Type} [LinearOrder κ] {cmp : Bytes → Bytes → ℤ}
    {key : Bytes → κ} (h : ComparesParts cmp key) (hself : ∀ a, cmp a a = 0) (desc : Bool) :
    ComparesKeys (fun a b : CString ↦ depthThen desc cmp a.1 b.1) fun a ↦ treeKey desc key a.1 where
  refl a := (depthThen_tie (depthDiff_self a.1)).trans (hself a.1)
  agrees a b hne := treeKey_agrees h desc a.2 b.2 fun heq ↦ hne (Subtype.ext heq)

theorem nameDirected_self (numeric desc : Bool) (a : Bytes) : nameDirected numeric desc a a = 0 :=
  directed_eq_zero.mpr (nameDiff_self numeric a)

/-- Depth and name together are a linear order of the paths. -/
theorem depthThen_name (numeric desc desc' : Bool) :
    TotalPreorder (fun a b : CString ↦ depthThen desc (nameDirected numeric desc') a.1 b.1) ∧
      ∀ a b : CString, depthThen desc (nameDirected numeric desc') a.1 b.1 = 0 → a = b := by
  cases desc' with
  | false =>
    have h := depthThen_comparesKeys (nameDirected_ascending numeric) (nameDirected_self _ _) desc
    exact ⟨h.totalPreorder, fun _ _ ↦ h.eq_of_zero⟩
  | true =>
    have h := depthThen_comparesKeys (nameDirected_descending numeric) (nameDirected_self _ _) desc
    exact ⟨h.totalPreorder, fun _ _ ↦ h.eq_of_zero⟩

end Bsh.Shell

/-!
# Which files pass the glob qualifiers

The list that `zglob` builds has one alternative for each choice of an alternative from every group.
`insert` tries them one after the other, so that a file passes exactly when every group has an
alternative all of whose tests it meets.
-/

namespace Bsh.Shell

open Bsh.Library List

variable {σ : Type} {isLink : σ → Bool} {f : GlobFile σ} {buf : σ}

/-! ## What a test asks for -/

/-- The file meets the test: the function is true, or false for a test behind `^`, of the file or,
behind `-`, of what it links to. -/
def Qual.Accepts (isLink : σ → Bool) (q : Qual σ) (f : GlobFile σ) (buf : σ) : Prop :=
  let bp := if q.sense.testBit 1 then f.buf2 isLink buf else buf
  q.func q.setting f.name bp q.data q.sdata ≠ 0 ↔ q.sense.testBit 0 = false

theorem Qual.rejects_eq_false (q : Qual σ) :
    q.rejects isLink f buf = false ↔ q.Accepts isLink f buf := by
  have hfollow : q.sense &&& 2 ≠ 0 ↔ q.sense.testBit 1 = true := by
    have h : q.sense &&& 2 = (q.sense.testBit 1).toNat * 2 := Nat.and_two_pow q.sense 1
    rw [h]
    cases q.sense.testBit 1 <;> decide
  have hbit (n : ℕ) : n &&& 1 = (n.testBit 0).toNat := by
    have h : n &&& 1 = (n.testBit 0).toNat * 1 := Nat.and_two_pow n 0
    rw [h, Nat.mul_one]
  rw [Qual.rejects, Qual.Accepts]
  simp only [hfollow, hbit, Nat.testBit_xor]
  by_cases hfunc : q.func q.setting f.name
      (if q.sense.testBit 1 = true then f.buf2 isLink buf else buf) q.data q.sdata = 0
  · cases q.sense.testBit 0 <;> simp [hfunc]
  · cases q.sense.testBit 0 <;> simp [hfunc]

/-! ## The walk of `insert` -/

/-- The file meets all tests of some alternative. -/
def passesSome (isLink : σ → Bool) (f : GlobFile σ) (buf : σ) (alts : List (List (Qual σ))) : Bool :=
  alts.any fun tests ↦ tests.all fun q ↦ !q.rejects isLink f buf

theorem passesSome_iff (alts : List (List (Qual σ))) :
    passesSome isLink f buf alts = true ↔ ∃ tests ∈ alts, ∀ q ∈ tests, q.Accepts isLink f buf := by
  simp only [passesSome, any_eq_true, all_eq_true, Bool.not_eq_true',
    Qual.rejects_eq_false]

/-- From the middle of an alternative the walk goes through what is left of it, and from a test that
fails to the next alternative. -/
theorem walk_spec {s : QualHeap σ} {more : List (QualRow σ)} {rest : List (ℕ × Option (Qual σ))}
    {tests : List (Qual σ)} {alts : List (List (Qual σ))} {a turns : ℕ}
    (hrest : Linked s.cell rest none) (hmore : Rows s.cell s.or more none)
    (hor : s.getOr a = some (firstRow more none)) (htests : rest.map Prod.snd = testNodes tests)
    (halts : more.map Row.vals = alts.map testNodes)
    (hturns : rest.length + (addrsOf more).length ≤ turns) :
    Quals.walk isLink s f buf turns a (firstOr rest none) =
      some (passesSome isLink f buf (tests :: alts)) := by
  induction turns generalizing rest more tests alts a with
  | zero =>
    obtain rfl : rest = [] := List.length_eq_zero_iff.mp (by omega)
    obtain rfl : tests = [] := List.map_eq_nil_iff.mp htests.symm
    rfl
  | succ turns ih =>
    cases rest with
    | nil =>
      obtain rfl : tests = [] := List.map_eq_nil_iff.mp htests.symm
      rfl
    | cons x rest =>
      obtain ⟨b, v⟩ := x
      cases tests with
      | nil => exact absurd htests (cons_ne_nil _ _)
      | cons q tests =>
        rw [testNodes, map_cons, map_cons, List.cons.injEq] at htests
        obtain ⟨rfl, htests⟩ := htests
        rw [length_cons] at hturns
        rw [firstOr_cons, Quals.walk, hrest.1]
        dsimp only [Option.bind_eq_bind, Option.bind_some]
        cases hq : q.rejects isLink f buf with
        | false =>
          have hpass : passesSome isLink f buf ((q :: tests) :: alts) =
              passesSome isLink f buf (tests :: alts) := by
            rw [passesSome, passesSome, any_cons, any_cons, List.all_cons, hq,
              Bool.not_false, Bool.true_and]
          rw [if_neg Bool.false_ne_true, hpass]
          exact ih hrest.2 hmore hor htests halts (by omega)
        | true =>
          have hpass : passesSome isLink f buf ((q :: tests) :: alts) =
              passesSome isLink f buf alts := by
            rw [passesSome, passesSome, any_cons, List.all_cons, hq, Bool.not_true,
              Bool.false_and, Bool.false_or]
          rw [if_pos rfl, hor, Option.bind_some, hpass]
          cases more with
          | nil =>
            obtain rfl : alts = [] := List.map_eq_nil_iff.mp halts.symm
            rfl
          | cons row more =>
            cases alts with
            | nil => exact absurd halts (cons_ne_nil _ _)
            | cons tests' alts =>
              rw [map_cons, map_cons, List.cons.injEq] at halts
              have hnext : s.getOr row.addr = some (firstRow more none) := by
                rw [QualHeap.getOr, hmore.1.1, Option.map_some, hmore.2.1]
              have hlen : row.cells.length = row.addrs.length := (length_map _).symm
              rw [addrsOf_cons, length_append] at hturns
              exact ih hmore.1 hmore.2.2 hnext halts.1 halts.2 (by omega)

/-! ## The list of all groups -/

/-- The alternatives of the merged list. -/
def joined {α : Type} (news olds : List (List α)) : List (List α) :=
  match olds with
  | [] => news
  | old :: olds => QualHeap.pairs news (old :: olds)

/-- One alternative for each choice of an alternative from every group. -/
def combined (groups : List (List (QualItem σ))) : List (List (Qual σ)) :=
  groups.foldr (fun items olds ↦ joined (alternatives items) olds) []

theorem alternatives_ne_nil (items : List (QualItem σ)) : alternatives items ≠ [] := by
  rw [alternatives, Ne, map_eq_nil_iff]
  exact splitOnP_ne_nil _ _

theorem map_filled_pairs (news olds : List (List (Qual σ))) :
    (QualHeap.pairs news olds).map testNodes = QualHeap.pairs (news.map testNodes) (olds.map testNodes) := by
  simp only [QualHeap.pairs, map_flatMap, flatMap_map, map_map, Function.comp_def,
    testNodes, map_append]

theorem passesSome_pairs (news olds : List (List (Qual σ))) :
    passesSome isLink f buf (QualHeap.pairs news olds) =
      (passesSome isLink f buf news && passesSome isLink f buf olds) := by
  rw [Bool.eq_iff_iff, Bool.and_eq_true]
  simp only [passesSome, QualHeap.pairs, any_eq_true, mem_flatMap, mem_map]
  constructor
  · rintro ⟨_, ⟨new, hnew, old, hold, rfl⟩, hall⟩
    rw [all_append, Bool.and_eq_true] at hall
    exact ⟨⟨new, hnew, hall.1⟩, old, hold, hall.2⟩
  · rintro ⟨⟨new, hnew, hall⟩, old, hold, hall'⟩
    refine ⟨new ++ old, ⟨new, hnew, old, hold, rfl⟩, ?_⟩
    rw [all_append, hall, hall']
    rfl

/-- The list in memory has these alternatives, with no node in two of them. -/
def Quals.Spells (q : Quals σ) (alts : List (List (Qual σ))) : Prop :=
  ∃ rows, q.heap.Holds rows ∧ q.quals = firstRow rows none ∧
    rows.map Row.vals = alts.map testNodes

theorem Quals.group_spec {q : Quals σ} {olds : List (List (Qual σ))} (h : q.Spells olds)
    {items : List (QualItem σ)} (hitems : ∀ tests ∈ alternatives items, tests ≠ []) :
    ∃ q', q.group items = some q' ∧ q'.Spells (joined (alternatives items) olds) ∧
      q'.qualct ≠ 0 := by
  obtain ⟨rows, hrows, hquals, holds⟩ := h
  obtain ⟨p, news, hp, hnews, hlower, hnew, hct, hvals, hnne, hkeeps⟩ :=
    read_group q.heap q.qualct q.qualorct hitems
  have hrows' := hkeeps.holds hrows hrows.bound
  rw [Quals.group, hp]
  dsimp only [Option.bind_eq_bind, Option.bind_some]
  rw [hnew, hquals]
  cases olds with
  | nil =>
    obtain rfl : rows = [] := List.map_eq_nil_iff.mp holds
    obtain ⟨new, news, rfl⟩ := exists_cons_of_ne_nil hnne
    exact ⟨_, rfl, ⟨_, hnews, rfl, hvals⟩, hct⟩
  | cons old olds =>
    have hone : rows ≠ [] := by
      rintro rfl
      exact cons_ne_nil _ _ holds.symm
    have hdisj : ∀ a ∈ addrsOf news, ∀ b ∈ addrsOf rows, a ≠ b := fun a ha b hb ↦
      ((hrows.bound b hb).trans_le (hlower a ha)).ne'
    obtain ⟨t, all, ht, hall, -, hpairs⟩ := QualHeap.merge_spec hnews hrows' hdisj hnne hone
    rw [ht]
    refine ⟨_, rfl, ⟨all, hall, rfl, ?_⟩, hct⟩
    rw [hpairs, hvals, holds, joined, map_filled_pairs]

theorem Quals.zglob_spec {groups : List (List (QualItem σ))}
    (h : ∀ items ∈ groups, ∀ tests ∈ alternatives items, tests ≠ []) :
    ∃ q, Quals.zglob groups = some q ∧ q.Spells (combined groups) ∧
      (groups = [] ∧ q.qualct = 0 ∧ q.qualorct = 0 ∨ groups ≠ [] ∧ q.qualct ≠ 0) := by
  induction groups with
  | nil =>
    have hempty : QualHeap.Holds (σ := σ) .initial [] := ⟨trivial, nodup_nil, nofun⟩
    exact ⟨_, rfl, ⟨[], hempty, rfl, rfl⟩, .inl ⟨rfl, rfl, rfl⟩⟩
  | cons items groups ih =>
    obtain ⟨q, hq, hspells, -⟩ := ih fun x hx ↦ h x (mem_cons_of_mem _ hx)
    obtain ⟨q', hq', hspells', hct⟩ := Quals.group_spec hspells (h items mem_cons_self)
    refine ⟨q', ?_, hspells', .inr ⟨cons_ne_nil _ _, hct⟩⟩
    rw [Quals.zglob] at hq ⊢
    rw [reverse_cons, foldlM_append, hq]
    dsimp only [Option.bind_eq_bind, Option.bind_some]
    rw [foldlM_cons, hq']
    rfl

theorem joined_ne_nil {α : Type} {news : List (List α)} (hnews : news ≠ [])
    (olds : List (List α)) : joined news olds ≠ [] := by
  obtain ⟨new, news, rfl⟩ := exists_cons_of_ne_nil hnews
  cases olds with
  | nil => exact hnews
  | cons old olds => exact cons_ne_nil _ _

/-- A file meets some choice when it meets an alternative of every group. -/
theorem passesSome_combined (groups : List (List (QualItem σ))) (hne : groups ≠ []) :
    passesSome isLink f buf (combined groups) = true ↔
      ∀ items ∈ groups, passesSome isLink f buf (alternatives items) = true := by
  induction groups with
  | nil => exact absurd rfl hne
  | cons items groups ih =>
    rw [combined, foldr_cons, ← combined, forall_mem_cons]
    cases groups with
    | nil => simp [combined, joined]
    | cons next groups =>
      have hold : combined (next :: groups) ≠ [] := joined_ne_nil (alternatives_ne_nil next) _
      obtain ⟨old, olds, hcombined⟩ := exists_cons_of_ne_nil hold
      rw [← ih (cons_ne_nil _ _), hcombined, joined, passesSome_pairs, Bool.and_eq_true]

/-! ## Which files pass -/

/-- The walk of `insert` over a list in memory. -/
theorem Quals.insert_spec {q : Quals σ} {alts : List (List (Qual σ))} (h : q.Spells alts)
    (hne : alts ≠ []) (hct : q.qualct ≠ 0) (hfile : f.buf = some buf) (marked checked : Bool) :
    q.insert isLink marked checked f = some (passesSome isLink f buf alts) := by
  obtain ⟨rows, hrows, hquals, hvals⟩ := h
  obtain ⟨tests, alts, rfl⟩ := exists_cons_of_ne_nil hne
  have hone : rows ≠ [] := by
    rintro rfl
    exact cons_ne_nil _ _ hvals.symm
  obtain ⟨row, rows, rfl⟩ := exists_cons_of_ne_nil hone
  rw [map_cons, map_cons, List.cons.injEq] at hvals
  have hstrung := hrows.strung
  have hor : q.heap.getOr row.addr = some (firstRow rows none) := by
    rw [QualHeap.getOr, hstrung.1.1, Option.map_some, hstrung.2.1]
  have hturns : row.cells.length + (addrsOf rows).length ≤ q.heap.fresh := by
    have hlen := length_le_of_lt hrows.nodup hrows.bound
    rw [addrsOf_cons, length_append, Row.addrs, length_map] at hlen
    exact hlen
  have hmarked : ¬(marked && f.buf.isNone) = true := by
    rw [hfile, Option.isNone_some, Bool.and_false]
    exact Bool.false_ne_true
  rw [Quals.insert, if_neg hmarked, if_pos (.inl hct), hfile, hquals, firstRow_cons]
  exact walk_spec hstrung.1 hstrung.2.2 hor hvals.1 hvals.2 hturns

/-- For groups without an empty alternative, `zglob` builds the list of all choices, and a file there
is passes the walk of `insert` exactly when in every group it meets all tests of some alternative. -/
theorem Quals.zglob_insert_iff (isLink : σ → Bool) (groups : List (List (QualItem σ)))
    (h : ∀ items ∈ groups, ∀ tests ∈ alternatives items, tests ≠ []) :
    ∃ q, Quals.zglob groups = some q ∧ q.Spells (combined groups) ∧
      ∀ (f : GlobFile σ) (buf : σ) (marked checked : Bool), f.buf = some buf → f.present = true →
        ∃ passed, q.insert isLink marked checked f = some passed ∧
          (passed = true ↔
            ∀ items ∈ groups, ∃ tests ∈ alternatives items, ∀ t ∈ tests, t.Accepts isLink f buf) := by
  obtain ⟨q, hq, hspells, hct⟩ := Quals.zglob_spec h
  refine ⟨q, hq, hspells, fun f buf marked checked hfile hpresent ↦ ?_⟩
  rcases hct with ⟨rfl, hct, horct⟩ | ⟨hne, hct⟩
  · refine ⟨true, ?_, fun _ ↦ nofun, fun _ ↦ rfl⟩
    have hmarked : ¬(marked && f.buf.isNone) = true := by
      rw [hfile, Option.isNone_some, Bool.and_false]
      exact Bool.false_ne_true
    have hnone : ¬(q.qualct ≠ 0 ∨ q.qualorct ≠ 0) := by
      rw [hct, horct]
      decide
    rw [Quals.insert, if_neg hmarked, if_neg hnone, hpresent, Bool.or_true]
  · obtain ⟨items, groups, rfl⟩ := exists_cons_of_ne_nil hne
    have hcombined : combined (items :: groups) ≠ [] := joined_ne_nil (alternatives_ne_nil items) _
    refine ⟨_, Quals.insert_spec hspells hcombined hct hfile marked checked, ?_⟩
    rw [passesSome_combined _ hne]
    exact forall₂_congr fun items _ ↦ passesSome_iff _

/-- A qualifier that asks for a size, and the groups `(s1,^s2)(s3,s4)` of such qualifiers. -/
def sizeItem (size : ℤ) : QualItem ℤ :=
  .test (fun _ _ st data _ ↦ if st = data then 1 else 0) size none ⟨0, 0, 0⟩

theorem zglob_insert_iff_sizes :
    ∃ q, Quals.zglob [[sizeItem 1, .comma, .negate, sizeItem 2], [sizeItem 3, .comma, sizeItem 4]] =
        some q ∧
      q.Spells (combined [[sizeItem 1, .comma, .negate, sizeItem 2],
        [sizeItem 3, .comma, sizeItem 4]]) ∧
      ∃ passed, q.insert (fun _ ↦ false) false false ⟨[], some 3, some 3, true⟩ = some passed ∧
        (passed = true ↔ ∀ items ∈ [[sizeItem 1, .comma, .negate, sizeItem 2],
          [sizeItem 3, .comma, sizeItem 4]], ∃ tests ∈ alternatives items, ∀ t ∈ tests,
            t.Accepts (fun _ ↦ false) ⟨[], some 3, some 3, true⟩ 3) := by
  obtain ⟨q, hq, hspells, hall⟩ := Quals.zglob_insert_iff (fun _ ↦ false)
    _ (by
      intro items hitems tests htests
      have hfirst : alternatives [sizeItem 1, .comma, .negate, sizeItem 2] =
          [testsOf 0 [sizeItem 1], testsOf 0 [.negate, sizeItem 2]] := rfl
      have hsecond : alternatives [sizeItem 3, .comma, sizeItem 4] =
          [testsOf 0 [sizeItem 3], testsOf 0 [sizeItem 4]] := rfl
      rw [mem_pair] at hitems
      rcases hitems with rfl | rfl
      · rw [hfirst, mem_pair] at htests
        rcases htests with rfl | rfl <;> exact cons_ne_nil _ _
      · rw [hsecond, mem_pair] at htests
        rcases htests with rfl | rfl <;> exact cons_ne_nil _ _)
  exact ⟨q, hq, hspells, hall _ 3 false false rfl rfl⟩

end Bsh.Shell
