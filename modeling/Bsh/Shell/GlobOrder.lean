import Bsh.Shell.GlobTree

/-!
# When the matches of a glob can be sorted

`gmatchcmp` takes its keys one by one, each for the matches that tie by the keys before it.  Every
key but the depth compares matches by a number or by a string.  The depth is such a key only together
with the name: behind the name it finds no ties, and in front of the name the two are an order.  With
anything else behind it, or nothing, three paths are enough to go round in a circle.
-/

namespace Bsh.Shell

open Bsh.Library List

/-! ## Specifications and records -/

/-- A key that subtracts times. -/
def GlobKey.isTime : GlobKey → Bool
  | atime _ | mtime _ | ctime _ => true
  | _ => false

/-- The sort specifiers that `zglob` accepts: only a key by shell code may occur twice. -/
structure SortSpec where
  sortlist : List GlobSort
  nodup : ((sortlist.map GlobSort.key).filter (· ≠ .exec)).Nodup

namespace SortSpec

variable (spec : SortSpec)

/-- The keys that compare anything. -/
def effective : List GlobSort := spec.sortlist.filter (·.key ≠ .none)

/-- A depth key stands behind the name or directly in front of it. -/
def DepthFine : Prop :=
  ∀ front desc back, spec.effective = front ++ ⟨.depth, desc⟩ :: back →
    (∃ s ∈ front, s.key = .name) ∨ back.head?.map GlobSort.key = some .name

def NoTimes : Prop := ∀ s ∈ spec.sortlist, s.key.isTime = false

end SortSpec

/-- The fields of a match are those of a file. -/
structure MatchStat.Fits (st : MatchStat) : Prop where
  size : 0 ≤ st.size ∧ st.size < 2 ^ 63
  links : 0 ≤ st.links ∧ st.links < 2 ^ 63
  ansec : 0 ≤ st.ansec ∧ st.ansec < 10 ^ 9
  mnsec : 0 ≤ st.mnsec ∧ st.mnsec < 10 ^ 9
  cnsec : 0 ≤ st.cnsec ∧ st.cnsec < 10 ^ 9
  atime : -2 ^ 63 ≤ st.atime ∧ st.atime < 2 ^ 63
  mtime : -2 ^ 63 ≤ st.mtime ∧ st.mtime < 2 ^ 63
  ctime : -2 ^ 63 ≤ st.ctime ∧ st.ctime < 2 ^ 63

/-- Records of matches, with a string for each key by shell code. -/
structure RecordsFit (l : List Gmatch) : Prop where
  stat : ∀ m ∈ l, ∀ linked, (m.stat linked).Fits
  sortstrs : ∀ a ∈ l, ∀ b ∈ l, a.sortstrs.length = b.sortstrs.length

/-- A difference that a `long` holds. -/
def DiffFits (x y : ℤ) : Prop := -2 ^ 63 ≤ x - y ∧ x - y < 2 ^ 63

/-- The times of the matches are not further apart than a `long` holds. -/
def TimesFit (l : List Gmatch) : Prop :=
  ∀ a ∈ l, ∀ b ∈ l, ∀ linked, DiffFits (a.stat linked).atime (b.stat linked).atime ∧
    DiffFits (a.stat linked).mtime (b.stat linked).mtime ∧
    DiffFits (a.stat linked).ctime (b.stat linked).ctime

/-- A directory above a path. -/
def Above (dir path : Bytes) : Prop :=
  ∃ rest, rest ≠ [] ∧ (path = below dir rest ∨ dir.getLast? = some (char '/') ∧ path = dir ++ rest)

/-- What the sort of the matches relies on and is for: `gmatchcmp` is a total preorder, and when the
depth comes first, every path stands in front of the directories above it. -/
structure SortsMatches (spec : SortSpec) (numsort : Bool) (l : List Gmatch) : Prop where
  preorder : SortsList (gmatchcmp numsort spec.sortlist) l
  depthFirst : spec.sortlist.head? = some ⟨.depth, false⟩ →
    ∀ qsort : QSort Gmatch, (qsort.sort (gmatchcmp numsort spec.sortlist) l).reverse.Pairwise
      fun a b ↦ ¬ Above a.uname.1 b.uname.1

/-! ## One key -/

theorem toZlong_of_fits {n : ℤ} (h : -2 ^ 63 ≤ n ∧ n < 2 ^ 63) : toZlong n = n :=
  Int.bmod_eq_of_le (by omega) (by omega)

theorem gmatchcmpFrom_cons (numsort : Bool) (execs : ℕ) (s : GlobSort) (sortlist : List GlobSort)
    (a b : Gmatch) :
    gmatchcmpFrom numsort execs (s :: sortlist) a b =
      thenCompare (fun a b ↦ directed s.desc (s.key.diff numsort execs a b))
        (gmatchcmpFrom numsort (if s.key = .exec then execs + 1 else execs) sortlist) a b := by
  have hcond : (fun a b ↦ directed s.desc (s.key.diff numsort execs a b)) a b ≠ 0 ↔
      s.key.diff numsort execs a b ≠ 0 := not_congr directed_eq_zero
  rw [gmatchcmpFrom, thenCompare]
  simp only [hcond]
  split
  · next hne =>
    unfold directed
    split
    · split
      · next hneg => rw [Int.sign_eq_neg_one_of_neg hneg]; rfl
      · next hneg => rw [Int.sign_eq_one_of_pos (by omega)]
    · split
      · next hpos => rw [Int.sign_eq_one_of_pos hpos]
      · next hpos => rw [Int.sign_eq_neg_one_of_neg (by omega)]
  · rfl

section

variable {α : Type} (f : α → Gmatch) (numsort : Bool) (execs : ℕ)

theorem zstrcmp_totalPreorder (g : α → CString) :
    TotalPreorder fun a b ↦ zstrcmp numsort (g b) (g a) := by
  have hsigned : (if numsort then SortNumeric.numeric else .off) ≠ .signed := by
    cases numsort <;> decide
  have h := @eltpcmp_totalPreorder ⟨false, if numsort then .numeric else .off, false⟩ hsigned rfl
  exact (h.comap _).flip

theorem timeDiff_totalPreorder (time nsec : α → ℤ) (htime : ∀ a b, DiffFits (time a) (time b))
    (hnsec : ∀ a, 0 ≤ nsec a ∧ nsec a < 10 ^ 9) :
    TotalPreorder fun a b ↦ timeDiff (time a) (time b) (nsec a) (nsec b) := by
  have heq : (fun a b ↦ timeDiff (time a) (time b) (nsec a) (nsec b)) =
      thenCompare (fun a b ↦ time a - time b) fun a b ↦ nsec a - nsec b := by
    funext a b
    have hfits := htime a b
    have hna := hnsec a
    have hnb := hnsec b
    rw [timeDiff, thenCompare, toZlong_of_fits hfits, toZlong_of_fits (by omega)]
    by_cases hzero : time a - time b = 0
    · rw [if_pos hzero, if_neg (not_not.mpr hzero)]
    · rw [if_neg hzero, if_pos hzero]
  rw [heq]
  apply PreorderWithin.total
  apply PreorderWithin.then ⟨fun _ ↦ trivial, fun _ ↦ trivial, fun _ _ ↦ trivial⟩
  · exact (totalPreorder_sub time).within _
  · exact (totalPreorder_sub nsec).within _

/-- Every key but the depth is a total preorder. -/
theorem diff_totalPreorder {key : GlobKey} (hdepth : key ≠ .depth)
    (hstat : ∀ a linked, ((f a).stat linked).Fits)
    (hstrs : ∀ a b, (f a).sortstrs.length = (f b).sortstrs.length)
    (htimes : key.isTime = true → ∀ a b linked,
      DiffFits ((f a).stat linked).atime ((f b).stat linked).atime ∧
      DiffFits ((f a).stat linked).mtime ((f b).stat linked).mtime ∧
      DiffFits ((f a).stat linked).ctime ((f b).stat linked).ctime) :
    TotalPreorder fun a b ↦ key.diff numsort execs (f a) (f b) := by
  cases key with
  | name => exact zstrcmp_totalPreorder numsort _
  | depth => exact absurd rfl hdepth
  | exec =>
    by_cases hall : ∀ a, execs < (f a).sortstrs.length
    · have heq : (fun a b ↦ GlobKey.exec.diff numsort execs (f a) (f b)) = fun a b ↦
          zstrcmp numsort ((f b).sortstrs.get ⟨execs, hall b⟩)
            ((f a).sortstrs.get ⟨execs, hall a⟩) := by
        funext a b
        rw [GlobKey.diff, List.getElem?_eq_getElem (hall a), List.getElem?_eq_getElem (hall b)]
        rfl
      rw [heq]
      exact zstrcmp_totalPreorder numsort _
    · obtain ⟨c, hc⟩ := not_forall.mp hall
      have heq : (fun a b ↦ GlobKey.exec.diff numsort execs (f a) (f b)) = fun _ _ ↦ 0 := by
        funext a b
        have hshort : (f a).sortstrs.length ≤ execs := hstrs a c ▸ not_lt.mp hc
        rw [GlobKey.diff, List.getElem?_eq_none hshort]
      rw [heq]
      exact totalPreorder_zero
  | size linked =>
    have heq : (fun a b ↦ (GlobKey.size linked).diff numsort execs (f a) (f b)) = fun a b ↦
        ((f b).stat linked).size - ((f a).stat linked).size := by
      funext a b
      have ha := (hstat a linked).size
      have hb := (hstat b linked).size
      exact toZlong_of_fits (by omega)
    rw [heq]
    exact (totalPreorder_sub _).flip
  | links linked =>
    have heq : (fun a b ↦ (GlobKey.links linked).diff numsort execs (f a) (f b)) = fun a b ↦
        ((f b).stat linked).links - ((f a).stat linked).links := by
      funext a b
      have ha := (hstat a linked).links
      have hb := (hstat b linked).links
      exact toZlong_of_fits (by omega)
    rw [heq]
    exact (totalPreorder_sub _).flip
  | atime linked =>
    exact timeDiff_totalPreorder _ _ (fun a b ↦ (htimes rfl a b linked).1)
      fun a ↦ (hstat a linked).ansec
  | mtime linked =>
    exact timeDiff_totalPreorder _ _ (fun a b ↦ (htimes rfl a b linked).2.1)
      fun a ↦ (hstat a linked).mnsec
  | ctime linked =>
    exact timeDiff_totalPreorder _ _ (fun a b ↦ (htimes rfl a b linked).2.2)
      fun a ↦ (hstat a linked).cnsec
  | none => exact totalPreorder_zero

end

/-! ## All keys -/

theorem gmatchcmpFrom_effective (numsort : Bool) (execs : ℕ) (sortlist : List GlobSort)
    (a b : Gmatch) :
    gmatchcmpFrom numsort execs sortlist a b =
      gmatchcmpFrom numsort execs (sortlist.filter (·.key ≠ .none)) a b := by
  induction sortlist generalizing execs with
  | nil => rfl
  | cons s sortlist ih =>
    by_cases hnone : s.key = .none
    · have hskip : gmatchcmpFrom numsort execs (s :: sortlist) a b =
          gmatchcmpFrom numsort execs sortlist a b := by
        have hdiff : s.key.diff numsort execs a b = 0 := by rw [hnone]; rfl
        have hexec : s.key ≠ .exec := by rw [hnone]; decide
        rw [gmatchcmpFrom, hdiff, if_neg (not_not.mpr rfl), if_neg hexec]
      rw [hskip, ih, filter_cons_of_neg (by simpa using hnone)]
    · rw [filter_cons_of_pos (by simpa using hnone), gmatchcmpFrom_cons, gmatchcmpFrom_cons,
        thenCompare, thenCompare, ih]

section

variable {α : Type} (f : α → Gmatch) (numsort : Bool)

/-- What the keys of a list need of the records. -/
def RecordsServe (sortlist : List GlobSort) : Prop :=
  ∀ s ∈ sortlist, s.key ≠ .depth → ∀ execs,
    TotalPreorder fun a b ↦ s.key.diff numsort execs (f a) (f b)

variable {f numsort}

theorem within_cons {R : α → α → Prop} (hR : Equivalence R) {s : GlobSort}
    {sortlist : List GlobSort} {execs : ℕ}
    (hkey : PreorderWithin R fun a b ↦ directed s.desc (s.key.diff numsort execs (f a) (f b)))
    (hrest : PreorderWithin
      (fun a b ↦ R a b ∧ directed s.desc (s.key.diff numsort execs (f a) (f b)) = 0)
      fun a b ↦ gmatchcmpFrom numsort (if s.key = .exec then execs + 1 else execs) sortlist
        (f a) (f b)) :
    PreorderWithin R fun a b ↦ gmatchcmpFrom numsort execs (s :: sortlist) (f a) (f b) := by
  have heq : (fun a b ↦ gmatchcmpFrom numsort execs (s :: sortlist) (f a) (f b)) =
      thenCompare (fun a b ↦ directed s.desc (s.key.diff numsort execs (f a) (f b)))
        fun a b ↦ gmatchcmpFrom numsort (if s.key = .exec then execs + 1 else execs) sortlist
          (f a) (f b) := by
    funext a b
    rw [gmatchcmpFrom_cons]
    rfl
  rw [heq]
  exact hkey.then hR hrest

/-- Among matches of one name every list of keys is a preorder. -/
theorem within_named (sortlist : List GlobSort) (hserve : RecordsServe f numsort sortlist)
    {R : α → α → Prop} (hR : Equivalence R) (hname : ∀ a b, R a b → (f a).uname = (f b).uname)
    (execs : ℕ) :
    PreorderWithin R fun a b ↦ gmatchcmpFrom numsort execs sortlist (f a) (f b) := by
  induction sortlist generalizing R execs with
  | nil => exact totalPreorder_zero.within R
  | cons s sortlist ih =>
    have hkey : PreorderWithin R
        fun a b ↦ directed s.desc (s.key.diff numsort execs (f a) (f b)) := by
      apply PreorderWithin.directed hR
      by_cases hdepth : s.key = .depth
      · have hzero (a b : α) (hab : R a b) : s.key.diff numsort execs (f a) (f b) = 0 := by
          have hsame : (f a).name = (f b).name :=
            congrArg (fun u : CString ↦ metafied u.1) (hname a b hab)
          rw [hdepth]
          change depthDiff (f a).name (f b).name = 0
          rw [hsame, depthDiff_self]
        constructor
        · exact fun a ↦ hzero a a (hR.refl a)
        · intro a b hab
          rw [hzero a b hab, hzero b a (hR.symm hab)]
        · intro a b c hab hbc _ _
          exact (hzero a c (hR.trans hab hbc)).le
      · exact (hserve s mem_cons_self hdepth execs).within R
    apply within_cons hR hkey
    exact ih (fun s' hs' ↦ hserve s' (mem_cons_of_mem _ hs')) (hkey.tie_equivalence hR)
      (fun a b hab ↦ hname a b hab.1) _

/-- A depth key stands behind the name or directly in front of it. -/
def FineFrom (sortlist : List GlobSort) : Prop :=
  ∀ front desc back, sortlist = front ++ ⟨.depth, desc⟩ :: back →
    (∃ s ∈ front, s.key = .name) ∨ back.head?.map GlobSort.key = some .name

theorem FineFrom.tail {s : GlobSort} {sortlist : List GlobSort} (h : FineFrom (s :: sortlist))
    (hs : s.key ≠ .name) : FineFrom sortlist := by
  intro front desc back hsplit
  obtain ⟨s', hs', hname⟩ | hhead := h (s :: front) desc back (congrArg (s :: ·) hsplit)
  · obtain rfl | hmem := List.mem_cons.mp hs'
    · exact absurd hname hs
    · exact .inl ⟨s', hmem, hname⟩
  · exact .inr hhead

theorem name_tie {desc : Bool} {execs : ℕ} {a b : Gmatch}
    (h : directed desc (GlobKey.name.diff numsort execs a b) = 0) : a.uname = b.uname := by
  have hzero : nameDiff numsort b.uname.1 a.uname.1 = 0 := directed_eq_zero.mp h
  by_contra hne
  have hagrees := nameDiff_agrees numsort b.uname.2 a.uname.2 fun heq ↦ hne (Subtype.ext heq.symm)
  rw [hzero] at hagrees
  obtain ⟨hlt, -⟩ | ⟨hlt, -⟩ := hagrees
  · exact lt_irrefl _ hlt
  · exact lt_irrefl _ hlt

theorem gmatchcmpFrom_depth_name (desc desc' : Bool) (execs : ℕ) (sortlist : List GlobSort)
    (a b : Gmatch) :
    gmatchcmpFrom numsort execs (⟨.depth, desc⟩ :: ⟨.name, desc'⟩ :: sortlist) a b =
      thenCompare (fun a b ↦ depthThen desc (nameDirected numsort desc') a.uname.1 b.uname.1)
        (gmatchcmpFrom numsort execs sortlist) a b := by
  have hdepth (a b : Gmatch) : GlobKey.depth.diff numsort execs a b =
      depthDiff a.uname.1 b.uname.1 := depthDiff_metafied a.uname.1 b.uname.1
  have hboth : (fun a b : Gmatch ↦ depthThen desc (nameDirected numsort desc') a.uname.1 b.uname.1) =
      thenCompare (fun a b ↦ directed desc (GlobKey.depth.diff numsort execs a b))
        fun a b ↦ directed desc' (GlobKey.name.diff numsort execs a b) := by
    simp only [hdepth]
    rfl
  rw [hboth, ← thenCompare_assoc, gmatchcmpFrom_cons]
  unfold thenCompare
  rw [gmatchcmpFrom_cons]
  rfl

theorem within_fine (sortlist : List GlobSort) (hserve : RecordsServe f numsort sortlist)
    (hfine : FineFrom sortlist) {R : α → α → Prop} (hR : Equivalence R) (execs : ℕ) :
    PreorderWithin R fun a b ↦ gmatchcmpFrom numsort execs sortlist (f a) (f b) := by
  induction sortlist generalizing R execs with
  | nil => exact totalPreorder_zero.within R
  | cons s sortlist ih =>
    have hserve' : RecordsServe f numsort sortlist :=
      fun s' hs' ↦ hserve s' (mem_cons_of_mem _ hs')
    by_cases hdepth : s.key = .depth
    · -- The depth and the name are one key.
      obtain ⟨key, desc⟩ := s
      obtain rfl : key = .depth := hdepth
      obtain ⟨_, hmem, _⟩ | hhead := hfine [] desc sortlist rfl
      · exact absurd hmem not_mem_nil
      · obtain ⟨⟨key', desc'⟩, rest, rfl, hkey'⟩ : ∃ s' rest, sortlist = s' :: rest ∧
            s'.key = .name := by
          cases sortlist with
          | nil => cases hhead
          | cons s' rest => exact ⟨s', rest, rfl, Option.some.inj hhead⟩
        obtain rfl : key' = .name := hkey'
        obtain ⟨htotal, hties⟩ := depthThen_name numsort desc desc'
        have hkey := (htotal.comap fun a ↦ (f a).uname).within R
        have heq : (fun a b ↦ gmatchcmpFrom numsort execs
            (⟨.depth, desc⟩ :: ⟨.name, desc'⟩ :: rest) (f a) (f b)) =
            thenCompare (fun a b ↦ depthThen desc (nameDirected numsort desc') (f a).uname.1
              (f b).uname.1) fun a b ↦ gmatchcmpFrom numsort execs rest (f a) (f b) := by
          funext a b
          rw [gmatchcmpFrom_depth_name]
          rfl
        rw [heq]
        apply PreorderWithin.then hR hkey
        apply within_named rest _ (hkey.tie_equivalence hR)
        · exact fun a b hab ↦ hties _ _ hab.2
        · exact fun s' hs' ↦ hserve' s' (mem_cons_of_mem _ hs')
    · have hkey : PreorderWithin R
          fun a b ↦ directed s.desc (s.key.diff numsort execs (f a) (f b)) :=
        PreorderWithin.directed hR ((hserve s mem_cons_self hdepth execs).within R) s.desc
      apply within_cons hR hkey
      have htie := hkey.tie_equivalence hR
      by_cases hname : s.key = .name
      · apply within_named sortlist hserve' htie
        intro a b hab
        have hzero := hab.2
        rw [hname] at hzero
        exact name_tie hzero
      · exact ih hserve' (hfine.tail hname) htie _

end

/-! ## The depth first -/

theorem passShared_over (slash : Bool) (dir w : Bytes) :
    passShared slash (dir ++ w) dir =
      (dir.getLast?.elim slash fun c ↦ decide (c = char '/'), w, []) := by
  induction dir generalizing slash with
  | nil => cases w <;> rfl
  | cons c dir ih =>
    have hstep : passShared slash (c :: dir ++ w) (c :: dir) =
        passShared (decide (c = char '/')) (dir ++ w) dir := if_pos rfl
    rw [hstep, ih]
    cases dir with
    | nil => rfl
    | cons d dir => rfl

/-- A path is deeper than the directories above it. -/
theorem depthDiff_above {dir path : Bytes} (h : Above dir path) : depthDiff path dir = 1 := by
  obtain ⟨rest, hne, hbelow | ⟨hlast, hbelow⟩⟩ := h
  · rw [hbelow, depthDiff_eq, below, passShared_over]
    exact depthOf_over (countsSlash_below [] hne)
  · rw [hbelow, depthDiff_eq, passShared_over, hlast]
    have hslash : countsSlash (char '/' :: rest) = true := countsSlash_below [] hne
    unfold depthOf
    simp [hslash, countsSlash]

theorem depth_first {spec : SortSpec} {numsort : Bool} {l : List Gmatch}
    (hpreorder : SortsList (gmatchcmp numsort spec.sortlist) l)
    (hhead : spec.sortlist.head? = some ⟨.depth, false⟩) (qsort : QSort Gmatch) :
    (qsort.sort (gmatchcmp numsort spec.sortlist) l).reverse.Pairwise
      fun a b ↦ ¬ Above a.uname.1 b.uname.1 := by
  rw [pairwise_reverse]
  apply (qsort.sorted _ _ hpreorder).imp
  intro path dir hle habove
  obtain ⟨rest, hsplit⟩ : ∃ rest, spec.sortlist = ⟨.depth, false⟩ :: rest :=
    ⟨_, (cons_head?_tail hhead).symm⟩
  have hdepth : directed false (GlobKey.depth.diff numsort 0 path dir) = 1 := by
    have h : GlobKey.depth.diff numsort 0 path dir = 1 :=
      (depthDiff_metafied path.uname.1 dir.uname.1).trans (depthDiff_above habove)
    rw [h]
    rfl
  have hone : gmatchcmp numsort spec.sortlist path dir = 1 := by
    rw [gmatchcmp, hsplit, gmatchcmpFrom_cons, thenCompare]
    simp only [hdepth]
    rfl
  omega

theorem sortsMatches_of_fine {spec : SortSpec} (hfine : spec.DepthFine) (numsort : Bool)
    {l : List Gmatch} (hfit : RecordsFit l)
    (htimes : (∃ s ∈ spec.sortlist, s.key.isTime = true) → TimesFit l) :
    SortsMatches spec numsort l := by
  have hpreorder : SortsList (gmatchcmp numsort spec.sortlist) l := by
    let f : {m // m ∈ l} → Gmatch := Subtype.val
    have hserve : RecordsServe f numsort spec.effective := by
      intro s hs hdepth execs
      apply diff_totalPreorder f numsort execs hdepth
      · exact fun a ↦ hfit.stat a.1 a.2
      · exact fun a b ↦ hfit.sortstrs a.1 a.2 b.1 b.2
      · exact fun htime a b ↦
          htimes ⟨s, (List.mem_filter.mp hs).1, htime⟩ a.1 a.2 b.1 b.2
    have hwithin := within_fine spec.effective hserve hfine
      (⟨fun _ ↦ trivial, fun _ ↦ trivial, fun _ _ ↦ trivial⟩ : Equivalence fun _ _ ↦ True) 0
    have heq : (fun a b : {m // m ∈ l} ↦ gmatchcmp numsort spec.sortlist a b) =
        fun a b ↦ gmatchcmpFrom numsort 0 spec.effective (f a) (f b) := by
      funext a b
      exact gmatchcmpFrom_effective numsort 0 spec.sortlist _ _
    unfold SortsList
    rw [heq]
    exact hwithin.total
  exact ⟨hpreorder, fun hhead qsort ↦ depth_first hpreorder hhead qsort⟩

/-! ## Circles -/

/-- The string of a small number. -/
def probeString (v : ℤ) : CString :=
  if v = 1 then ⟨[char '1'], by decide⟩ else if v = 2 then ⟨[char '2'], by decide⟩
  else ⟨[char '0'], by decide⟩

/-- The fields of a match that has a number for one key only. -/
def probeStat (key : GlobKey) (v : ℤ) (linked : Bool) : MatchStat where
  size := if key = .size linked then v else 0
  atime := if key = .atime linked then v else 0
  mtime := if key = .mtime linked then v else 0
  ctime := if key = .ctime linked then v else 0
  links := if key = .links linked then v else 0
  ansec := 0
  mnsec := 0
  cnsec := 0

/-- A match of a name, with a number for one key; a key by shell code is the one behind `execs`
others. -/
def probe (uname : CString) (key : GlobKey) (execs : ℕ) (v : ℤ) : Gmatch where
  uname := uname
  sortstrs := List.replicate execs ⟨[], not_mem_nil⟩ ++
    [probeString (if key = .exec then v else 0)]
  own := probeStat key v false
  linked := probeStat key v true

theorem probe_stat (uname : CString) (key : GlobKey) (execs : ℕ) (v : ℤ) (linked : Bool) :
    (probe uname key execs v).stat linked = probeStat key v linked := by
  cases linked <;> rfl

theorem probe_fits (uname : CString) (key : GlobKey) (execs : ℕ) {v : ℤ} (hlow : -2 ^ 63 ≤ v)
    (hhigh : v < 2 ^ 63) (hpos : key.isTime = false → 0 ≤ v) (linked : Bool) :
    ((probe uname key execs v).stat linked).Fits := by
  have htime {time : GlobKey} : -2 ^ 63 ≤ (if key = time then v else 0) ∧
      (if key = time then v else 0) < 2 ^ 63 := by
    split
    · exact ⟨hlow, hhigh⟩
    · exact ⟨by decide, by decide⟩
  have hcount {other : GlobKey} (hother : other.isTime = false) :
      0 ≤ (if key = other then v else 0) ∧ (if key = other then v else 0) < 2 ^ 63 := by
    split
    · next heq => exact ⟨hpos (heq ▸ hother), hhigh⟩
    · exact ⟨le_rfl, by decide⟩
  have hzero : (0 : ℤ) ≤ 0 ∧ (0 : ℤ) < 10 ^ 9 := ⟨le_rfl, by decide⟩
  rw [probe_stat]
  exact ⟨hcount rfl, hcount rfl, hzero, hzero, hzero, htime, htime, htime⟩

theorem zstrcmp_self (numsort : Bool) (s : CString) : zstrcmp numsort s s = 0 :=
  nameDiff_self numsort s.1

theorem toZlong_zero : toZlong 0 = 0 := rfl

theorem probe_tie (numsort : Bool) {u u' : CString} {key other : GlobKey} {execs e : ℕ} (v v' : ℤ)
    (hname : other = .name ∨ other = .depth → u = u')
    (hother : other = key → other = .exec) (hexec : other = .exec → key ≠ .exec ∨ e < execs) :
    other.diff numsort e (probe u key execs v) (probe u' key execs v') = 0 := by
  have hfield {x : GlobKey} (hx : other = x) (hne : x ≠ .exec) : key ≠ x := by
    intro heq
    exact hne (hx.symm.trans (hother (hx.trans heq.symm)))
  cases other with
  | name => rw [hname (.inl rfl)]; exact zstrcmp_self _ _
  | depth =>
    rw [hname (.inr rfl)]
    exact depthDiff_self _
  | exec =>
    obtain hne | hlt := hexec rfl
    · have hsame : (probe u key execs v).sortstrs = (probe u' key execs v').sortstrs := by
        unfold probe
        rw [if_neg hne, if_neg hne]
      rw [GlobKey.diff, hsame]
      split
      · next heq heq' =>
        rw [heq] at heq'
        rw [Option.some.inj heq']
        exact zstrcmp_self _ _
      · rfl
    · have hat (u : CString) (v : ℤ) : (probe u key execs v).sortstrs[e]? =
          some ⟨[], not_mem_nil⟩ := by
        have hlength : e < (List.replicate execs (⟨[], not_mem_nil⟩ : CString)).length := by
          rwa [List.length_replicate]
        rw [probe, List.getElem?_append_left hlength, List.getElem?_replicate, if_pos hlt]
      rw [GlobKey.diff, hat, hat]
      exact zstrcmp_self _ _
  | size l =>
    simp [GlobKey.diff, probe_stat, probeStat, hfield rfl, toZlong_zero]
  | links l =>
    simp [GlobKey.diff, probe_stat, probeStat, hfield rfl, toZlong_zero]
  | atime l =>
    simp [GlobKey.diff, probe_stat, probeStat, hfield rfl, toZlong_zero, timeDiff]
  | mtime l =>
    simp [GlobKey.diff, probe_stat, probeStat, hfield rfl, toZlong_zero, timeDiff]
  | ctime l =>
    simp [GlobKey.diff, probe_stat, probeStat, hfield rfl, toZlong_zero, timeDiff]
  | none => rfl

/-- The key itself compares the numbers, in one of the two directions. -/
theorem probe_diff (numsort : Bool) {key : GlobKey} (hname : key ≠ .name) (hdepth : key ≠ .depth)
    (hnone : key ≠ .none) (execs : ℕ) :
    ∃ desc, ∀ u u' v v', 0 ≤ v → v ≤ 2 → 0 ≤ v' → v' ≤ 2 →
      directed false (key.diff numsort execs (probe u key execs v) (probe u' key execs v')) =
        directed desc (v - v') := by
  have hback (v v' : ℤ) : directed false (v' - v) = directed true (v - v') := by
    unfold directed
    rw [← neg_sub, Int.sign_neg]
    rfl
  have hsize {v v' : ℤ} (hv : 0 ≤ v) (hv2 : v ≤ 2) (hv' : 0 ≤ v') (hv2' : v' ≤ 2) :
      toZlong (v' - v) = v' - v := toZlong_of_fits (by omega)
  have htime {v v' : ℤ} (hv : 0 ≤ v) (hv2 : v ≤ 2) (hv' : 0 ≤ v') (hv2' : v' ≤ 2) :
      timeDiff v v' 0 0 = v - v' := by
    rw [timeDiff, toZlong_of_fits (by omega), sub_self, toZlong_zero]
    split
    · omega
    · rfl
  cases key with
  | name => exact absurd rfl hname
  | depth => exact absurd rfl hdepth
  | none => exact absurd rfl hnone
  | exec =>
    refine ⟨true, ?_⟩
    intro u u' v v' hv hv2 hv' hv2'
    have hat (u : CString) (v : ℤ) : (probe u .exec execs v).sortstrs[execs]? =
        some (probeString v) := by
      have hlength : (List.replicate execs (⟨[], not_mem_nil⟩ : CString)).length = execs :=
        List.length_replicate
      rw [probe, List.getElem?_append_right hlength.le, hlength, Nat.sub_self]
      rfl
    rw [GlobKey.diff, hat, hat]
    interval_cases v <;> interval_cases v' <;> cases numsort <;> decide
  | size l =>
    refine ⟨true, ?_⟩
    intro u u' v v' hv hv2 hv' hv2'
    rw [GlobKey.diff, probe_stat, probe_stat, ← hback, ← hsize hv hv2 hv' hv2']
    simp [probeStat]
  | links l =>
    refine ⟨true, ?_⟩
    intro u u' v v' hv hv2 hv' hv2'
    rw [GlobKey.diff, probe_stat, probe_stat, ← hback, ← hsize hv hv2 hv' hv2']
    simp [probeStat]
  | atime l =>
    refine ⟨false, ?_⟩
    intro u u' v v' hv hv2 hv' hv2'
    rw [GlobKey.diff, probe_stat, probe_stat, ← htime hv hv2 hv' hv2']
    simp [probeStat]
  | mtime l =>
    refine ⟨false, ?_⟩
    intro u u' v v' hv hv2 hv' hv2'
    rw [GlobKey.diff, probe_stat, probe_stat, ← htime hv hv2 hv' hv2']
    simp [probeStat]
  | ctime l =>
    refine ⟨false, ?_⟩
    intro u u' v v' hv hv2 hv' hv2'
    rw [GlobKey.diff, probe_stat, probe_stat, ← htime hv hv2 hv' hv2']
    simp [probeStat]

/-- Where the keys in front tie, those behind them decide. -/
theorem gmatchcmpFrom_skip {numsort : Bool} {a b : Gmatch} (front rest : List GlobSort) (e : ℕ)
    (h : ∀ s ∈ front, ∀ e', (s.key = .exec → e' < e + front.countP (·.key = .exec)) →
      s.key.diff numsort e' a b = 0) :
    gmatchcmpFrom numsort e (front ++ rest) a b =
      gmatchcmpFrom numsort (e + front.countP (·.key = .exec)) rest a b := by
  induction front generalizing e with
  | nil => rfl
  | cons s front ih =>
    have hcount : (s :: front).countP (·.key = .exec) =
        front.countP (·.key = .exec) + if s.key = .exec then 1 else 0 := by
      rw [countP_cons]
      simp
    have hzero : s.key.diff numsort e a b = 0 := by
      apply h s mem_cons_self
      intro hexec
      rw [hcount, if_pos hexec]
      omega
    rw [cons_append, gmatchcmpFrom, hzero, if_neg (not_not.mpr rfl), ih]
    · congr 1
      rw [hcount]
      split <;> omega
    · intro s' hs' e' he'
      apply h s' (mem_cons_of_mem _ hs')
      intro hexec
      have hlt := he' hexec
      rw [hcount]
      split at hlt <;> split <;> omega

/-! ### A depth key without the name -/

/-- The paths `r/s/t`, `r/u` and `p/q`. -/
def deepPath : CString := ⟨[char 'r', char '/', char 's', char '/', char 't'], by decide⟩

def shallowPath : CString := ⟨[char 'r', char '/', char 'u'], by decide⟩

def otherPath : CString := ⟨[char 'p', char '/', char 'q'], by decide⟩

theorem nodup_effective (spec : SortSpec) {front back : List GlobSort} {s : GlobSort}
    (hsplit : spec.effective = front ++ s :: back) (hs : s.key ≠ .exec) :
    (∀ s' ∈ front, s'.key ≠ s.key) ∧ (∀ s' ∈ back, s'.key ≠ s.key) ∧
      ∀ s' ∈ back, s'.key ≠ .exec → ∀ t ∈ front, t.key ≠ s'.key := by
  have hnodup : ((spec.effective.map GlobSort.key).filter (· ≠ .exec)).Nodup :=
    spec.nodup.sublist ((List.filter_sublist.map _).filter _)
  rw [hsplit, map_append, filter_append, map_cons,
    filter_cons_of_pos (by simpa using hs)] at hnodup
  obtain ⟨-, hbehind, hdisjoint⟩ := List.nodup_append.mp hnodup
  have hmem {l : List GlobSort} {t : GlobSort} (ht : t ∈ l) (hne : t.key ≠ .exec) :
      t.key ∈ (l.map GlobSort.key).filter (· ≠ .exec) :=
    List.mem_filter.mpr ⟨mem_map_of_mem ht, by simpa using hne⟩
  refine ⟨?_, ?_, ?_⟩
  · intro s' hs' heq
    exact hdisjoint _ (hmem hs' (heq ▸ hs)) _ mem_cons_self heq
  · intro s' hs' heq
    exact (List.nodup_cons.mp hbehind).1 (heq ▸ hmem hs' (heq ▸ hs))
  · intro s' hs' hne t' ht' heq
    exact hdisjoint _ (hmem ht' (heq ▸ hne)) _ (mem_cons_of_mem _ (hmem hs' hne)) heq

/-- The comparison of two probes behind the keys in front of the depth. -/
theorem probe_compare {spec : SortSpec} {front back : List GlobSort} {desc : Bool}
    (hsplit : spec.effective = front ++ ⟨.depth, desc⟩ :: back) (hname : ∀ s ∈ front, s.key ≠ .name)
    (numsort : Bool) {key : GlobKey} (hkey : ∀ s ∈ front, s.key = key → key = .exec)
    (u u' : CString) (v v' : ℤ) :
    let execs := front.countP (·.key = .exec)
    gmatchcmp numsort spec.sortlist (probe u key execs v) (probe u' key execs v') =
      thenCompare (fun _ _ ↦ directed desc (depthDiff u.1 u'.1))
        (gmatchcmpFrom numsort execs back) (probe u key execs v) (probe u' key execs v') := by
  intro execs
  obtain ⟨hdepth, -⟩ := nodup_effective spec hsplit (fun h ↦ by cases h)
  have hskip := @gmatchcmpFrom_skip numsort (probe u key execs v) (probe u' key execs v') front
    (⟨.depth, desc⟩ :: back) 0 (by
      intro s hs e he
      rw [Nat.zero_add] at he
      apply probe_tie
      · rintro (h | h)
        · exact absurd h (hname s hs)
        · exact absurd h (hdepth s hs)
      · intro heq
        exact heq.trans (hkey s hs heq)
      · exact fun hexec ↦ .inr (he hexec))
  have hdiff (e : ℕ) : GlobKey.depth.diff numsort e (probe u key execs v) (probe u' key execs v') =
      depthDiff u.1 u'.1 := depthDiff_metafied u.1 u'.1
  rw [gmatchcmp, gmatchcmpFrom_effective]
  change gmatchcmpFrom numsort 0 spec.effective _ _ = _
  rw [hsplit, hskip, Nat.zero_add, gmatchcmpFrom_cons]
  unfold thenCompare
  simp only [hdiff]
  rfl

theorem directed_eq (desc : Bool) (r : ℤ) :
    directed desc r = if desc then -directed false r else directed false r := by
  cases desc <;> rfl

/-- Numbers for the three paths so that the key turns the order of the depth round. -/
theorem exists_numbers (numsort desc : Bool) {s : GlobSort} (hname : s.key ≠ .name)
    (hdepth : s.key ≠ .depth) (hnone : s.key ≠ .none) (execs : ℕ) :
    ∃ vx vy vz : ℤ, (0 ≤ vx ∧ vx ≤ 2) ∧ (0 ≤ vy ∧ vy ≤ 2) ∧ (0 ≤ vz ∧ vz ≤ 2) ∧
      ∀ u u', directed s.desc (s.key.diff numsort execs (probe u s.key execs vy)
          (probe u' s.key execs vz)) = directed desc 1 ∧
        directed s.desc (s.key.diff numsort execs (probe u s.key execs vz)
          (probe u' s.key execs vx)) = directed desc 1 := by
  obtain ⟨d, hd⟩ := probe_diff numsort hname hdepth hnone execs
  have hboth : ∃ d', ∀ u u' v v', 0 ≤ v → v ≤ 2 → 0 ≤ v' → v' ≤ 2 →
      directed s.desc (s.key.diff numsort execs (probe u s.key execs v) (probe u' s.key execs v')) =
        directed d' (v - v') := by
    refine ⟨d != s.desc, ?_⟩
    intro u u' v v' hv hv2 hv' hv2'
    rw [directed_eq, hd u u' v v' hv hv2 hv' hv2']
    cases s.desc <;> cases d <;> simp [directed]
  obtain ⟨d', hd'⟩ := hboth
  by_cases hsame : d' = desc
  · refine ⟨0, 2, 1, by decide, by decide, by decide, ?_⟩
    intro u u'
    rw [hd' u u' 2 1 (by decide) (by decide) (by decide) (by decide),
      hd' u u' 1 0 (by decide) (by decide) (by decide) (by decide), hsame]
    exact ⟨rfl, rfl⟩
  · have hother : d' = !desc := by
      cases d' <;> cases desc <;> simp_all
    refine ⟨2, 0, 1, by decide, by decide, by decide, ?_⟩
    intro u u'
    rw [hd' u u' 0 1 (by decide) (by decide) (by decide) (by decide),
      hd' u u' 1 2 (by decide) (by decide) (by decide) (by decide), hother]
    cases desc <;> decide

theorem probes_fit {key : GlobKey} {execs : ℕ} {l : List Gmatch}
    (h : ∀ m ∈ l, ∃ u v, m = probe u key execs v ∧ 0 ≤ v ∧ v ≤ 2) : RecordsFit l ∧ TimesFit l := by
  refine ⟨⟨?_, ?_⟩, ?_⟩
  · intro m hm
    obtain ⟨u, v, rfl, hlow, hhigh⟩ := h m hm
    exact probe_fits u key execs (by omega) (by omega) fun _ ↦ hlow
  · intro a ha b hb
    obtain ⟨u, v, rfl, -, -⟩ := h a ha
    obtain ⟨u', v', rfl, -, -⟩ := h b hb
    simp [probe]
  · intro a ha b hb linked
    obtain ⟨u, v, rfl, hlow, hhigh⟩ := h a ha
    obtain ⟨u', v', rfl, hlow', hhigh'⟩ := h b hb
    have hdiff {time : GlobKey} : DiffFits (if key = time then v else 0)
        (if key = time then v' else 0) := by
      unfold DiffFits
      split <;> omega
    rw [probe_stat, probe_stat]
    exact ⟨hdiff, hdiff, hdiff⟩

/-- A total preorder of a list has no circle of its members. -/
theorem not_sortsList_circle {cmp : Gmatch → Gmatch → ℤ} {x y z : Gmatch} {e : ℤ} (he : e ≠ 0)
    (hxy : cmp x y = e) (hyz : cmp y z = e ∨ cmp y z = 0) (hzx : cmp z x = e ∨ cmp z x = 0) :
    ¬ SortsList cmp [x, y, z] := by
  intro h
  exact he (TotalPreorder.no_circle (x := ⟨x, by simp⟩) (y := ⟨y, by simp⟩) (z := ⟨z, by simp⟩) h
    hxy hyz hzx)

theorem exists_circle {spec : SortSpec} (h : ¬ spec.DepthFine) (numsort : Bool) :
    ∃ l, RecordsFit l ∧ TimesFit l ∧ ¬ SortsMatches spec numsort l := by
  unfold SortSpec.DepthFine at h
  push Not at h
  obtain ⟨front, desc, back, hsplit, hname, hhead⟩ := h
  obtain ⟨-, hone, hback⟩ := nodup_effective spec hsplit (fun h ↦ by cases h)
  have hnone : ∀ s ∈ front ++ back, s.key ≠ .none := by
    intro s hs
    have hmem : s ∈ spec.effective := by
      rw [hsplit]
      obtain hs | hs := List.mem_append.mp hs
      · exact mem_append_left _ hs
      · exact mem_append_right _ (mem_cons_of_mem _ hs)
    simpa using (List.mem_filter.mp hmem).2
  have hdirected : directed desc 1 ≠ 0 := fun hzero ↦ absurd (directed_eq_zero.mp hzero) (by decide)
  have hyz : depthDiff shallowPath.1 otherPath.1 = 0 := by decide
  have hzx : depthDiff otherPath.1 deepPath.1 = 0 := by decide
  -- How the three probes compare, by the depth or by what is behind it.
  have hdeep {key : GlobKey} (hkey : ∀ s ∈ front, s.key = key → key = .exec) (vx vy : ℤ) :
      let execs := front.countP (·.key = .exec)
      gmatchcmp numsort spec.sortlist (probe deepPath key execs vx) (probe shallowPath key execs vy) =
        directed desc 1 := by
    intro execs
    rw [probe_compare hsplit hname numsort hkey, thenCompare]
    exact if_pos hdirected
  have htie {key : GlobKey} (hkey : ∀ s ∈ front, s.key = key → key = .exec) {u u' : CString}
      (hzero : depthDiff u.1 u'.1 = 0) (v v' : ℤ) :
      let execs := front.countP (·.key = .exec)
      gmatchcmp numsort spec.sortlist (probe u key execs v) (probe u' key execs v') =
        gmatchcmpFrom numsort execs back (probe u key execs v) (probe u' key execs v') := by
    intro execs
    rw [probe_compare hsplit hname numsort hkey, thenCompare]
    simp only [hzero]
    exact if_neg (not_not.mpr (directed_eq_zero.mpr rfl))
  cases back with
  | nil =>
    have hkey : ∀ s ∈ front, s.key = .none → GlobKey.none = .exec :=
      fun s hs heq ↦ absurd heq (hnone s (mem_append_left _ hs))
    let execs := front.countP (·.key = .exec)
    have hfit := @probes_fit .none execs [probe deepPath .none execs 0,
      probe shallowPath .none execs 0, probe otherPath .none execs 0] (by
        intro m hm
        simp only [mem_cons, not_mem_nil, or_false] at hm
        obtain rfl | rfl | rfl := hm
        · exact ⟨_, _, rfl, le_rfl, by decide⟩
        · exact ⟨_, _, rfl, le_rfl, by decide⟩
        · exact ⟨_, _, rfl, le_rfl, by decide⟩)
    refine ⟨_, hfit.1, hfit.2, ?_⟩
    intro hsorts
    exact not_sortsList_circle hdirected (hdeep hkey 0 0) (.inr (htie hkey hyz 0 0))
      (.inr (htie hkey hzx 0 0)) hsorts.preorder
  | cons s back =>
    have hsname : s.key ≠ .name := fun heq ↦ hhead (congrArg some heq)
    have hsnone := hnone s (mem_append_right _ mem_cons_self)
    have hsdepth : s.key ≠ .depth := hone s mem_cons_self
    have hkey : ∀ t ∈ front, t.key = s.key → s.key = .exec := by
      intro t ht heq
      by_contra hne
      exact hback s mem_cons_self hne t ht heq
    let execs := front.countP (·.key = .exec)
    obtain ⟨vx, vy, vz, hvx, hvy, hvz, hturn⟩ :=
      exists_numbers numsort desc hsname hsdepth hsnone execs
    have hfit := @probes_fit s.key execs [probe deepPath s.key execs vx,
      probe shallowPath s.key execs vy, probe otherPath s.key execs vz] (by
        intro m hm
        simp only [mem_cons, not_mem_nil, or_false] at hm
        obtain rfl | rfl | rfl := hm
        · exact ⟨_, _, rfl, hvx⟩
        · exact ⟨_, _, rfl, hvy⟩
        · exact ⟨_, _, rfl, hvz⟩)
    refine ⟨_, hfit.1, hfit.2, ?_⟩
    intro hsorts
    have hfirst (u u' : CString) (v v' : ℤ) (h : directed s.desc (s.key.diff numsort execs
        (probe u s.key execs v) (probe u' s.key execs v')) = directed desc 1) :
        gmatchcmpFrom numsort execs (s :: back) (probe u s.key execs v) (probe u' s.key execs v') =
          directed desc 1 := by
      rw [gmatchcmpFrom_cons, thenCompare]
      simp only [h]
      exact if_pos hdirected
    apply not_sortsList_circle hdirected (hdeep hkey vx vy) _ _ hsorts.preorder
    · exact .inl ((htie hkey hyz vy vz).trans (hfirst _ _ _ _ (hturn _ _).1))
    · exact .inl ((htie hkey hzx vz vx).trans (hfirst _ _ _ _ (hturn _ _).2))

/-! ### Times that are too far apart -/

theorem time_probe (numsort : Bool) {key : GlobKey} (htime : key.isTime = true) (u : CString)
    (execs e : ℕ) (v v' : ℤ) :
    key.diff numsort e (probe u key execs v) (probe u key execs v') = timeDiff v v' 0 0 := by
  cases key with
  | atime l => simp [GlobKey.diff, probe_stat, probeStat]
  | mtime l => simp [GlobKey.diff, probe_stat, probeStat]
  | ctime l => simp [GlobKey.diff, probe_stat, probeStat]
  | _ => cases htime

theorem exists_time_circle {spec : SortSpec} (h : ¬ spec.NoTimes) (numsort : Bool) :
    ∃ l, RecordsFit l ∧ ¬ SortsMatches spec numsort l := by
  unfold SortSpec.NoTimes at h
  push Not at h
  obtain ⟨s, hs, hnot⟩ := h
  have htime : s.key.isTime = true := (Bool.not_eq_false _).mp hnot
  have hkeys : s.key ≠ .exec ∧ s.key ≠ .none := by
    constructor
    · intro heq
      rw [heq] at htime
      cases htime
    · intro heq
      rw [heq] at htime
      cases htime
  have hmem : s ∈ spec.effective := List.mem_filter.mpr ⟨hs, by simpa using hkeys.2⟩
  obtain ⟨front, back, hsplit⟩ := append_of_mem hmem
  obtain ⟨hfront, -, -⟩ := nodup_effective spec hsplit hkeys.1
  have hcompare (v v' : ℤ) (hne : timeDiff v v' 0 0 ≠ 0) :
      gmatchcmp numsort spec.sortlist (probe deepPath s.key 0 v) (probe deepPath s.key 0 v') =
        directed s.desc (timeDiff v v' 0 0) := by
    have hskip := @gmatchcmpFrom_skip numsort (probe deepPath s.key 0 v)
      (probe deepPath s.key 0 v') front (s :: back) 0 (by
        intro t ht e _
        apply probe_tie
        · exact fun _ ↦ rfl
        · exact fun heq ↦ absurd heq (hfront t ht)
        · exact fun _ ↦ .inl hkeys.1)
    rw [gmatchcmp, gmatchcmpFrom_effective]
    change gmatchcmpFrom numsort 0 spec.effective _ _ = _
    rw [hsplit, hskip, gmatchcmpFrom_cons, thenCompare]
    simp only [time_probe numsort htime]
    exact if_pos (mt directed_eq_zero.mp hne)
  have hxy : timeDiff 0 (3 * 2 ^ 61) 0 0 = -(3 * 2 ^ 61) := by decide
  have hyz : timeDiff (3 * 2 ^ 61) (-(3 * 2 ^ 61)) 0 0 = -(2 * 2 ^ 61) := by decide
  have hzx : timeDiff (-(3 * 2 ^ 61)) 0 0 0 = -(3 * 2 ^ 61) := by decide
  have hsame {r : ℤ} (hr : r < 0) : directed s.desc r = directed s.desc (-1) := by
    unfold directed
    rw [Int.sign_eq_neg_one_of_neg hr]
    rfl
  refine ⟨[probe deepPath s.key 0 0, probe deepPath s.key 0 (3 * 2 ^ 61),
    probe deepPath s.key 0 (-(3 * 2 ^ 61))], ⟨?_, ?_⟩, ?_⟩
  · intro m hm
    have hnever : s.key.isTime = false → ∀ v : ℤ, 0 ≤ v :=
      fun hfalse ↦ absurd htime (ne_true_of_eq_false hfalse)
    simp only [mem_cons, not_mem_nil, or_false] at hm
    obtain rfl | rfl | rfl := hm
    · exact probe_fits _ _ _ (by decide) (by decide) fun hfalse ↦ hnever hfalse _
    · exact probe_fits _ _ _ (by decide) (by decide) fun hfalse ↦ hnever hfalse _
    · exact probe_fits _ _ _ (by decide) (by decide) fun hfalse ↦ hnever hfalse _
  · intro a ha b hb
    simp only [mem_cons, not_mem_nil, or_false] at ha hb
    obtain rfl | rfl | rfl := ha <;> obtain rfl | rfl | rfl := hb <;> rfl
  · intro hsorts
    have hne : directed s.desc (-1) ≠ 0 := mt directed_eq_zero.mp (by decide)
    refine not_sortsList_circle hne ?_ (.inl ?_) (.inl ?_) hsorts.preorder
    · rw [hcompare _ _ (by decide), hxy]
      exact hsame (by decide)
    · rw [hcompare _ _ (by decide), hyz]
      exact hsame (by decide)
    · rw [hcompare _ _ (by decide), hzx]
      exact hsame (by decide)

/-! ## The conditions -/

/-- The matches can be sorted for exactly these specifications: the depth with the name, and, where
times may be any, no time. -/
theorem sortsMatches_iff (spec : SortSpec) (numsort : Bool) :
    ((∀ l, RecordsFit l → TimesFit l → SortsMatches spec numsort l) ↔ spec.DepthFine) ∧
      ((∀ l, RecordsFit l → SortsMatches spec numsort l) ↔ spec.DepthFine ∧ spec.NoTimes) := by
  have hdepth (h : ∀ l, RecordsFit l → TimesFit l → SortsMatches spec numsort l) :
      spec.DepthFine := by
    by_contra hnot
    obtain ⟨l, hfit, htimes, hsorts⟩ := exists_circle hnot numsort
    exact hsorts (h l hfit htimes)
  constructor
  · constructor
    · exact hdepth
    · exact fun hfine l hfit htimes ↦ sortsMatches_of_fine hfine numsort hfit fun _ ↦ htimes
  · constructor
    · intro h
      refine ⟨hdepth fun l hfit _ ↦ h l hfit, ?_⟩
      by_contra hnot
      obtain ⟨l, hfit, hsorts⟩ := exists_time_circle hnot numsort
      exact hsorts (h l hfit)
    · rintro ⟨hfine, hnone⟩ l hfit
      apply sortsMatches_of_fine hfine numsort hfit
      rintro ⟨s, hs, htime⟩
      rw [hnone s hs] at htime
      cases htime

/-- `od` alone. -/
def depthOnly : SortSpec where
  sortlist := [⟨.depth, false⟩]
  nodup := by decide

/-- By `od` alone `p/q` ties with `r/s/t` and with `r/u`, which do not tie. -/
theorem not_sortsMatches :
    ¬ SortsMatches depthOnly false [probe deepPath .none 0 0, probe shallowPath .none 0 0,
      probe otherPath .none 0 0] := by
  intro h
  have hxy : gmatchcmp false depthOnly.sortlist (probe deepPath .none 0 0)
    (probe shallowPath .none 0 0) = 1 := by decide
  have hyz : gmatchcmp false depthOnly.sortlist (probe shallowPath .none 0 0)
    (probe otherPath .none 0 0) = 0 := by decide
  have hzx : gmatchcmp false depthOnly.sortlist (probe otherPath .none 0 0)
    (probe deepPath .none 0 0) = 0 := by decide
  exact not_sortsList_circle one_ne_zero hxy (.inr hyz) (.inr hzx) h.preorder

end Bsh.Shell
