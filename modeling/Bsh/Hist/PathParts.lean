import Bsh.Library.Names
import Bsh.Shell.Numbers

/-!
# The modifiers `:h` and `:t`

`remtpath` keeps a number of components of a path from the front, `remlpaths` from the back.  A
position in a path is the list of the characters up to it, the last one first; at the position in
front of the path this list is empty, and nothing can be read.  A leading slash is a component of
its own.
-/

namespace Bsh.Hist

open Bsh.Library Bsh.Library.Names Bsh.Shell List

def slash : UInt8 := char '/'

/-- `IS_DIRSEP`. -/
def isDirsep (c : UInt8) : Bool := c = slash

/-- `strend`; the end of an empty string is its terminator. -/
def strend (path : Bytes) : Bytes := if path = [] then [0] else path.reverse

/-- The character at a place counted from 0, with the terminator. -/
def charAt (path : Bytes) (n : ℕ) : Option UInt8 := (path ++ [0])[n]?

/-! ## The source -/

/-- `while (str > *junkptr && IS_DIRSEP(str[-1])) --str`. -/
def squeeze : Bytes → Bytes
  | c :: d :: str => if isDirsep d then squeeze (d :: str) else c :: d :: str
  | str => str

/-- The loop of `remtpath` from the front up to the last character that is no slash: what it
returns early.  `strp` has passed `done`, and stands in a run of slashes when it skips. -/
def remtpathScan : Bool → ℕ → Bytes → Bytes → Option Bytes
  | skipping, count, done, c :: d :: l =>
    if isDirsep c then
      if skipping then remtpathScan true count (done ++ [c]) (d :: l)
      else if count - 1 = 0 then some (if done = [] then [c] else done)
      else remtpathScan true (count - 1) (done ++ [c]) (d :: l)
    else remtpathScan false count (done ++ [c]) (d :: l)
  | _, _, _, _ => none

/-- `remtpath`: the value returned and the path. -/
def remtpath (path : Bytes) (count : ℕ) : Option (ℕ × Bytes) :=
  let str := (strend path).dropWhile isDirsep
  let str := if count = 0 then str.dropWhile (!isDirsep ·) else str
  if str = [] then some (0, if headIs '/' path then [slash] else [char '.'])
  else if count ≠ 0 then some (1, (remtpathScan false count [] str.reverse).getD path)
  else
    match squeeze str with
    | [] => none
    | [_] =>
      -- the root slash is kept, and two of them are
      (charAt path 1).bind fun second ↦
        if isDirsep second then
          (charAt path 2).bind fun third ↦
            some (1, if isDirsep third then path.take 1 else path.take 2)
        else some (1, path.take 1)
    | _ :: front => some (1, front.reverse)

/-- The loops of `remlpaths` from the back.  Behind a slash that counts the run of slashes is
skipped; `whole` is the path without slashes at its end. -/
def remlpathsScan (whole : Bytes) : Bool → ℕ → Bytes → Bytes → ℕ × Bytes
  | _, _, [], _ => (0, whole)
  | skipping, count, c :: front, back =>
    if skipping then
      if isDirsep c then remlpathsScan whole true count front (c :: back)
      else if front = [] then (0, whole)
      else remlpathsScan whole false count front (c :: back)
    else if isDirsep c then
      if 0 < count - 1 then
        if front = [] then (1, whole) else remlpathsScan whole true (count - 1) front (c :: back)
      else (1, back)
    else remlpathsScan whole false count front (c :: back)

/-- `remlpaths`: the value returned and the path. -/
def remlpaths (path : Bytes) (count : ℕ) : Option (ℕ × Bytes) :=
  (strend path).head?.map fun last ↦
    if isDirsep last then
      let str := (strend path).dropWhile isDirsep
      remlpathsScan str.reverse false count str []
    else remlpathsScan path false count (strend path) []

/-- The components of a path. -/
def components (path : Bytes) : List Bytes :=
  (if headIs '/' path then [[slash]] else []) ++ names slash path

/-! ## Nothing outside of the path is read -/

theorem strend_ne_nil (path : Bytes) : strend path ≠ [] := by
  unfold strend
  by_cases hpath : path = []
  · rw [if_pos hpath]
    exact cons_ne_nil 0 []
  · rw [if_neg hpath]
    exact fun h ↦ hpath (List.reverse_eq_nil_iff.mp h)

theorem squeeze_replicate (r : ℕ) {str : Bytes} (h : ∀ c ∈ str.head?, isDirsep c = false) :
    squeeze (List.replicate (r + 1) slash ++ str) = slash :: str := by
  induction r with
  | zero =>
    cases str with
    | nil => rfl
    | cons c str =>
      rw [replicate_one, singleton_append, squeeze, h c rfl, if_neg Bool.false_ne_true]
  | succ r ih =>
    rwa [replicate_succ, cons_append] at ih

theorem squeeze_ne_nil {str : Bytes} (h : str ≠ []) : squeeze str ≠ [] := by
  induction str with
  | nil => exact absurd rfl h
  | cons c str ih =>
    cases str with
    | nil => exact h
    | cons d str =>
      rw [squeeze]
      split
      · exact ih (cons_ne_nil d str)
      · exact h

theorem exists_charAt {path : Bytes} {n : ℕ} (h : n ≤ path.length) :
    ∃ c, charAt path n = some c := by
  have hlt : n < (path ++ [0]).length := by
    rw [length_append, length_singleton]
    exact Nat.lt_succ_of_le h
  exact ⟨_, List.getElem?_eq_getElem hlt⟩

theorem lt_length_of_charAt {path : Bytes} {n : ℕ} {c : UInt8} (h : charAt path n = some c)
    (hc : isDirsep c = true) : n < path.length := by
  by_contra hle
  rw [charAt, List.getElem?_append_right (Nat.le_of_not_lt hle)] at h
  cases hrest : n - path.length with
  | zero =>
    rw [hrest] at h
    cases h
    cases hc
  | succ k =>
    rw [hrest] at h
    cases h

theorem remlpaths_isSome (path : Bytes) (count : ℕ) : (remlpaths path count).isSome := by
  obtain ⟨c, str, hstr⟩ := exists_cons_of_ne_nil (strend_ne_nil path)
  rw [remlpaths, hstr]
  rfl

theorem remtpath_isSome (path : Bytes) (count : ℕ) : (remtpath path count).isSome := by
  by_cases hcount : count = 0
  · subst hcount
    rw [remtpath, if_pos rfl]
    generalize hstr : ((strend path).dropWhile isDirsep).dropWhile (!isDirsep ·) = str
    by_cases hnil : str = []
    · rw [if_pos hnil]
      rfl
    · have hpath : path ≠ [] := by
        rintro rfl
        exact hnil hstr.symm
      obtain ⟨second, hsecond⟩ := exists_charAt (List.length_pos_iff.mpr hpath)
      rw [if_neg hnil, if_neg (not_not.mpr rfl), hsecond, Option.bind_some]
      split
      · exact absurd ‹_› (squeeze_ne_nil hnil)
      · by_cases hsep : isDirsep second = true
        · obtain ⟨third, hthird⟩ := exists_charAt (lt_length_of_charAt hsecond hsep)
          rw [if_pos hsep, hthird]
          rfl
        · rw [if_neg hsep]
          rfl
      · rfl
  · rw [remtpath, if_neg hcount]
    by_cases hnil : (strend path).dropWhile isDirsep = []
    · rw [if_pos hnil]
      rfl
    · rw [if_neg hnil, if_pos hcount]
      rfl

/-! ## Scanning from the front -/

theorem isDirsep_slash : isDirsep slash = true := rfl

theorem isDirsep_eq_false {c : UInt8} (hc : c ≠ slash) : isDirsep c = false := decide_eq_false hc

theorem remtpathScan_name {n l : Bytes} (hn : IsName slash n) (hl : l ≠ []) (skipping : Bool)
    (count : ℕ) (done : Bytes) :
    remtpathScan skipping count done (n ++ l) = remtpathScan false count (done ++ n) l := by
  obtain ⟨d, t, rfl⟩ := exists_cons_of_ne_nil hl
  have hstep (skipping : Bool) (c : UInt8) (hc : c ≠ slash) (done u : Bytes) (hu : u ≠ []) :
      remtpathScan skipping count done (c :: u) = remtpathScan false count (done ++ [c]) u := by
    obtain ⟨e, u, rfl⟩ := exists_cons_of_ne_nil hu
    rw [remtpathScan, isDirsep_eq_false hc, if_neg Bool.false_ne_true]
  have hall {n : Bytes} (hn : slash ∉ n) (done : Bytes) :
      remtpathScan false count done (n ++ d :: t) =
        remtpathScan false count (done ++ n) (d :: t) := by
    induction n generalizing done with
    | nil => rw [nil_append, append_nil]
    | cons c n ih =>
      rw [mem_cons, not_or] at hn
      rw [cons_append, hstep _ c (Ne.symm hn.1) _ _ (by simp), ih hn.2, append_assoc,
        singleton_append]
  obtain ⟨hne, hsep⟩ := hn
  cases n with
  | nil => exact absurd rfl hne
  | cons c n =>
    rw [mem_cons, not_or] at hsep
    rw [cons_append, hstep _ c (Ne.symm hsep.1) _ _ (by simp), hall hsep.2,
      append_assoc, singleton_append]

theorem remtpathScan_skip (r : ℕ) {l : Bytes} (hl : l ≠ []) (count : ℕ) (done : Bytes) :
    remtpathScan true count done (List.replicate r slash ++ l) =
      remtpathScan true count (done ++ List.replicate r slash) l := by
  induction r generalizing done with
  | zero => rw [replicate_zero, nil_append, append_nil]
  | succ r ih =>
    obtain ⟨d, u, hu⟩ : ∃ d u, List.replicate r slash ++ l = d :: u :=
      exists_cons_of_ne_nil (by simp [hl])
    rw [replicate_succ, cons_append, hu, remtpathScan, isDirsep_slash, if_pos rfl,
      if_pos rfl, ← hu, ih, append_assoc, singleton_append]

theorem remtpathScan_gap (r : ℕ) {l : Bytes} (hl : l ≠ []) (count : ℕ) {done : Bytes}
    (hdone : done ≠ []) :
    remtpathScan false count done (List.replicate (r + 1) slash ++ l) =
      if count - 1 = 0 then some done
      else remtpathScan true (count - 1) (done ++ List.replicate (r + 1) slash) l := by
  obtain ⟨d, u, hu⟩ : ∃ d u, List.replicate r slash ++ l = d :: u :=
    exists_cons_of_ne_nil (by simp [hl])
  rw [replicate_succ, cons_append, hu, remtpathScan, isDirsep_slash, if_pos rfl,
    if_neg Bool.false_ne_true, if_neg hdone, ← hu, remtpathScan_skip r hl, append_assoc,
    singleton_append]

theorem remtpathScan_row {m : ℕ} {x : Bytes} (hx : Row slash m x) (r : ℕ) {y : Bytes} (hy : y ≠ [])
    (skipping : Bool) (done : Bytes) :
    remtpathScan skipping m done (x ++ List.replicate (r + 1) slash ++ y) = some (done ++ x) := by
  induction hx generalizing skipping done with
  | name hn =>
    rw [append_assoc, remtpathScan_name hn (by simp), remtpathScan_gap r hy, if_pos rfl]
    simp [hn.ne_nil]
  | @more m n b hn r' hb ih =>
    have hpos := hb.pos
    obtain ⟨c, t, hct, -⟩ := hb.head
    have hdone : done ++ n ≠ [] := by simp [hn.ne_nil]
    have hrest : b ++ (List.replicate (r + 1) slash ++ y) ≠ [] := by simp [hct]
    rw [append_assoc, append_assoc, append_assoc, remtpathScan_name hn (by simp),
      remtpathScan_gap r' hrest _ hdone, if_neg (by omega), Nat.add_sub_cancel, ← append_assoc b,
      ih, append_assoc, append_assoc, append_assoc]

/-- The slashes at the start are a component. -/
theorem remtpathScan_root (lead : ℕ) {l : Bytes} (hl : l ≠ []) (count : ℕ) :
    remtpathScan false count [] (List.replicate (lead + 1) slash ++ l) =
      if count - 1 = 0 then some [slash]
      else remtpathScan true (count - 1) (List.replicate (lead + 1) slash) l := by
  obtain ⟨d, u, hu⟩ : ∃ d u, List.replicate lead slash ++ l = d :: u :=
    exists_cons_of_ne_nil (by simp [hl])
  rw [replicate_succ, cons_append, hu, remtpathScan, isDirsep_slash, if_pos rfl,
    if_neg Bool.false_ne_true, if_pos rfl, ← hu, remtpathScan_skip lead hl, nil_append,
    singleton_append]

/-! ## Scanning from the back -/

theorem remlpathsScan_name {n front : Bytes} (hn : IsName slash n) (hfront : front ≠ [])
    (whole : Bytes) (skipping : Bool) (count : ℕ) (back : Bytes) :
    remlpathsScan whole skipping count (n ++ front) back =
      remlpathsScan whole false count front (n.reverse ++ back) := by
  have hall {n : Bytes} (hn : slash ∉ n) (back : Bytes) :
      remlpathsScan whole false count (n ++ front) back =
        remlpathsScan whole false count front (n.reverse ++ back) := by
    induction n generalizing back with
    | nil => rfl
    | cons c n ih =>
      rw [mem_cons, not_or] at hn
      rw [cons_append, remlpathsScan, if_neg Bool.false_ne_true,
        isDirsep_eq_false (Ne.symm hn.1), if_neg Bool.false_ne_true, ih hn.2, reverse_cons,
        append_assoc, singleton_append]
  obtain ⟨hne, hsep⟩ := hn
  cases skipping with
  | false => exact hall hsep back
  | true =>
    cases n with
    | nil => exact absurd rfl hne
    | cons c n =>
      have hc := isDirsep_eq_false (Ne.symm (not_or.mp (List.mem_cons.not.mp hsep)).1)
      have hrest : n ++ front ≠ [] := by simp [hfront]
      rw [← hall hsep, cons_append, remlpathsScan, remlpathsScan, hc, if_pos rfl,
        if_neg Bool.false_ne_true, if_neg hrest, if_neg Bool.false_ne_true,
        if_neg Bool.false_ne_true]

theorem remlpathsScan_skip (r : ℕ) (front whole : Bytes) (count : ℕ) (back : Bytes) :
    remlpathsScan whole true count (List.replicate r slash ++ front) back =
      remlpathsScan whole true count front (List.replicate r slash ++ back) := by
  induction r generalizing back with
  | zero => rfl
  | succ r ih =>
    rw [replicate_succ, cons_append, remlpathsScan, if_pos rfl, isDirsep_slash,
      if_pos rfl, ih, cons_append, ← singleton_append, ← append_assoc,
      ← replicate_succ', replicate_succ, cons_append]

theorem remlpathsScan_gap (r : ℕ) {front : Bytes} (hfront : front ≠ []) (whole : Bytes) (count : ℕ)
    (back : Bytes) :
    remlpathsScan whole false count (List.replicate (r + 1) slash ++ front) back =
      if 0 < count - 1 then
        remlpathsScan whole true (count - 1) front (List.replicate (r + 1) slash ++ back)
      else (1, back) := by
  have hrest : List.replicate r slash ++ front ≠ [] := by simp [hfront]
  rw [replicate_succ, cons_append, remlpathsScan, if_neg Bool.false_ne_true,
    isDirsep_slash, if_pos rfl, if_neg hrest, remlpathsScan_skip, cons_append,
    ← singleton_append, ← append_assoc, ← replicate_succ', replicate_succ,
    cons_append]

theorem remlpathsScan_row {m : ℕ} {x : Bytes} (hx : Row slash m x) (front whole : Bytes)
    (skipping : Bool) (back : Bytes) :
    remlpathsScan whole skipping m (x ++ slash :: front) back = (1, x.reverse ++ back) := by
  induction hx generalizing skipping back with
  | name hn =>
    rw [remlpathsScan_name hn (cons_ne_nil slash front), remlpathsScan,
      if_neg Bool.false_ne_true, isDirsep_slash, if_pos rfl]
    rfl
  | @more m n b hn r hb ih =>
    have hpos := hb.pos
    obtain ⟨c, t, hct, -⟩ := hb.head
    rw [append_assoc, append_assoc, remlpathsScan_name hn (by simp),
      remlpathsScan_gap r (by simp [hct]), Nat.add_sub_cancel, if_pos hpos, ih]
    simp only [reverse_append, reverse_replicate, append_assoc]

/-- Keeping one component from the back is the same as keeping none. -/
theorem remlpathsScan_zero (whole : Bytes) (front back : Bytes) :
    remlpathsScan whole false 0 front back = remlpathsScan whole false 1 front back := by
  induction front generalizing back with
  | nil => rfl
  | cons c front ih =>
    rw [remlpathsScan, remlpathsScan, if_neg Bool.false_ne_true, if_neg Bool.false_ne_true, ih]

/-! ## Paths with names -/

/-- A path of names between slashes. -/
structure NamedPath where
  lead : ℕ
  count : ℕ
  row : Bytes
  trail : ℕ
  isRow : Row slash count row

namespace NamedPath

variable (p : NamedPath)

/-- The path without slashes at its end. -/
def trimmed : Bytes := List.replicate p.lead slash ++ p.row

def path : Bytes := p.trimmed ++ List.replicate p.trail slash

theorem trimmed_reverse : p.trimmed.reverse = p.row.reverse ++ List.replicate p.lead slash := by
  rw [trimmed, reverse_append, reverse_replicate]

theorem trimmed_ne_nil : p.trimmed ≠ [] := by
  obtain ⟨c, t, hct, -⟩ := p.isRow.head
  simp [trimmed, hct]

theorem strend_path : strend p.path = List.replicate p.trail slash ++ p.trimmed.reverse := by
  have hne : p.path ≠ [] := fun h ↦ p.trimmed_ne_nil (List.append_eq_nil_iff.mp h).1
  rw [strend, if_neg hne, path, reverse_append, reverse_replicate]

theorem dropWhile_trimmed : p.trimmed.reverse.dropWhile isDirsep = p.trimmed.reverse := by
  obtain ⟨c, t, hct, hc⟩ := p.isRow.reverse.head
  rw [trimmed_reverse, hct, cons_append,
    dropWhile_cons_of_neg (by rw [isDirsep_eq_false hc]; exact Bool.false_ne_true)]

theorem dropWhile_strend : (strend p.path).dropWhile isDirsep = p.trimmed.reverse := by
  rw [strend_path, dropWhile_append_of_pos, dropWhile_trimmed]
  intro c hc
  rw [eq_of_mem_replicate hc]
  rfl

theorem remtpath_path {count : ℕ} (hcount : count ≠ 0) :
    remtpath p.path count =
      some (1, (remtpathScan false count [] p.trimmed).getD p.path) := by
  have hne : p.trimmed.reverse ≠ [] := fun h ↦ p.trimmed_ne_nil (List.reverse_eq_nil_iff.mp h)
  rw [remtpath, if_neg hcount, dropWhile_strend, if_neg hne, if_pos hcount, reverse_reverse]

theorem remlpaths_path (count : ℕ) :
    remlpaths p.path count = some (remlpathsScan p.trimmed false count p.trimmed.reverse []) := by
  rw [remlpaths, strend_path]
  cases htrail : p.trail with
  | zero =>
    obtain ⟨c, t, hct, hc⟩ := p.isRow.reverse.head
    have hpath : p.path = p.trimmed := by
      rw [path, htrail, replicate_zero, append_nil]
    rw [replicate_zero, nil_append, hpath]
    have hhead : p.trimmed.reverse.head? = some c := by
      rw [trimmed_reverse, hct]
      rfl
    rw [hhead, Option.map_some, isDirsep_eq_false hc, if_neg Bool.false_ne_true]
  | succ trail =>
    have hdrop := p.dropWhile_strend
    rw [strend_path, htrail] at hdrop
    rw [hdrop, replicate_succ, cons_append, List.head?_cons, Option.map_some,
      isDirsep_slash, if_pos rfl]
    dsimp only
    rw [reverse_reverse]

theorem headIs_trimmed (rest : Bytes) :
    headIs '/' (p.trimmed ++ rest) = decide (0 < p.lead) := by
  cases hlead : p.lead with
  | zero =>
    obtain ⟨c, t, hct, hc⟩ := p.isRow.head
    have hhead : headIs '/' (c :: t ++ rest) = decide (some c = some slash) := rfl
    rw [trimmed, hlead, replicate_zero, nil_append, hct, hhead]
    simpa using hc
  | succ lead =>
    rw [trimmed, hlead]
    rfl

theorem components_path :
    components p.path = (if 0 < p.lead then [[slash]] else []) ++ names slash p.row := by
  rw [components, path, headIs_trimmed, names_append_replicate, trimmed, names_replicate_append]
  simp only [decide_eq_true_eq]

theorem length_components_path :
    (components p.path).length = (if 0 < p.lead then 1 else 0) + p.count := by
  rw [components_path, length_append, p.isRow.length_names]
  split <;> rfl

end NamedPath

/-- Every path is slashes, or has names. -/
theorem exists_namedPath (path : Bytes) :
    (∃ n, path = List.replicate n slash) ∨ ∃ p : NamedPath, p.path = path := by
  rcases exists_row slash path with h | ⟨lead, m, b, trail, hb, rfl⟩
  · exact .inl h
  · exact .inr ⟨⟨lead, m, b, trail, hb⟩, rfl⟩

theorem length_components_replicate (n : ℕ) :
    (components (List.replicate n slash)).length ≤ 1 := by
  have hnames : names slash (List.replicate n slash) = [] := by
    have h := @names_replicate_append _ slash _ n []
    rwa [append_nil, names_nil] at h
  rw [components, hnames, append_nil]
  split
  · exact Nat.le_refl 1
  · exact Nat.zero_le 1

/-! ## The parts of a path -/

/-- Two slashes and a name: `:h` keeps both slashes. -/
def DoubledRoot (path : Bytes) : Prop :=
  ∃ n trail, IsName slash n ∧ path = slash :: slash :: n ++ List.replicate trail slash

/-- The parts that the two functions keep make up the path. -/
def SplitsAt (path : Bytes) (i : ℕ) : Prop :=
  ∃ head tail, remtpath path i = some (1, head) ∧
    remlpaths path ((components path).length - i) = some (1, tail) ∧
    components (head ++ slash :: tail) = components path

namespace NamedPath

variable (p : NamedPath)

/-- The slashes at the start are kept with as many names as are asked for. -/
theorem remtpath_names {a r : ℕ} {x y : Bytes} (hx : Row slash a x) (hy : y ≠ [])
    (hrow : p.row = x ++ List.replicate (r + 1) slash ++ y) :
    remtpath p.path ((if 0 < p.lead then 1 else 0) + a) =
      some (1, List.replicate p.lead slash ++ x) := by
  have ha := hx.pos
  have hfront : remtpathScan false ((if 0 < p.lead then 1 else 0) + a) [] p.trimmed =
      some (List.replicate p.lead slash ++ x) := by
    rw [trimmed, hrow]
    cases hlead : p.lead with
    | zero =>
      rw [if_neg (Nat.lt_irrefl 0), Nat.zero_add, replicate_zero, nil_append,
        remtpathScan_row hx r hy, nil_append]
    | succ lead =>
      have hrest : x ++ List.replicate (r + 1) slash ++ y ≠ [] := by simp [hy]
      rw [if_pos (Nat.succ_pos lead), remtpathScan_root lead hrest, Nat.add_sub_cancel_left,
        if_neg ha.ne', remtpathScan_row hx r hy]
  rw [remtpath_path _ (by omega), hfront, Option.getD_some]

theorem splitsAt_names {a b : ℕ} (ha : 0 < a) (hb : 0 < b) (hcount : p.count = a + b) :
    SplitsAt p.path ((if 0 < p.lead then 1 else 0) + a) := by
  have hrow := p.isRow
  rw [hcount] at hrow
  obtain ⟨x, r, y, hxy, hx, hy⟩ := hrow.split ha hb
  obtain ⟨c, t, hct, -⟩ := hy.head
  have hkeep : (components p.path).length - ((if 0 < p.lead then 1 else 0) + a) = b := by
    rw [length_components_path, hcount]
    omega
  have htext : p.trimmed =
      List.replicate p.lead slash ++ (x ++ List.replicate (r + 1) slash ++ y) := by
    rw [trimmed, hxy]
  have hback : remlpathsScan p.trimmed false b p.trimmed.reverse [] = (1, y) := by
    have hreverse : p.trimmed.reverse = y.reverse ++ slash ::
        (List.replicate r slash ++ (List.replicate p.lead slash ++ x).reverse) := by
      rw [htext]
      simp only [reverse_append, reverse_replicate, append_assoc]
      rw [replicate_succ, cons_append]
    rw [hreverse, remlpathsScan_row hy.reverse, reverse_reverse, append_nil]
  refine ⟨List.replicate p.lead slash ++ x, y, ?_, ?_, ?_⟩
  · exact p.remtpath_names hx (by simp [hct]) hxy
  · rw [hkeep, remlpaths_path, hback]
  · have hhead : headIs '/' (List.replicate p.lead slash ++ x ++ slash :: y) =
        decide (0 < p.lead) := (⟨p.lead, a, x, 0, hx⟩ : NamedPath).headIs_trimmed (slash :: y)
    rw [components_path, components, hhead, names_append_sep, names_replicate_append, hxy,
      names_append_gap]
    simp only [decide_eq_true_eq]

theorem splitsAt_root (hlead : 0 < p.lead) : SplitsAt p.path 1 := by
  obtain ⟨lead, hlead'⟩ := Nat.exists_eq_add_of_lt hlead
  rw [Nat.zero_add] at hlead'
  have hkeep : (components p.path).length - 1 = p.count := by
    rw [length_components_path, if_pos hlead, Nat.add_sub_cancel_left]
  obtain ⟨c, t, hct, -⟩ := p.isRow.head
  have hrow : p.row ≠ [] := by simp [hct]
  have hfront : remtpathScan false 1 [] p.trimmed = some [slash] := by
    rw [trimmed, hlead', remtpathScan_root lead hrow, if_pos rfl]
  have hback : remlpathsScan p.trimmed false p.count p.trimmed.reverse [] = (1, p.row) := by
    rw [trimmed_reverse, hlead', replicate_succ, remlpathsScan_row p.isRow.reverse,
      reverse_reverse, append_nil]
  refine ⟨[slash], p.row, ?_, ?_, ?_⟩
  · rw [remtpath_path _ Nat.one_ne_zero, hfront, Option.getD_some]
  · rw [hkeep, remlpaths_path, hback]
  · rw [components_path, if_pos hlead, components]
    have hnames := @names_replicate_append _ slash _ 2 p.row
    exact congrArg ([[slash]] ++ ·) hnames

theorem splitsAt {i : ℕ} (hi : 1 ≤ i) (hcount : i < (components p.path).length) :
    SplitsAt p.path i := by
  rw [length_components_path] at hcount
  by_cases hlead : 0 < p.lead
  · rcases hi.eq_or_lt with rfl | hlt
    · exact p.splitsAt_root hlead
    · have h := p.splitsAt_names (a := i - 1) (b := p.count - (i - 1))
      rw [if_pos hlead] at h hcount
      rw [Nat.add_sub_cancel' hi] at h
      exact h (by omega) (by omega) (by omega)
  · have h := p.splitsAt_names (a := i) (b := p.count - i)
    rw [if_neg hlead, Nat.zero_add] at h
    rw [if_neg hlead, Nat.zero_add] at hcount
    exact h hi (by omega) (by omega)

/-- With more than one name, `:h` takes away the last one and the slashes in front of it. -/
theorem remtpath_zero_names {a : ℕ} {x n : Bytes} (hx : Row slash a x) (hn : IsName slash n)
    (r : ℕ) (hrow : p.row = x ++ List.replicate (r + 1) slash ++ n) :
    remtpath p.path 0 = some (1, List.replicate p.lead slash ++ x) := by
  obtain ⟨c, t, hct, hc⟩ := hx.reverse.head
  have htext : p.trimmed.reverse = n.reverse ++ (List.replicate (r + 1) slash ++
      c :: (t ++ List.replicate p.lead slash)) := by
    rw [trimmed_reverse, hrow]
    simp only [reverse_append, reverse_replicate, append_assoc, hct,
      cons_append]
  have hname : ∀ d ∈ n.reverse, (!isDirsep d) = true := by
    intro d hd
    have hne : d ≠ slash := fun h ↦ hn.sep_notMem (h ▸ List.mem_reverse.mp hd)
    rw [isDirsep_eq_false hne]
    rfl
  have hdrop : p.trimmed.reverse.dropWhile (!isDirsep ·) =
      List.replicate (r + 1) slash ++ c :: (t ++ List.replicate p.lead slash) := by
    rw [htext, dropWhile_append_of_pos hname, replicate_succ, cons_append,
      dropWhile_cons_of_neg (by decide)]
  have hsqueeze : squeeze (List.replicate (r + 1) slash ++
      c :: (t ++ List.replicate p.lead slash)) =
        slash :: c :: (t ++ List.replicate p.lead slash) := by
    apply squeeze_replicate
    rintro d ⟨⟩
    exact isDirsep_eq_false hc
  have hpath : (c :: (t ++ List.replicate p.lead slash)).reverse =
      List.replicate p.lead slash ++ x := by
    rw [← cons_append, ← hct, reverse_append, reverse_replicate,
      reverse_reverse]
  rw [remtpath, if_pos rfl, dropWhile_strend, hdrop, if_neg (by simp), if_neg (not_not.mpr rfl),
    hsqueeze]
  dsimp only
  rw [hpath]

/-- With one name behind slashes, `:h` keeps the root slash, or two of them. -/
theorem remtpath_zero_root {n : Bytes} (hn : IsName slash n) (hrow : p.row = n) {lead : ℕ}
    (hlead : p.lead = lead + 1) :
    remtpath p.path 0 = some (1, if lead = 1 then [slash, slash] else [slash]) := by
  have hname : ∀ d ∈ n.reverse, (!isDirsep d) = true := by
    intro d hd
    have hne : d ≠ slash := fun h ↦ hn.sep_notMem (h ▸ List.mem_reverse.mp hd)
    rw [isDirsep_eq_false hne]
    rfl
  have hdrop : p.trimmed.reverse.dropWhile (!isDirsep ·) = List.replicate (lead + 1) slash := by
    rw [trimmed_reverse, hrow, hlead, dropWhile_append_of_pos hname, replicate_succ,
      dropWhile_cons_of_neg (by decide)]
  have hsqueeze : squeeze (List.replicate (lead + 1) slash) = [slash] := by
    have h := @squeeze_replicate lead [] (by simp)
    rwa [append_nil] at h
  obtain ⟨c, t, hct, hc⟩ := (Row.name hn).head
  have hpath : p.path = List.replicate (lead + 1) slash ++
      c :: (t ++ List.replicate p.trail slash) := by
    rw [path, trimmed, hrow, hlead, hct, append_assoc, cons_append]
  have hsep := isDirsep_eq_false hc
  rw [remtpath, if_pos rfl, dropWhile_strend, hdrop, if_neg (by simp), if_neg (not_not.mpr rfl),
    hsqueeze, hpath]
  match lead with
  | 0 =>
    have hsecond : charAt (List.replicate 1 slash ++ c :: (t ++ List.replicate p.trail slash)) 1 =
        some c := rfl
    rw [hsecond, Option.bind_some, hsep, if_neg Bool.false_ne_true]
    rfl
  | 1 =>
    have hsecond : charAt (List.replicate 2 slash ++ c :: (t ++ List.replicate p.trail slash)) 1 =
        some slash := rfl
    have hthird : charAt (List.replicate 2 slash ++ c :: (t ++ List.replicate p.trail slash)) 2 =
        some c := rfl
    rw [hsecond, Option.bind_some, isDirsep_slash, if_pos rfl, hthird, Option.bind_some, hsep,
      if_neg Bool.false_ne_true]
    rfl
  | lead + 2 =>
    rfl

/-- `:h` takes away the last component, but for the second of two slashes in front of a name. -/
theorem remtpath_zero (hroot : ¬ DoubledRoot p.path) :
    remtpath p.path 0 = remtpath p.path ((components p.path).length - 1) := by
  rw [length_components_path]
  rcases p.isRow.last with ⟨hone, hn⟩ | ⟨k, x, r, n, hcount, hrow, hx, hn⟩
  · cases hlead : p.lead with
    | zero => rw [hone, if_neg (Nat.lt_irrefl 0)]
    | succ lead =>
      have hnot : lead ≠ 1 := by
        rintro rfl
        apply hroot
        refine ⟨p.row, p.trail, hn, ?_⟩
        rw [path, trimmed, hlead]
        rfl
      have hfront : remtpathScan false 1 [] p.trimmed = some [slash] := by
        rw [trimmed, hlead, remtpathScan_root lead hn.ne_nil, if_pos rfl]
      rw [p.remtpath_zero_root hn rfl hlead, if_neg hnot, hone, if_pos (Nat.succ_pos lead),
        remtpath_path _ (by omega), hfront, Option.getD_some]
  · rw [p.remtpath_zero_names hx hn r hrow, hcount, ← Nat.add_assoc, Nat.add_sub_cancel,
      p.remtpath_names hx hn.ne_nil hrow]

end NamedPath

theorem DoubledRoot.remtpath {path : Bytes} (h : DoubledRoot path) :
    remtpath path 0 = some (1, [slash, slash]) := by
  obtain ⟨n, trail, hn, rfl⟩ := h
  exact (⟨2, 1, n, trail, .name hn⟩ : NamedPath).remtpath_zero_root hn rfl rfl

/-- What the two functions do to a path. -/
structure PartsRight (path : Bytes) : Prop where
  splits : ∀ i, 1 ≤ i → i < (components path).length → SplitsAt path i
  tail : remlpaths path 0 = remlpaths path 1
  inside : ∀ count, (remtpath path count).isSome ∧ (remlpaths path count).isSome

theorem partsRight (path : Bytes) : PartsRight path where
  splits i hi hcount := by
    rcases exists_namedPath path with ⟨n, rfl⟩ | ⟨p, rfl⟩
    · have := length_components_replicate n
      omega
    · exact p.splitsAt hi hcount
  tail := by
    unfold remlpaths
    rw [remlpathsScan_zero, remlpathsScan_zero]
  inside count := ⟨remtpath_isSome path count, remlpaths_isSome path count⟩

/-- The two functions take a path apart, and `:h` without a count takes away the last component,
except where two slashes stand in front of a single name: there it keeps both. -/
theorem partsRight_and_head (path : Bytes) :
    PartsRight path ∧
      (¬ DoubledRoot path → 1 ≤ (components path).length →
        remtpath path 0 = remtpath path ((components path).length - 1)) ∧
      (DoubledRoot path → remtpath path 0 = some (1, [slash, slash])) := by
  refine ⟨partsRight path, fun hroot hcount ↦ ?_, DoubledRoot.remtpath⟩
  rcases exists_namedPath path with ⟨n, rfl⟩ | ⟨p, rfl⟩
  · rw [(length_components_replicate n).antisymm hcount]
  · exact p.remtpath_zero hroot

/-- The path `//a` has two components; with the count 1 its head is `/`, without a count `//`. -/
theorem remtpath_doubledRoot :
    ¬ ∀ path, 1 ≤ (components path).length →
      remtpath path 0 = remtpath path ((components path).length - 1) := by
  intro h
  have hpath := h (Bytes.ascii "//a") (by decide)
  revert hpath
  decide

end Bsh.Hist
