import Bsh.Hist.PathParts
import Bsh.Shell.Metafy
import Bsh.Shell.QuotedRound

/-!
# The modifier `:a`

`chabspath` makes a path absolute and removes `.` and `..` from it, in place: what is written comes
out of a cursor that never gets ahead of the one that reads.  A component is removed by going back
to the slash in front of it; a component that ends in two dots is taken for a `..` written before.
-/

namespace Bsh.Hist

open Bsh.Library Bsh.Library.Names Bsh.Shell List

def dot : UInt8 := char '.'

/-- `!*s || *s == '/'`. -/
def atEnd (s : Bytes) : Bool := s.head?.all isDirsep

/-- The loop that copies a component: `dest`, the last byte first, and `current`.  There is no
result when it copies the terminator and reads behind it. -/
def copyName : Bytes → Bytes → Option (Bytes × Bytes)
  | dest, [] => some (dest, [])
  | dest, [c] =>
    if c = slash then some (dest, [c]) else if c = metaByte then none else some (c :: dest, [])
  | dest, c :: d :: current =>
    if c = slash then some (dest, c :: d :: current)
    else if c = metaByte then copyName (d :: c :: dest) current
    else copyName (c :: dest) (d :: current)

/-- `for (; dest > *junkptr + 1 && dest[-1] != '/'; dest--)`. -/
def backToSlash : Bytes → Bytes
  | c :: d :: dest => if c = slash then c :: d :: dest else backToSlash (d :: dest)
  | dest => dest

/-- Removing the last component; `dest[-1]` is not read in front of the string. -/
def removeLast (dest : Bytes) : Option Bytes :=
  match backToSlash dest.tail with
  | [] => none
  | c :: dest => some (if c = slash then c :: dest else dest)

/-- `while (dest > *junkptr + 1 && dest[-1] == '/') dest--`. -/
def stripSlashes : Bytes → Bytes
  | c :: d :: dest => if c = slash then stripSlashes (d :: dest) else c :: d :: dest
  | dest => dest

theorem copyName_length {dest current dest' current' : Bytes}
    (h : copyName dest current = some (dest', current')) : current'.length ≤ current.length := by
  induction current using List.twoStepInduction generalizing dest with
  | nil =>
    cases h
    exact Nat.le_refl _
  | singleton c =>
    rw [copyName] at h
    split at h
    · cases h
      exact Nat.le_refl _
    · split at h
      · cases h
      · cases h
        exact Nat.zero_le _
  | cons_cons c d current ih ihd =>
    rw [copyName] at h
    split at h
    · cases h
      exact Nat.le_refl _
    · split at h
      · exact (ih h).trans (Nat.le_add_right _ 2)
      · exact (ihd d h).trans (Nat.le_succ _)

theorem copyName_length_lt {c : UInt8} (hc : c ≠ slash) {dest current dest' current' : Bytes}
    (h : copyName dest (c :: current) = some (dest', current')) :
    current'.length < (c :: current).length := by
  cases current with
  | nil =>
    rw [copyName, if_neg hc] at h
    split at h
    · cases h
    · cases h
      exact Nat.one_pos
  | cons d current =>
    rw [copyName, if_neg hc] at h
    split at h
    · exact (copyName_length h).trans_lt (by simp)
    · exact (copyName_length h).trans_lt (Nat.lt_succ_self _)

/-- The loop of `chabspath`, with what has been written, the last byte first, and what is to be
read. -/
def chabspathLoop (dest current : Bytes) : Option (ℕ × Bytes) :=
  match current with
  | [] => some (1, (stripSlashes dest).reverse)
  | c :: rest =>
    if _hslash : c = slash then chabspathLoop (c :: dest) (rest.dropWhile isDirsep)
    else if c = dot ∧ headIs '.' rest ∧ atEnd rest.tail then
      -- at the start of the path `dest` is at the start too
      if dest = [] then chabspathLoop (dot :: dot :: dest) rest.tail
      else if 2 < dest.length ∧ dest.take 3 = [slash, dot, dot] then
        chabspathLoop (dot :: dot :: dest) rest.tail
      else if 1 < dest.length then
        (removeLast dest).bind fun dest ↦
          chabspathLoop dest (if headIs '/' rest.tail then rest.tail.tail else rest.tail)
      else if dest.length = 1 then chabspathLoop dest rest.tail
      else some (0, dest.reverse ++ current)
    else if c = dot ∧ atEnd rest then chabspathLoop dest (rest.dropWhile isDirsep)
    else
      match _hcopy : copyName dest (c :: rest) with
      | none => none
      | some (dest', current') => chabspathLoop dest' current'
  termination_by current.length
  decreasing_by
    · exact Nat.lt_succ_of_le (dropWhile_suffix _).length_le
    · simp only [length_tail, length_cons]
      omega
    · simp only [length_tail, length_cons]
      omega
    · split
      · simp only [length_tail, length_cons]
        omega
      · simp only [length_tail, length_cons]
        omega
    · simp only [length_tail, length_cons]
      omega
    · exact Nat.lt_succ_of_le (dropWhile_suffix _).length_le
    · exact copyName_length_lt _hslash _hcopy

/-- The working directory, as `zgetcwd` returns it: the root, or an absolute path without a slash at
its end. -/
structure WorkingDir where
  here : Bytes
  absolute : here.head? = some slash
  plain_end : here ≠ [slash] → here.getLast? ≠ some slash

/-- `*junkptr` behind the first part of `chabspath`. -/
def WorkingDir.full (cwd : WorkingDir) (path : Bytes) : Bytes :=
  if headIs '/' path then path
  else if cwd.here.getLast? ≠ some slash then metafied cwd.here ++ slash :: path
  else cwd.here ++ path

/-- `chabspath`, without `HAVE_SUPERROOT`: the value returned and the path. -/
def chabspath (cwd : WorkingDir) (path : Bytes) : Option (ℕ × Bytes) :=
  if path = [] then some (1, path) else chabspathLoop [] (cwd.full path)

/-! ## The normal form -/

/-- What a component does to the components before it, the last one first. -/
def normalStep (stack : List Bytes) (name : Bytes) : List Bytes :=
  if name = [dot] then stack else if name = [dot, dot] then stack.tail else name :: stack

/-- The components of the normal form, the last one first. -/
def normalStack (path : Bytes) : List Bytes :=
  ((pieces slash path).2.map Prod.fst).foldl normalStep []

/-- A directory with a slash behind each of its components. -/
def dirText : List Bytes → Bytes
  | [] => [slash]
  | name :: stack => dirText stack ++ name ++ [slash]

/-- The path with these components, the last one first. -/
def pathText : List Bytes → Bytes
  | [] => [slash]
  | name :: stack => dirText stack ++ name

/-- The lexical normal form of an absolute path. -/
def normalForm (path : Bytes) : Bytes := pathText (normalStack path)

/-- `chabspath` gives the normal form of the absolute path, and leaves it alone. -/
def AbsRight (cwd : WorkingDir) (path : Bytes) : Prop :=
  chabspath cwd path = some (1, normalForm (cwd.full path)) ∧
    chabspath cwd (normalForm (cwd.full path)) = some (1, normalForm (cwd.full path))

/-! ## The marks that are left behind -/

/-- `dest[-3]` to `dest[-1]` would be `../` behind this component. -/
def endsInDots (name : Bytes) : Bool := name.reverse.take 2 = [dot, dot]

/-- What a component and the slashes behind it leave on the stack.  A `..` that takes a component
away leaves a mark, an empty component, when two slashes or more follow it, and a `..` at the root
when one does; over a component that ends in two dots it stays itself. -/
def markedStep (stack : List Bytes) (piece : Bytes × ℕ) : List Bytes :=
  if piece.1 = [dot] then stack
  else if piece.1 = [dot, dot] then
    match stack with
    | [] => if 0 < piece.2 then [[]] else []
    | name :: stack =>
      if endsInDots name then [dot, dot] :: name :: stack
      else if 1 < piece.2 then [] :: stack else stack
  else piece.1 :: stack

def markedStack (path : Bytes) : List Bytes := (pieces slash path).2.foldl markedStep []

/-- The marked stack, without the marks on its top, is as high as that of the normal form. -/
def MarksGone (path : Bytes) : Prop :=
  ((markedStack path).dropWhile (· = [])).length = (normalStack path).length

end Bsh.Hist

/-!
# What `chabspath` does to a path

The components of a path are read one after the other, each with the slashes behind it.  What has
been written is a stack of components with slashes between them, and each component changes it as
`markedStep` says.  The path comes out in its normal form exactly when no mark is left in the stack
that makes it higher than the stack of the normal form.
-/

namespace Bsh.Hist

open Bsh.Library Bsh.Library.Names Bsh.Shell List

/-! ## One component -/

/-- What comes behind a component: nothing, or slashes. -/
def Behind (v : Bytes) : Prop := ∀ c ∈ v.head?, c = slash

theorem atEnd_of_behind {v : Bytes} (hv : Behind v) : atEnd v = true := by
  cases v with
  | nil => rfl
  | cons c v => exact decide_eq_true (hv c rfl)

theorem slash_ne_dot : slash ≠ dot := by decide

theorem isDots_iff {c : UInt8} {n v : Bytes} (hn : slash ∉ c :: n) (hv : Behind v) :
    (c = dot ∧ headIs '.' (n ++ v) = true ∧ atEnd (n ++ v).tail = true) ↔ c :: n = [dot, dot] := by
  have hsep {d : UInt8} (hd : d ∈ c :: n) : isDirsep d = false :=
    isDirsep_eq_false fun h ↦ hn (h ▸ hd)
  constructor
  · rintro ⟨rfl, hhead, hend⟩
    match n, v, hv with
    | [], [], _ => cases hhead
    | [], d :: v, hv =>
      have hd : d = dot := by simpa [headIs, dot] using hhead
      exact absurd (hv d rfl) fun h ↦ slash_ne_dot (h.symm.trans hd)
    | [d], v, _ =>
      have hd : d = dot := by simpa [headIs, dot] using hhead
      rw [hd]
    | d :: e :: n, v, _ =>
      have he : isDirsep e = true := hend
      rw [hsep (by simp)] at he
      cases he
  · intro h
    obtain ⟨rfl, rfl⟩ := List.cons.inj h
    exact ⟨rfl, rfl, atEnd_of_behind hv⟩

theorem isDot_iff {c : UInt8} {n v : Bytes} (hn : slash ∉ c :: n) (hv : Behind v) :
    (c = dot ∧ atEnd (n ++ v) = true) ↔ c :: n = [dot] := by
  constructor
  · rintro ⟨rfl, hend⟩
    cases n with
    | nil => rfl
    | cons d n =>
      have hd : isDirsep d = true := hend
      rw [isDirsep_eq_false fun h ↦ hn (h ▸ by simp)] at hd
      cases hd
  · intro h
    obtain ⟨rfl, rfl⟩ := List.cons.inj h
    exact ⟨rfl, atEnd_of_behind hv⟩

theorem copyName_cons {c : UInt8} (hc : c ≠ slash) (hmeta : c ≠ metaByte) (dest current : Bytes) :
    copyName dest (c :: current) = copyName (c :: dest) current := by
  cases current with
  | nil => simp only [copyName, if_neg hc, if_neg hmeta]
  | cons d current => rw [copyName, if_neg hc, if_neg hmeta]

theorem copyName_behind {v : Bytes} (hv : Behind v) (dest : Bytes) :
    copyName dest v = some (dest, v) := by
  match v, hv with
  | [], _ => rfl
  | [c], hv => rw [copyName, if_pos (hv c rfl)]
  | c :: d :: v, hv => rw [copyName, if_pos (hv c rfl)]

theorem copyName_metafied {n : Bytes} (hn : slash ∉ n) {v : Bytes} (hv : Behind v) (dest : Bytes) :
    copyName dest (metafied n ++ v) = some ((metafied n).reverse ++ dest, v) := by
  induction n generalizing dest with
  | nil => exact copyName_behind hv dest
  | cons c n ih =>
    rw [mem_cons, not_or] at hn
    have hnext := ih hn.2
    cases hc : imeta c with
    | true =>
      have hunit : metafied (c :: n) = metaByte :: (c ^^^ 32) :: metafied n := by
        rw [metafied, EscapeCode.encode_cons, EscapeCode.unit_special metaCode hc]
        rfl
      rw [hunit, cons_append, cons_append, copyName, if_neg (by decide), if_pos rfl,
        hnext]
      simp
    | false =>
      have hunit : metafied (c :: n) = c :: metafied n := by
        rw [metafied, EscapeCode.encode_cons, EscapeCode.unit_plain metaCode hc]
        rfl
      rw [hunit, cons_append, copyName_cons (Ne.symm hn.1) (not_imeta_ne_meta hc), hnext]
      simp

theorem slash_notMem_metafied {n : Bytes} (hn : slash ∉ n) : slash ∉ metafied n := by
  induction n with
  | nil => exact hn
  | cons c n ih =>
    rw [mem_cons, not_or] at hn
    cases hc : imeta c with
    | true =>
      have hflip : slash ≠ c ^^^ 32 := by
        intro h
        have hback : c = slash ^^^ 32 := by
          rw [h, UInt8.xor_assoc, UInt8.xor_self, UInt8.xor_zero]
        rw [hback] at hc
        revert hc
        decide
      rw [metafied, EscapeCode.encode_cons, EscapeCode.unit_special metaCode hc, mem_append,
        not_or]
      refine ⟨?_, ih hn.2⟩
      rw [mem_cons, mem_singleton, not_or]
      exact ⟨by decide, hflip⟩
    | false =>
      rw [metafied, EscapeCode.encode_cons, EscapeCode.unit_plain metaCode hc, mem_append,
        not_or]
      exact ⟨by simpa using hn.1, ih hn.2⟩

theorem isName_metafied {n : Bytes} (hn : IsName slash n) : IsName slash (metafied n) := by
  refine ⟨fun h ↦ hn.ne_nil ?_, slash_notMem_metafied hn.sep_notMem⟩
  have hlength := EscapeCode.length_encode metaCode n
  rw [← metafied, h, length_nil] at hlength
  exact List.length_eq_zero_iff.mp (by omega)

/-! ## The branches of the loop -/

theorem chabspathLoop_name {n : Bytes} (hn : IsName slash n) (hdot : metafied n ≠ [dot])
    (hdots : metafied n ≠ [dot, dot]) {v : Bytes} (hv : Behind v) (dest : Bytes) :
    chabspathLoop dest (metafied n ++ v) = chabspathLoop ((metafied n).reverse ++ dest) v := by
  have hcopy := copyName_metafied hn.sep_notMem hv dest
  have hsep := slash_notMem_metafied hn.sep_notMem
  obtain ⟨c, m, hm⟩ := exists_cons_of_ne_nil (isName_metafied hn).ne_nil
  rw [hm] at hsep hdot hdots hcopy ⊢
  have hc : ¬ c = slash := fun h ↦ hsep (h ▸ mem_cons_self)
  rw [cons_append] at hcopy ⊢
  rw [chabspathLoop]
  rw [dif_neg hc, if_neg (mt (isDots_iff hsep hv).mp hdots), if_neg (mt (isDot_iff hsep hv).mp hdot)]
  split
  · rw [hcopy] at *
    cases ‹_›
  · rw [hcopy] at *
    cases ‹_›
    rfl

theorem dropWhile_slashes (r : ℕ) {w : Bytes} (hw : ∀ c ∈ w.head?, c ≠ slash) :
    (List.replicate r slash ++ w).dropWhile isDirsep = w := by
  have hslash : ∀ c ∈ List.replicate r slash, isDirsep c = true := fun c hc ↦
    decide_eq_true (eq_of_mem_replicate hc)
  rw [dropWhile_append_of_pos hslash]
  cases w with
  | nil => rfl
  | cons c w =>
    rw [dropWhile_cons_of_neg]
    rw [isDirsep_eq_false (hw c rfl)]
    exact Bool.false_ne_true

theorem chabspathLoop_slashes (r : ℕ) {w : Bytes} (hw : ∀ c ∈ w.head?, c ≠ slash) (dest : Bytes) :
    chabspathLoop dest (List.replicate (r + 1) slash ++ w) = chabspathLoop (slash :: dest) w := by
  rw [replicate_succ, cons_append, chabspathLoop]
  rw [dif_pos rfl, dropWhile_slashes r hw]

theorem chabspathLoop_dot {v : Bytes} (hv : Behind v) (dest : Bytes) :
    chabspathLoop dest (dot :: v) = chabspathLoop dest (v.dropWhile isDirsep) := by
  have hsep : slash ∉ [dot] := by decide
  have hdots : ¬ (dot = dot ∧ headIs '.' v = true ∧ atEnd v.tail = true) :=
    mt (@isDots_iff dot [] v hsep hv).mp (by decide)
  have hdot : dot = dot ∧ atEnd v = true := (@isDot_iff dot [] v hsep hv).mpr rfl
  rw [chabspathLoop]
  rw [dif_neg slash_ne_dot.symm, if_neg hdots, if_pos hdot]

theorem chabspathLoop_dots {v : Bytes} (hv : Behind v) {dest : Bytes} (hdest : dest ≠ []) :
    chabspathLoop dest (dot :: dot :: v) =
      if 2 < dest.length ∧ dest.take 3 = [slash, dot, dot] then
        chabspathLoop (dot :: dot :: dest) v
      else if 1 < dest.length then
        (removeLast dest).bind fun dest ↦
          chabspathLoop dest (if headIs '/' v then v.tail else v)
      else chabspathLoop dest v := by
  have hsep : slash ∉ [dot, dot] := by decide
  have hdots : dot = dot ∧ headIs '.' (dot :: v) = true ∧ atEnd (dot :: v).tail = true :=
    (@isDots_iff dot [dot] v hsep hv).mpr rfl
  have hone : ¬ 1 < dest.length → dest.length = 1 := by
    have := List.length_pos_iff.mpr hdest
    omega
  rw [chabspathLoop]
  rw [dif_neg slash_ne_dot.symm, if_pos hdots, if_neg hdest]
  dsimp only [tail_cons]
  by_cases hlength : 1 < dest.length
  · rw [if_pos hlength, if_pos hlength]
    all_goals rfl
  · rw [if_neg hlength, if_neg hlength, if_pos (hone hlength)]

/-! ## What has been written -/

theorem dirText_reverse (name : Bytes) (stack : List Bytes) :
    (dirText (name :: stack)).reverse = slash :: (name.reverse ++ (dirText stack).reverse) := by
  rw [dirText, reverse_append, reverse_append]
  rfl

theorem dirText_reverse_head (stack : List Bytes) : ∃ t, (dirText stack).reverse = slash :: t := by
  cases stack with
  | nil => exact ⟨[], rfl⟩
  | cons name stack => exact ⟨_, dirText_reverse name stack⟩

/-- The test for `../` in front of the cursor looks at the last component. -/
theorem take_dirText_iff (name : Bytes) (stack : List Bytes) :
    (2 < (dirText (name :: stack)).reverse.length ∧
      (dirText (name :: stack)).reverse.take 3 = [slash, dot, dot]) ↔ endsInDots name = true := by
  obtain ⟨t, ht⟩ := dirText_reverse_head stack
  have htake : (dirText (name :: stack)).reverse.take 3 =
      slash :: (name.reverse ++ slash :: t).take 2 := by
    rw [dirText_reverse, ht]
    rfl
  have hlast : (name.reverse ++ slash :: t).take 2 = [dot, dot] ↔ endsInDots name = true := by
    unfold endsInDots
    rw [decide_eq_true_iff]
    match name.reverse with
    | [] => exact ⟨fun h ↦ absurd (List.cons.inj h).1 slash_ne_dot, fun h ↦ nomatch h⟩
    | [a] =>
      refine ⟨fun h ↦ ?_, fun h ↦ nomatch h⟩
      exact absurd (List.cons.inj (List.cons.inj h).2).1 slash_ne_dot
    | a :: b :: u => exact Iff.rfl
  rw [htake, List.cons.injEq, hlast]
  constructor
  · exact fun h ↦ h.2.2
  · intro h
    refine ⟨?_, rfl, h⟩
    have hlength := congrArg List.length (hlast.mpr h)
    rw [length_take, length_append] at hlength
    rw [dirText_reverse, ht, length_cons, length_append]
    change min 2 _ = 2 at hlength
    omega

theorem backToSlash_append {u t : Bytes} (hu : slash ∉ u) :
    backToSlash (u ++ slash :: t) = slash :: t := by
  induction u with
  | nil => cases t <;> rfl
  | cons c u ih =>
    rw [mem_cons, not_or] at hu
    obtain ⟨d, w, hw⟩ : ∃ d w, u ++ slash :: t = d :: w :=
      exists_cons_of_ne_nil (by simp)
    have hnext := ih hu.2
    rw [hw] at hnext
    rw [cons_append, hw, backToSlash, if_neg (Ne.symm hu.1), hnext]

theorem removeLast_dirText {name : Bytes} (hname : slash ∉ name) (stack : List Bytes) :
    removeLast (dirText (name :: stack)).reverse = some (dirText stack).reverse := by
  obtain ⟨t, ht⟩ := dirText_reverse_head stack
  have hname' : slash ∉ name.reverse := fun h ↦ hname (List.mem_reverse.mp h)
  rw [dirText_reverse, removeLast, tail_cons, ht, backToSlash_append hname']
  dsimp only
  rw [if_pos rfl]

/-- A component at the end of the path is not touched by the stripping. -/
theorem stripSlashes_name {name : Bytes} (hname : IsName slash name) (stack : List Bytes) :
    stripSlashes (name.reverse ++ (dirText stack).reverse) = (pathText (name :: stack)).reverse := by
  have hrev := hname.reverse
  obtain ⟨t, ht⟩ := dirText_reverse_head stack
  obtain ⟨c, u, hu⟩ := exists_cons_of_ne_nil hrev.ne_nil
  have hc : ¬ c = slash := fun h ↦ hrev.sep_notMem (hu ▸ h ▸ mem_cons_self)
  obtain ⟨d, w, hw⟩ : ∃ d w, u ++ slash :: t = d :: w := exists_cons_of_ne_nil (by simp)
  rw [pathText, reverse_append, ht, hu, cons_append, hw, stripSlashes, if_neg hc]

/-- The marks on top of the stack are stripped with the slashes at the end. -/
theorem stripSlashes_dirText {stack : List Bytes} (hstack : ∀ name ∈ stack, slash ∉ name) :
    stripSlashes (dirText stack).reverse = (pathText (stack.dropWhile (· = []))).reverse := by
  induction stack with
  | nil => rfl
  | cons name stack ih =>
    obtain ⟨t, ht⟩ := dirText_reverse_head stack
    have hrest := ih fun m hm ↦ hstack m (mem_cons_of_mem _ hm)
    by_cases hname : name = []
    · subst hname
      rw [dirText_reverse, reverse_nil, nil_append, ht, stripSlashes, if_pos rfl, ← ht,
        hrest, dropWhile_cons_of_pos (by simp)]
    · have hisName : IsName slash name := ⟨hname, hstack name mem_cons_self⟩
      obtain ⟨c, u, hu⟩ : ∃ c u, name.reverse ++ (dirText stack).reverse = c :: u :=
        exists_cons_of_ne_nil (by simp [hname])
      rw [dirText_reverse, dropWhile_cons_of_neg (by simpa using hname),
        ← stripSlashes_name hisName, hu, stripSlashes, if_pos rfl]

/-! ## All components -/

/-- A piece of a path, in its metafied form. -/
def metafiedPiece (p : Bytes × ℕ) : Bytes × ℕ := (metafied p.1, p.2)

theorem behind_replicate (r : ℕ) {w : Bytes} : Behind (List.replicate (r + 1) slash ++ w) := by
  rintro c ⟨⟩
  rfl

theorem behind_nil : Behind [] := fun _ h ↦ nomatch h

theorem ne_nil_dirText (stack : List Bytes) : (dirText stack).reverse ≠ [] := by
  obtain ⟨t, ht⟩ := dirText_reverse_head stack
  rw [ht]
  exact cons_ne_nil slash t

/-- What `..` does to the components written, with what comes behind it. -/
theorem chabspathLoop_up {stack : List Bytes} (hstack : ∀ name ∈ stack, slash ∉ name) {v : Bytes}
    (hv : Behind v) :
    chabspathLoop (dirText stack).reverse (dot :: dot :: v) =
      match stack with
      | [] => chabspathLoop (dirText []).reverse v
      | name :: stack =>
        if endsInDots name then chabspathLoop (dot :: dot :: (dirText (name :: stack)).reverse) v
        else chabspathLoop (dirText stack).reverse (if headIs '/' v then v.tail else v) := by
  rw [chabspathLoop_dots hv (ne_nil_dirText stack)]
  cases stack with
  | nil =>
    rw [if_neg (by decide), if_neg (by decide)]
  | cons name stack =>
    have hlength : 1 < (dirText (name :: stack)).reverse.length := by
      obtain ⟨t, ht⟩ := dirText_reverse_head stack
      rw [dirText_reverse, ht, length_cons, length_append, length_cons]
      omega
    dsimp only
    by_cases hname : endsInDots name = true
    · rw [if_pos ((take_dirText_iff name stack).mpr hname), if_pos hname]
    · rw [if_neg (mt (take_dirText_iff name stack).mp hname), if_neg hname, if_pos hlength,
        removeLast_dirText (hstack name mem_cons_self), Option.bind_some]

/-- A component with slashes behind it changes the stack as `markedStep` says. -/
theorem chabspathLoop_piece {stack : List Bytes} (hstack : ∀ name ∈ stack, slash ∉ name) {n : Bytes}
    (hn : IsName slash n) (r : ℕ) {w : Bytes} (hw : ∀ c ∈ w.head?, c ≠ slash) :
    chabspathLoop (dirText stack).reverse (metafied n ++ List.replicate (r + 1) slash ++ w) =
      chabspathLoop (dirText (markedStep stack (metafied n, r + 1))).reverse w := by
  have hv : Behind (List.replicate (r + 1) slash ++ w) := behind_replicate r
  rw [append_assoc]
  unfold markedStep
  by_cases hdot : metafied n = [dot]
  · rw [if_pos hdot, hdot, singleton_append, chabspathLoop_dot hv,
      dropWhile_slashes (r + 1) hw]
  · rw [if_neg hdot]
    by_cases hdots : metafied n = [dot, dot]
    · rw [if_pos hdots, hdots, cons_append, singleton_append, chabspathLoop_up hstack hv]
      cases stack with
      | nil =>
        rw [chabspathLoop_slashes r hw, if_pos (Nat.succ_pos r)]
        rfl
      | cons name stack =>
        dsimp only
        by_cases hname : endsInDots name = true
        · rw [if_pos hname, if_pos hname, chabspathLoop_slashes r hw,
            dirText_reverse [dot, dot] (name :: stack)]
          rfl
        · have hhead : headIs '/' (List.replicate (r + 1) slash ++ w) = true := rfl
          have htail : (List.replicate (r + 1) slash ++ w).tail = List.replicate r slash ++ w := rfl
          rw [if_neg hname, if_neg hname, if_pos hhead, htail]
          cases r with
          | zero =>
            rw [replicate_zero, nil_append, if_neg (by omega)]
          | succ r =>
            rw [chabspathLoop_slashes r hw, if_pos (by omega), dirText_reverse]
            rfl
    · rw [if_neg hdots, chabspathLoop_name hn hdot hdots hv, chabspathLoop_slashes r hw,
        dirText_reverse]

theorem chabspathLoop_nil {stack : List Bytes} (hstack : ∀ name ∈ stack, slash ∉ name) :
    chabspathLoop (dirText stack).reverse [] =
      some (1, pathText (stack.dropWhile (· = []))) := by
  rw [chabspathLoop, stripSlashes_dirText hstack, reverse_reverse]

theorem chabspathLoop_last {stack : List Bytes} (hstack : ∀ name ∈ stack, slash ∉ name) {n : Bytes}
    (hn : IsName slash n) :
    chabspathLoop (dirText stack).reverse (metafied n) =
      some (1, pathText ((markedStep stack (metafied n, 0)).dropWhile (· = []))) := by
  unfold markedStep
  by_cases hdot : metafied n = [dot]
  · rw [if_pos hdot, hdot, chabspathLoop_dot behind_nil, dropWhile_nil,
      chabspathLoop_nil hstack]
  · rw [if_neg hdot]
    by_cases hdots : metafied n = [dot, dot]
    · rw [if_pos hdots, hdots, chabspathLoop_up hstack behind_nil]
      cases stack with
      | nil =>
        rw [chabspathLoop_nil hstack, if_neg (Nat.lt_irrefl 0)]
      | cons name stack =>
        dsimp only
        by_cases hname : endsInDots name = true
        · have hup : IsName slash [dot, dot] := ⟨cons_ne_nil _ _, by decide⟩
          have hstrip := stripSlashes_name hup (name :: stack)
          rw [if_pos hname, if_pos hname, chabspathLoop,
            dropWhile_cons_of_neg (by decide)]
          have htext : dot :: dot :: (dirText (name :: stack)).reverse =
              [dot, dot].reverse ++ (dirText (name :: stack)).reverse := rfl
          rw [htext, hstrip, reverse_reverse]
        · rw [if_neg hname, if_neg hname, if_neg (by decide), if_neg (by omega),
            chabspathLoop_nil fun m hm ↦ hstack m (mem_cons_of_mem _ hm)]
    · have hname := isName_metafied hn
      have hcopy := chabspathLoop_name hn hdot hdots behind_nil (dirText stack).reverse
      rw [append_nil] at hcopy
      rw [if_neg hdots, hcopy, chabspathLoop, stripSlashes_name hname, reverse_reverse,
        dropWhile_cons_of_neg (by simpa using hname.ne_nil)]

theorem slash_notMem_markedStep {stack : List Bytes} (hstack : ∀ name ∈ stack, slash ∉ name)
    {p : Bytes × ℕ} (hp : slash ∉ p.1) : ∀ name ∈ markedStep stack p, slash ∉ name := by
  unfold markedStep
  split
  · exact hstack
  · split
    · cases stack with
      | nil =>
        dsimp only
        split
        · exact fun name hname ↦ (List.mem_singleton.mp hname) ▸ not_mem_nil
        · exact hstack
      | cons top stack =>
        have htail : ∀ name ∈ stack, slash ∉ name := fun m hm ↦
          hstack m (mem_cons_of_mem _ hm)
        dsimp only
        split
        · exact List.forall_mem_cons.mpr ⟨by decide, hstack⟩
        · split
          · exact List.forall_mem_cons.mpr ⟨not_mem_nil, htail⟩
          · exact htail
    · exact List.forall_mem_cons.mpr ⟨hp, hstack⟩

theorem pieces_metafied {l : List (Bytes × ℕ)} (hl : Pieces slash l) :
    Pieces slash (l.map metafiedPiece) := by
  induction hl with
  | nil => exact .nil
  | last hn r => exact .last (isName_metafied hn) r
  | more hn r _ ih => exact .more (isName_metafied hn) r ih

/-- The whole path leaves the marked stack. -/
theorem chabspathLoop_pieces {l : List (Bytes × ℕ)} (hl : Pieces slash l) {stack : List Bytes}
    (hstack : ∀ name ∈ stack, slash ∉ name) :
    chabspathLoop (dirText stack).reverse (text slash (l.map metafiedPiece)) =
      some (1, pathText (((l.map metafiedPiece).foldl markedStep stack).dropWhile (· = []))) := by
  have hnext {n : Bytes} (hn : IsName slash n) {stack : List Bytes}
      (hstack : ∀ name ∈ stack, slash ∉ name) (r : ℕ) :
      ∀ name ∈ markedStep stack (metafied n, r), slash ∉ name :=
    slash_notMem_markedStep hstack (slash_notMem_metafied hn.sep_notMem)
  induction hl generalizing stack with
  | nil => exact chabspathLoop_nil hstack
  | @last n hn r =>
    rw [map_singleton, text_cons, metafiedPiece, foldl_cons, foldl_nil]
    cases r with
    | zero =>
      rw [replicate_zero, append_nil]
      exact (congrArg _ (append_nil _)).trans (chabspathLoop_last hstack hn)
    | succ r =>
      have hempty : ∀ c ∈ ([] : Bytes).head?, c ≠ slash := fun c hc ↦ nomatch hc
      exact (chabspathLoop_piece hstack hn r hempty).trans (chabspathLoop_nil (hnext hn hstack _))
  | @more n l hn r hl ih =>
    have hhead := (pieces_metafied hl).head
    rw [map_cons, text_cons, metafiedPiece, foldl_cons]
    rw [chabspathLoop_piece hstack hn r hhead, ih (hnext hn hstack _)]

end Bsh.Hist

/-!
# When `:a` gives the normal form

The stack of the normal form is part of the marked stack, so the path comes out right exactly when
the two are of one height, apart from the marks on top.  A path in normal form has no `..` in it;
nothing is ever marked there, and it comes out as it is.
-/

namespace Bsh.Hist

open Bsh.Library Bsh.Library.Names Bsh.Shell List

/-! ## The pieces of a metafied path -/

theorem metafied_slashes (k : ℕ) (b : Bytes) :
    metafied (List.replicate k slash ++ b) = List.replicate k slash ++ metafied b := by
  have hslash : ∀ c ∈ List.replicate k slash, imeta c = false := by
    intro c hc
    rw [eq_of_mem_replicate hc]
    rfl
  rw [metafied_append, metafied_plain hslash]

theorem metafied_text (l : List (Bytes × ℕ)) :
    metafied (text slash l) = text slash (l.map metafiedPiece) := by
  induction l with
  | nil => rfl
  | cons p l ih =>
    have hslashes := metafied_slashes p.2 (text slash l)
    rw [text_cons, append_assoc, metafied_append, hslashes, ih, map_cons, text_cons,
      append_assoc]
    rfl

theorem pieces_of_metafied (b : Bytes) :
    pieces slash (metafied b) = ((pieces slash b).1, (pieces slash b).2.map metafiedPiece) := by
  have htext : metafied b = List.replicate (pieces slash b).1 slash ++
      text slash ((pieces slash b).2.map metafiedPiece) := by
    conv_lhs => rw [← @pieces_text _ slash _ b, metafied_slashes, metafied_text]
  rw [htext]
  exact (pieces_metafied (pieces_valid b)).pieces_eq _

/-! ## The path that is read -/

theorem headIs_slash_metafied {b : Bytes} (h : headIs '/' (metafied b) = true) :
    ∃ t, b = slash :: t := by
  cases b with
  | nil => cases h
  | cons c b =>
    have hhead : (metafied (c :: b)).head? = some slash := by
      simpa [headIs, slash] using h
    cases hc : imeta c with
    | true =>
      rw [metafied, EscapeCode.encode_cons, EscapeCode.unit_special metaCode hc] at hhead
      exact absurd (Option.some.inj hhead) (by decide)
    | false =>
      rw [metafied, EscapeCode.encode_cons, EscapeCode.unit_plain metaCode hc] at hhead
      exact ⟨b, congrArg (· :: b) (Option.some.inj hhead)⟩

theorem full_metafied (cwd : WorkingDir) (b : Bytes) :
    ∃ t, cwd.full (metafied b) = metafied (slash :: t) := by
  unfold WorkingDir.full
  by_cases habs : headIs '/' (metafied b) = true
  · obtain ⟨t, rfl⟩ := headIs_slash_metafied habs
    exact ⟨t, if_pos habs⟩
  · rw [if_neg habs]
    by_cases hlast : cwd.here.getLast? ≠ some slash
    · obtain ⟨t, ht⟩ : ∃ t, cwd.here = slash :: t := List.head?_eq_some_iff.mp cwd.absolute
      have hslash := metafied_slashes 1 b
      refine ⟨t ++ slash :: b, ?_⟩
      rw [if_pos hlast, ← cons_append, ← ht, metafied_append]
      exact congrArg _ hslash.symm
    · have hroot : cwd.here = [slash] := by
        by_contra h
        exact hlast (cwd.plain_end h)
      refine ⟨b, ?_⟩
      rw [if_neg hlast, hroot]
      exact (metafied_slashes 1 b).symm

/-- The path that comes out is the marked stack without the marks on its top. -/
theorem chabspathLoop_absolute (t : Bytes) :
    chabspathLoop [] (metafied (slash :: t)) =
      some (1, pathText ((markedStack (metafied (slash :: t))).dropWhile (· = []))) := by
  obtain ⟨k, hk⟩ : ∃ k, (pieces slash (slash :: t)).1 = k + 1 :=
    ⟨_, congrArg Prod.fst (pieces_replicate 1 t)⟩
  have hvalid := @pieces_valid _ slash _ (slash :: t)
  have htext : metafied (slash :: t) = List.replicate (k + 1) slash ++
      text slash ((pieces slash (slash :: t)).2.map metafiedPiece) := by
    conv_lhs => rw [← @pieces_text _ slash _ (slash :: t), metafied_slashes, metafied_text, hk]
  have hrun := @chabspathLoop_pieces _ hvalid [] fun name hname ↦ nomatch hname
  unfold markedStack
  rw [pieces_of_metafied, ← hrun, htext, chabspathLoop_slashes k (pieces_metafied hvalid).head]
  rfl

theorem chabspath_eq (cwd : WorkingDir) {b : Bytes} (hb : b ≠ []) :
    chabspath cwd (metafied b) =
      some (1, pathText ((markedStack (cwd.full (metafied b))).dropWhile (· = []))) := by
  obtain ⟨t, ht⟩ := full_metafied cwd b
  rw [chabspath, if_neg (metafied_ne_nil hb), ht, chabspathLoop_absolute]

/-! ## The two stacks -/

theorem normalStep_sublist {normal marked : List Bytes} (h : normal.Sublist marked)
    (piece : Bytes × ℕ) : (normalStep normal piece.1).Sublist (markedStep marked piece) := by
  unfold normalStep markedStep
  by_cases hdot : piece.1 = [dot]
  · rw [if_pos hdot, if_pos hdot]
    exact h
  · rw [if_neg hdot, if_neg hdot]
    by_cases hdots : piece.1 = [dot, dot]
    · rw [if_pos hdots, if_pos hdots]
      have htail := h.tail
      cases marked with
      | nil =>
        rw [List.sublist_nil.mp htail]
        exact nil_sublist _
      | cons name marked =>
        dsimp only
        split
        · exact ((htail.trans (sublist_cons_self name marked))).cons [dot, dot]
        · split
          · exact htail.cons []
          · exact htail
    · rw [if_neg hdots, if_neg hdots]
      exact h.cons_cons piece.1

theorem normalStack_sublist (path : Bytes) : (normalStack path).Sublist (markedStack path) := by
  have hrun {l : List (Bytes × ℕ)} : ∀ {normal marked : List Bytes}, normal.Sublist marked →
      ((l.map Prod.fst).foldl normalStep normal).Sublist (l.foldl markedStep marked) := by
    induction l with
    | nil => exact fun h ↦ h
    | cons piece l ih => exact fun h ↦ ih (normalStep_sublist h piece)
  exact hrun (List.Sublist.refl [])

/-- A proper component: neither `.` nor `..`. -/
structure Proper (name : Bytes) : Prop extends IsName slash name where
  ne_dot : name ≠ [dot]
  ne_dots : name ≠ [dot, dot]

theorem proper_normalStep {stack : List Bytes} (hstack : ∀ name ∈ stack, Proper name)
    {name : Bytes} (hname : IsName slash name) : ∀ n ∈ normalStep stack name, Proper n := by
  unfold normalStep
  split
  · exact hstack
  · split
    · exact fun n hn ↦ hstack n (mem_of_mem_tail hn)
    · exact List.forall_mem_cons.mpr ⟨⟨hname, ‹_›, ‹_›⟩, hstack⟩

theorem proper_normalStack (path : Bytes) : ∀ name ∈ normalStack path, Proper name := by
  have hrun {l : List (Bytes × ℕ)} (hl : ∀ p ∈ l, IsName slash p.1) :
      ∀ {stack : List Bytes}, (∀ name ∈ stack, Proper name) →
        ∀ name ∈ (l.map Prod.fst).foldl normalStep stack, Proper name := by
    induction l with
    | nil => exact fun h ↦ h
    | cons p l ih =>
      rw [forall_mem_cons] at hl
      exact fun h ↦ ih hl.2 (proper_normalStep h hl.1)
  exact hrun ((pieces_valid path).isName) fun name hname ↦ nomatch hname

theorem slash_notMem_markedStack (path : Bytes) : ∀ name ∈ markedStack path, slash ∉ name := by
  have hrun {l : List (Bytes × ℕ)} (hl : ∀ p ∈ l, IsName slash p.1) :
      ∀ {stack : List Bytes}, (∀ name ∈ stack, slash ∉ name) →
        ∀ name ∈ l.foldl markedStep stack, slash ∉ name := by
    induction l with
    | nil => exact fun h ↦ h
    | cons p l ih =>
      rw [forall_mem_cons] at hl
      exact fun h ↦ ih hl.2 (slash_notMem_markedStep h hl.1.sep_notMem)
  exact hrun ((pieces_valid path).isName) fun name hname ↦ nomatch hname

theorem sublist_dropWhile {normal marked : List Bytes} (h : normal.Sublist marked)
    (hnormal : ∀ name ∈ normal, name ≠ []) : normal.Sublist (marked.dropWhile (· = [])) := by
  induction marked with
  | nil => exact h
  | cons name marked ih =>
    by_cases hname : name = []
    · rw [dropWhile_cons_of_pos (by simpa using hname)]
      cases h with
      | cons _ h => exact ih h
      | cons_cons _ h => exact absurd hname (hnormal name mem_cons_self)
    · rw [dropWhile_cons_of_neg (by simpa using hname)]
      exact h

theorem marksGone_iff (path : Bytes) :
    MarksGone path ↔ (markedStack path).dropWhile (· = []) = normalStack path := by
  have hsub := sublist_dropWhile (normalStack_sublist path)
    fun name hname ↦ (proper_normalStack path name hname).ne_nil
  exact ⟨fun h ↦ (hsub.eq_of_length h.symm).symm, fun h ↦ congrArg List.length h⟩

/-! ## The text of a stack -/

theorem slash_append_inj {a b n m : Bytes} (hn : slash ∉ n) (hm : slash ∉ m)
    (h : n ++ slash :: a = m ++ slash :: b) : n = m ∧ a = b := by
  induction n generalizing m with
  | nil =>
    cases m with
    | nil => exact ⟨rfl, (List.cons.inj h).2⟩
    | cons d m => exact absurd ((List.cons.inj h).1 ▸ mem_cons_self) hm
  | cons c n ih =>
    cases m with
    | nil => exact absurd ((List.cons.inj h).1 ▸ mem_cons_self) hn
    | cons d m =>
      obtain ⟨rfl, hrest⟩ := List.cons.inj h
      rw [mem_cons, not_or] at hn hm
      obtain ⟨rfl, hbase⟩ := ih hn.2 hm.2 hrest
      exact ⟨rfl, hbase⟩

theorem append_slash_inj {a b n m : Bytes} (hn : slash ∉ n) (hm : slash ∉ m)
    (h : a ++ slash :: n = b ++ slash :: m) : a = b ∧ n = m := by
  have hrev : n.reverse ++ slash :: a.reverse = m.reverse ++ slash :: b.reverse := by
    simpa only [reverse_append, reverse_cons, append_assoc,
      singleton_append] using congrArg List.reverse h
  have hn' : slash ∉ n.reverse := fun h ↦ hn (List.mem_reverse.mp h)
  have hm' : slash ∉ m.reverse := fun h ↦ hm (List.mem_reverse.mp h)
  obtain ⟨hname, hbase⟩ := slash_append_inj hn' hm' hrev
  exact ⟨reverse_injective hbase, reverse_injective hname⟩

theorem dirText_eq (stack : List Bytes) : ∃ t, dirText stack = t ++ [slash] := by
  cases stack with
  | nil => exact ⟨[], rfl⟩
  | cons name stack => exact ⟨dirText stack ++ name, rfl⟩

theorem dirText_inj {s t : List Bytes} (hs : ∀ name ∈ s, slash ∉ name)
    (ht : ∀ name ∈ t, slash ∉ name) (h : dirText s = dirText t) : s = t := by
  have hlength (name : Bytes) (stack : List Bytes) : dirText [] ≠ dirText (name :: stack) := by
    intro h
    obtain ⟨u, hu⟩ := dirText_eq stack
    have := congrArg List.length h
    simp [dirText, hu] at this
    omega
  induction s generalizing t with
  | nil =>
    cases t with
    | nil => rfl
    | cons name t => exact absurd h (hlength name t)
  | cons n s ih =>
    cases t with
    | nil => exact absurd h.symm (hlength n s)
    | cons m t =>
      rw [forall_mem_cons] at hs ht
      obtain ⟨u, hu⟩ := dirText_eq s
      obtain ⟨v, hv⟩ := dirText_eq t
      have hparts : u ++ slash :: n = v ++ slash :: m := by
        have h := append_cancel_right h
        rwa [hu, hv, append_assoc, append_assoc] at h
      obtain ⟨huv, rfl⟩ := append_slash_inj hs.1 ht.1 hparts
      rw [ih hs.2 ht.2 (by rw [hu, hv, huv])]

/-- Two stacks with a name on top have different texts. -/
theorem pathText_inj {s t : List Bytes} (hs : ∀ name ∈ s, slash ∉ name)
    (ht : ∀ name ∈ t, slash ∉ name) (hstop : ∀ name ∈ s.head?, name ≠ [])
    (httop : ∀ name ∈ t.head?, name ≠ []) (h : pathText s = pathText t) : s = t := by
  have hroot {name : Bytes} {stack : List Bytes} (hname : name ≠ []) :
      pathText [] ≠ pathText (name :: stack) := by
    intro h
    obtain ⟨u, hu⟩ := dirText_eq stack
    have hlength := congrArg List.length h
    have := List.length_pos_iff.mpr hname
    simp only [pathText, hu, length_append, length_singleton] at hlength
    omega
  cases s with
  | nil =>
    cases t with
    | nil => rfl
    | cons m t => exact absurd h (hroot (httop m rfl))
  | cons n s =>
    cases t with
    | nil => exact absurd h.symm (hroot (hstop n rfl))
    | cons m t =>
      rw [forall_mem_cons] at hs ht
      obtain ⟨u, hu⟩ := dirText_eq s
      obtain ⟨v, hv⟩ := dirText_eq t
      have hparts : u ++ slash :: n = v ++ slash :: m := by
        rwa [pathText, pathText, hu, hv, append_assoc, append_assoc] at h
      obtain ⟨huv, rfl⟩ := append_slash_inj hs.1 ht.1 hparts
      rw [dirText_inj hs.2 ht.2 (by rw [hu, hv, huv])]

/-! ## A path in normal form -/

theorem metafied_inj {a b : Bytes} : metafied a = metafied b ↔ a = b :=
  (Function.LeftInverse.injective zputs_metafied).eq_iff

theorem normalStep_metafied (stack : List Bytes) (name : Bytes) :
    normalStep (stack.map metafied) (metafied name) = (normalStep stack name).map metafied := by
  have hdot : metafied name = [dot] ↔ name = [dot] := @metafied_inj name [dot]
  have hdots : metafied name = [dot, dot] ↔ name = [dot, dot] := @metafied_inj name [dot, dot]
  unfold normalStep
  by_cases h : name = [dot]
  · rw [if_pos h, if_pos (hdot.mpr h)]
  · rw [if_neg h, if_neg (mt hdot.mp h)]
    by_cases hup : name = [dot, dot]
    · rw [if_pos hup, if_pos (hdots.mpr hup), map_tail]
    · rw [if_neg hup, if_neg (mt hdots.mp hup), map_cons]

theorem normalStack_metafied (b : Bytes) :
    normalStack (metafied b) = (normalStack b).map metafied := by
  have hrun {l : List (Bytes × ℕ)} : ∀ stack : List Bytes,
      ((l.map metafiedPiece).map Prod.fst).foldl normalStep (stack.map metafied) =
        ((l.map Prod.fst).foldl normalStep stack).map metafied := by
    induction l with
    | nil => exact fun _ ↦ rfl
    | cons p l ih =>
      intro stack
      rw [map_cons, map_cons, foldl_cons, metafiedPiece, normalStep_metafied, ih]
      rfl
  unfold normalStack
  rw [pieces_of_metafied]
  exact hrun []

theorem dirText_metafied (stack : List Bytes) :
    dirText (stack.map metafied) = metafied (dirText stack) := by
  induction stack with
  | nil => rfl
  | cons name stack ih =>
    rw [map_cons, dirText, dirText, metafied_append, metafied_append, ih]
    rfl

theorem pathText_metafied (stack : List Bytes) :
    pathText (stack.map metafied) = metafied (pathText stack) := by
  cases stack with
  | nil => rfl
  | cons name stack =>
    rw [map_cons, pathText, pathText, metafied_append, dirText_metafied]

/-- The components of a directory, the first one first, each with the slash behind it. -/
def dirPieces (stack : List Bytes) : List (Bytes × ℕ) := stack.reverse.map fun name ↦ (name, 1)

def pathPieces : List Bytes → List (Bytes × ℕ)
  | [] => []
  | name :: stack => dirPieces stack ++ [(name, 0)]

theorem dirPieces_cons (name : Bytes) (stack : List Bytes) :
    dirPieces (name :: stack) = dirPieces stack ++ [(name, 1)] := by
  unfold dirPieces
  rw [reverse_cons, map_append]
  rfl

theorem dirText_pieces (stack : List Bytes) :
    dirText stack = slash :: text slash (dirPieces stack) := by
  induction stack with
  | nil => rfl
  | cons name stack ih =>
    rw [dirText, ih, dirPieces_cons, text, text, flatMap_append, flatMap_singleton,
      append_assoc]
    rfl

theorem pathText_pieces (stack : List Bytes) :
    pathText stack = List.replicate 1 slash ++ text slash (pathPieces stack) := by
  cases stack with
  | nil => rfl
  | cons name stack =>
    rw [pathText, dirText_pieces, pathPieces, text, text, flatMap_append,
      flatMap_singleton, replicate_zero, append_nil]
    rfl

theorem pieces_pathPieces {stack : List Bytes} (h : ∀ name ∈ stack, Proper name) :
    Pieces slash (pathPieces stack) := by
  have hdir {l : List Bytes} (hl : ∀ name ∈ l, IsName slash name) {name : Bytes}
      (hname : IsName slash name) : Pieces slash (l.map (fun n ↦ (n, 1)) ++ [(name, 0)]) := by
    induction l with
    | nil => exact .last hname 0
    | cons n l ih =>
      rw [forall_mem_cons] at hl
      exact .more hl.1 0 (ih hl.2)
  cases stack with
  | nil => exact .nil
  | cons name stack =>
    rw [forall_mem_cons] at h
    exact hdir (fun n hn ↦ (h.2 n (List.mem_reverse.mp hn)).toIsName) h.1.toIsName

theorem markedStep_proper {name : Bytes} (h : Proper name) (stack : List Bytes) (r : ℕ) :
    markedStep stack (name, r) = name :: stack := by
  unfold markedStep
  rw [if_neg h.ne_dot, if_neg h.ne_dots]

theorem foldl_dirPieces {stack : List Bytes} (h : ∀ name ∈ stack, Proper name) :
    (dirPieces stack).foldl markedStep [] = stack := by
  induction stack with
  | nil => rfl
  | cons name stack ih =>
    rw [forall_mem_cons] at h
    rw [dirPieces_cons, foldl_append, ih h.2]
    exact markedStep_proper h.1 stack 1

theorem markedStack_pathText {stack : List Bytes} (h : ∀ name ∈ stack, Proper name) :
    markedStack (pathText stack) = stack := by
  rw [markedStack, pathText_pieces, (pieces_pathPieces h).pieces_eq]
  cases stack with
  | nil => rfl
  | cons name stack =>
    rw [forall_mem_cons] at h
    rw [pathPieces, foldl_append, foldl_dirPieces h.2]
    exact markedStep_proper h.1 stack 0

theorem pathText_ne_nil (stack : List Bytes) : ∃ t, pathText stack = slash :: t :=
  ⟨_, pathText_pieces stack⟩

theorem dropWhile_proper {stack : List Bytes} (h : ∀ name ∈ stack, Proper name) :
    stack.dropWhile (· = []) = stack := by
  cases stack with
  | nil => rfl
  | cons name stack =>
    exact dropWhile_cons_of_neg (by simpa using (h name mem_cons_self).ne_nil)

/-- The modifier leaves the normal form of a path as it is. -/
theorem chabspath_normalForm (cwd : WorkingDir) (b : Bytes) :
    chabspath cwd (normalForm (metafied b)) = some (1, normalForm (metafied b)) := by
  have hproper := proper_normalStack (metafied b)
  obtain ⟨t, ht⟩ := pathText_ne_nil (normalStack b)
  have habs : headIs '/' (normalForm (metafied b)) = true := by
    obtain ⟨u, hu⟩ := pathText_ne_nil _
    rw [normalForm, hu]
    rfl
  have hform : normalForm (metafied b) = metafied (pathText (normalStack b)) := by
    rw [normalForm, normalStack_metafied, pathText_metafied]
  have hrun := @chabspath_eq cwd _ (ht ▸ cons_ne_nil slash t)
  rw [← hform, WorkingDir.full, if_pos habs] at hrun
  rw [hrun, normalForm, markedStack_pathText hproper, dropWhile_proper hproper]

/-! ## When the path comes out right -/

/-- `:a` gives the normal form, which it then leaves as it is, exactly when no mark is left that
makes the stack higher. -/
theorem absRight_iff (cwd : WorkingDir) {b : Bytes} (hb : b ≠ []) :
    AbsRight cwd (metafied b) ↔ MarksGone (cwd.full (metafied b)) := by
  obtain ⟨t, ht⟩ := full_metafied cwd b
  have hagain := chabspath_normalForm cwd (slash :: t)
  rw [← ht] at hagain
  unfold AbsRight
  rw [and_iff_left hagain, marksGone_iff, chabspath_eq cwd hb, Option.some_inj, Prod.mk.injEq,
    eq_self_iff_true, true_and, normalForm]
  have hnormal := proper_normalStack (cwd.full (metafied b))
  have hmarked := slash_notMem_markedStack (cwd.full (metafied b))
  constructor
  · refine pathText_inj (fun name hname ↦ ?_) (fun name hname ↦ (hnormal name hname).sep_notMem) ?_
      fun name hname ↦ (hnormal name (mem_of_mem_head? hname)).ne_nil
    · exact hmarked name ((dropWhile_suffix _).subset hname)
    · intro name hname
      have hstop := List.head?_dropWhile_not (· = []) (markedStack (cwd.full (metafied b)))
      rw [hname] at hstop
      simpa using hstop
  · exact fun h ↦ congrArg pathText h

def rootDir : WorkingDir where
  here := [slash]
  absolute := rfl
  plain_end h := absurd rfl h

theorem absRight_plain :
    [dot, dot, slash, char 'a'] ≠ [] ∧
      (AbsRight rootDir (metafied [dot, dot, slash, char 'a']) ↔
        MarksGone (rootDir.full (metafied [dot, dot, slash, char 'a']))) := by
  have hpath : [dot, dot, slash, char 'a'] ≠ [] := cons_ne_nil _ _
  exact ⟨hpath, absRight_iff rootDir hpath⟩

/-- `/../a` becomes `//a`. -/
theorem not_absRight_up : ¬ AbsRight rootDir [slash, dot, dot, slash, char 'a'] := by
  have hrun := @chabspath_eq rootDir [slash, dot, dot, slash, char 'a'] (cons_ne_nil _ _)
  rintro ⟨h, -⟩
  exact absurd (hrun.symm.trans h) (by decide)

end Bsh.Hist
