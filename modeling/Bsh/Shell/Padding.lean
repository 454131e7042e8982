import Bsh.Library.Cells
import Bsh.Library.Padding
import Bsh.Shell.SpaceSplit

/-!
# Padding a string

`dopadding` of `subst.c`, for the flags `l` and `r` of a parameter expansion.  The lengths of the
strings are exact, and so are the sums of the widths that are compared with them; the size of the
buffer is an `int`.  A loop that looks for more width than its string has would go on behind the end
of the string.
-/

namespace Bsh.Shell

open Bsh.Library Bytes List

/-- What padding depends on: the characters, `IFS`, and `wcwidth`. -/
structure PadEnv extends SplitEnv where
  wcwidth : ℕ → ℤ

namespace PadEnv

variable (env : PadEnv) (multiWidth : ℕ)

/-! ## Widths -/

/-- `WCWIDTH` of a character or `WEOF`. -/
def wcwidthOf : Option ℕ → ℤ
  | none => -1
  | some wc => env.wcwidth wc

/-- `wcpadwidth`. -/
def wcpadwidth (wc : Option ℕ) : ℕ :=
  match multiWidth with
  | 0 => 1
  | 1 => (env.wcwidthOf wc).toNat
  | _ => if 0 < env.wcwidthOf wc then 1 else 0

/-- How the bytes from the start of a character go on. -/
inductive WideScan where
  | complete (used wc : ℕ)
  | invalid
  /-- The string ends in the character. -/
  | cut

/-- The turns of the loop of `mb_metastrlenend` for one character. -/
def scanWide (charset : Charset) : Bytes → ℕ → charset.State → Option WideScan
  | [], _, _ => some .cut
  | [c], used, st =>
    if c = metaByte then none
    else
      match charset.mbrtowc c st with
      | (.invalid, _) => some .invalid
      | (.incomplete, _) => some .cut
      | (.char wc, _) => some (.complete (used + 1) wc)
  | c :: d :: rest, used, st =>
    if c = metaByte then
      match charset.mbrtowc (d ^^^ 32) st with
      | (.invalid, _) => some .invalid
      | (.incomplete, st) => scanWide charset rest (used + 2) st
      | (.char wc, _) => some (.complete (used + 2) wc)
    else
      match charset.mbrtowc c st with
      | (.invalid, _) => some .invalid
      | (.incomplete, st) => scanWide charset (d :: rest) (used + 1) st
      | (.char wc, _) => some (.complete (used + 1) wc)

/-- What a complete character adds to `num`. -/
def countWidth (wc : ℕ) : ℕ :=
  if multiWidth = 0 then 1
  else if 0 < env.wcwidth wc then
    if multiWidth = 1 then (env.wcwidth wc).toNat else 1
  else 0

/-- The loop of `mb_metastrlenend`: `num`, and whether the last character is cut off.  The first
argument bounds its turns. -/
def metastrlen2From : ℕ → Bytes → Option (ℕ × Bool)
  | _, [] => some (0, false)
  | 0, _ :: _ => none
  | turns + 1, c :: rest =>
    let next (used num : ℕ) :=
      (metastrlen2From turns ((c :: rest).drop used)).map fun r ↦ (num + r.1, r.2)
    match TextEnv.asciiLen c rest with
    | some used => next used 1
    | none =>
      match scanWide env.charset (c :: rest) 0 env.charset.initial with
      | none => none
      | some .cut => some (0, true)
      | some .invalid => next (byteLength c) 1
      | some (.complete used wc) => next used (env.countWidth multiWidth wc)

/-- `MB_METASTRLEN2`. -/
def metastrlen2 (s : Bytes) : Option ℕ :=
  if !env.multibyte || env.singleByte then ztrlen (s ++ [0])
  else (env.metastrlen2From multiWidth s.length s).map fun r ↦ r.1 + r.2.toNat

/-! ## Loops over characters -/

/-- A loop over characters until the width `c` has been passed: what is passed, and what is left.  The
first argument bounds the turns. -/
def passFrom : ℕ → ℕ → Bytes → Option (Bytes × Bytes)
  | _, 0, t => some ([], t)
  | _, _ + 1, [] => none
  | 0, _ + 1, _ :: _ => none
  | turns + 1, c + 1, b :: t =>
    match env.charConv (b :: t) with
    | none => none
    | some (cl, cchar) =>
      if cl = 0 then some ([], b :: t)
      else
        (passFrom turns (c + 1 - env.wcpadwidth multiWidth cchar) ((b :: t).drop cl)).map
          fun r ↦ ((b :: t).take cl ++ r.1, r.2)

def pass (c : ℕ) (t : Bytes) : Option (Bytes × Bytes) := env.passFrom multiWidth t.length c t

/-- A loop that copies the characters up to the end of the string. -/
def copyFrom : ℕ → Bytes → Option Bytes
  | _, [] => some []
  | 0, _ :: _ => none
  | turns + 1, b :: t =>
    match env.charConv (b :: t) with
    | none => none
    | some (cl, _) =>
      if cl = 0 then some []
      else (copyFrom turns ((b :: t).drop cl)).map ((b :: t).take cl ++ ·)

/-- The string is copied byte by byte, or with a count of its width. -/
def copyText (counted : Bool) (t : Bytes) : Option Bytes :=
  if counted then env.copyFrom t.length t else some t

/-- `for (cc = ..; cc--;)`. -/
def repeated (turn : Option Bytes) : ℕ → Option Bytes
  | 0 => some []
  | cc + 1 => turn.bind fun out ↦ (repeated turn cc).map (out ++ ·)

/-! ## Filling up -/

/-- A string with its width. -/
structure Wide where
  text : Bytes
  width : ℕ

/-- What goes in front of the string.  With padding on both sides the whole rest of the repeated string
is written behind what has been skipped of it. -/
def fillLeft (both : Bool) (f : ℕ) (preone : Option Wide) (premul : Wide) : Option Bytes :=
  let lpreone := (preone.map (·.width)).getD 0
  if f ≤ lpreone then
    match preone with
    | none => some []
    | some preone => (env.pass multiWidth (lpreone - f) preone.text).map (·.2)
  else
    let f := f - lpreone
    let again : Option Bytes :=
      if premul.width = 0 then some []
      else
        let m := f % premul.width
        let left : Option Bytes :=
          if m = 0 then some []
          else
            (env.pass multiWidth (premul.width - m) premul.text).bind fun r ↦
              if both then some r.2 else (env.pass multiWidth m r.2).map (·.1)
        let turn := (env.pass multiWidth premul.width premul.text).map (·.1)
        left.bind fun l ↦ (repeated turn (f / premul.width)).map (l ++ ·)
    again.map (· ++ (preone.map (·.text)).getD [])

/-- The string that is used once, if there is one. -/
def copyOne (counted : Bool) : Option Wide → Option Bytes
  | none => some []
  | some one => env.copyText counted one.text

/-- What goes behind the string.  With padding on the right only, strings are copied character by
character. -/
def fillRight (both : Bool) (f : ℕ) (postone : Option Wide) (postmul : Wide) : Option Bytes :=
  let lpostone := (postone.map (·.width)).getD 0
  if f ≤ lpostone then
    match postone with
    | none => some []
    | some postone => (env.pass multiWidth f postone.text).map (·.1)
  else
    let f := f - lpostone
    let again : Option Bytes :=
      if postmul.width = 0 then some []
      else
        let m := f % postmul.width
        (repeated (env.copyText (!both) postmul.text) (f / postmul.width)).bind fun r ↦
          if m = 0 then some r else (env.pass multiWidth m postmul.text).map (r ++ ·.1)
    (env.copyOne (!both) postone).bind fun once ↦ again.map (once ++ ·)

/-! ## `dopadding` -/

/-- The strings of `dopadding` with the defaults put in. -/
structure Strings where
  str : Wide
  preone : Option Wide
  postone : Option Wide
  premul : Wide
  postmul : Wide

/-- The first half of the string, with padding on both sides: what is written, and what is left of the
string. -/
def firstHalf (prenum : ℕ) (s : Strings) : Option (Bytes × Bytes) :=
  let ls2 := s.str.width / 2
  if prenum ≤ ls2 then
    (env.pass multiWidth (ls2 - prenum) s.str.text).bind fun r ↦ env.pass multiWidth prenum r.2
  else
    (env.fillLeft multiWidth true (prenum - ls2) s.preone s.premul).bind fun left ↦
      (env.pass multiWidth ls2 s.str.text).map fun r ↦ (left ++ r.1, r.2)

/-- The other half. -/
def otherHalf (postnum : ℕ) (s : Strings) (str : Bytes) : Option Bytes :=
  let ls2 := s.str.width - s.str.width / 2
  if postnum ≤ ls2 then (env.pass multiWidth postnum str).map (·.1)
  else (env.fillRight multiWidth true (postnum - ls2) s.postone s.postmul).map (str ++ ·)

/-- What is written to the buffer. -/
def written (prenum postnum : ℕ) (s : Strings) : Option Bytes :=
  if prenum ≠ 0 then
    if postnum ≠ 0 then
      (env.firstHalf multiWidth prenum s).bind fun r ↦
        (env.otherHalf multiWidth postnum s r.2).map (r.1 ++ ·)
    else if prenum ≤ s.str.width then
      (env.pass multiWidth (s.str.width - prenum) s.str.text).bind fun r ↦
        (env.pass multiWidth prenum r.2).map (·.1)
    else
      (env.fillLeft multiWidth false (prenum - s.str.width) s.preone s.premul).map
        (· ++ s.str.text)
  else if postnum ≠ 0 then
    if postnum ≤ s.str.width then (env.pass multiWidth postnum s.str.text).map (·.1)
    else
      (env.copyText true s.str.text).bind fun str ↦
        (env.fillRight multiWidth false (postnum - s.str.width) s.postone s.postmul).map (str ++ ·)
  else some []

/-- The length that is computed for the buffer. -/
def bufferLength (prenum postnum : ℕ) (s : Strings) : ℕ :=
  s.str.text.length + s.premul.text.length * prenum + s.postmul.text.length * postnum +
    (s.preone.map (·.text.length)).getD 0 + (s.postone.map (·.text.length)).getD 0

/-- The first character of `IFS`. -/
def defaultPadding : Option Bytes :=
  match env.ifs with
  | some [] => some []
  | some ifs => (env.charConv ifs).map fun r ↦ ifs.take r.1
  | none => (env.charConv defaultIfs).map fun r ↦ defaultIfs.take r.1

def measure (t : Bytes) : Option Wide :=
  (env.metastrlen2 multiWidth t).map fun width ↦ ⟨t, width⟩

def measureOne : Option Bytes → Option (Option Wide)
  | none => some none
  | some t => (env.measure multiWidth t).map some

end PadEnv

/-- The arguments of `dopadding`. -/
structure PadArgs where
  str : Bytes
  prenum : ℕ
  postnum : ℕ
  preone : Option Bytes
  postone : Option Bytes
  premul : Option Bytes
  postmul : Option Bytes
  multiWidth : ℕ

/-- What `dopadding` returns: its argument, or what it has written to a buffer of some size. -/
inductive PadResult where
  | same
  | copied (size : ℤ) (text : Bytes)

namespace PadEnv

variable (env : PadEnv)

/-- An empty string stands for the default. -/
def orDefault (dflt t : Bytes) : Bytes := if t = [] then dflt else t

/-- The strings that are used. -/
def strings (a : PadArgs) : Option Strings :=
  env.defaultPadding.bind fun dflt ↦
  (env.measure a.multiWidth a.str).bind fun str ↦
  (env.measureOne a.multiWidth (a.preone.map (orDefault dflt))).bind fun preone ↦
  (env.measureOne a.multiWidth (a.postone.map (orDefault dflt))).bind fun postone ↦
  (env.measure a.multiWidth (orDefault dflt (a.premul.getD []))).bind fun premul ↦
  (env.measure a.multiWidth (orDefault dflt (a.postmul.getD []))).map fun postmul ↦
    { str, preone, postone, premul, postmul }

/-- `dopadding`; the size is that of `zhalloc(lr + 1)` with an `int lr`. -/
def dopadding (a : PadArgs) : Option PadResult :=
  (env.strings a).bind fun s ↦
    if a.prenum + a.postnum = s.str.width then some .same
    else
      (env.written a.multiWidth a.prenum a.postnum s).map fun text ↦
        .copied (wrapped 32 (bufferLength a.prenum a.postnum s + 1)) text

end PadEnv

end Bsh.Shell

/-!
# The loops of padding over characters

Every loop of `dopadding` cuts one of its strings between two characters.  So what it writes is a
list of characters of the strings, if each string is as wide as its loops take it to be.
-/

namespace Bsh.Shell

open Bsh.Library Bytes Widths List

/-- A character with its width for padding. -/
structure PadChar where
  bytes : Bytes
  width : ℕ
  deriving DecidableEq

/-- The text of some characters. -/
def charsText (l : List PadChar) : Bytes := l.flatMap PadChar.bytes

@[simp] theorem charsText_nil : charsText [] = [] := rfl

@[simp] theorem charsText_cons (ch : PadChar) (l : List PadChar) :
    charsText (ch :: l) = ch.bytes ++ charsText l := flatMap_cons

@[simp] theorem charsText_append (a b : List PadChar) :
    charsText (a ++ b) = charsText a ++ charsText b := flatMap_append

/-- A string as its characters, with the width that `MB_METASTRLEN2` has counted. -/
structure Chars where
  chars : List PadChar
  width : ℕ

def Chars.wide (t : Chars) : PadEnv.Wide := ⟨charsText t.chars, t.width⟩

namespace PadEnv

variable (env : PadEnv) (multiWidth : ℕ)

/-! ## The characters of a string -/

/-- The characters of a string; the first argument bounds their number. -/
def padCharsFrom : ℕ → Bytes → List PadChar
  | _, [] => []
  | 0, _ :: _ => []
  | turns + 1, c :: t =>
    match env.charConv (c :: t) with
    | none => []
    | some (len, wc) =>
      ⟨(c :: t).take len, env.wcpadwidth multiWidth wc⟩ :: padCharsFrom turns ((c :: t).drop len)

def padChars (t : Bytes) : List PadChar := env.padCharsFrom multiWidth t.length t

/-- Characters that are read from their text. -/
inductive Whole : List PadChar → Prop
  | nil : Whole []
  | cons {ch : Bytes} {wc : Option ℕ} {l : List PadChar} (hne : ch ≠ [])
      (hconv : env.charConv (ch ++ charsText l) = some (ch.length, wc)) (h : Whole l) :
      Whole (⟨ch, env.wcpadwidth multiWidth wc⟩ :: l)

theorem exists_whole {t : Bytes} (h : MetaText t) :
    ∃ l, Whole env multiWidth l ∧ charsText l = t := by
  induction hn : t.length using Nat.strongRecOn generalizing t with
  | _ n ih =>
    subst hn
    cases t with
    | nil => exact ⟨[], .nil, rfl⟩
    | cons c t =>
      obtain ⟨len, wc, hhead⟩ := SplitEnv.exists_headChar env.toSplitEnv h
      have hlen : ((c :: t).take len).length = len := by
        rw [length_take]
        exact Nat.min_eq_left hhead.le
      have hlt : ((c :: t).drop len).length < (c :: t).length := by
        have hpos := hhead.pos
        rw [length_drop, length_cons]
        omega
      obtain ⟨l, hl, htext⟩ := ih _ hlt hhead.behind rfl
      have hsplit : (c :: t).take len ++ charsText l = c :: t := by
        rw [htext, List.take_append_drop]
      have hne : (c :: t).take len ≠ [] := by
        intro hnil
        rw [hnil] at hlen
        exact absurd hlen.symm hhead.pos.ne'
      have hconv : env.charConv ((c :: t).take len ++ charsText l) =
          some (((c :: t).take len).length, wc) := by
        rw [hsplit, hlen]
        exact hhead.conv
      exact ⟨_, .cons hne hconv hl, hsplit⟩

variable {env multiWidth}

theorem Whole.right {a b : List PadChar} (h : Whole env multiWidth (a ++ b)) :
    Whole env multiWidth b := by
  induction a with
  | nil => exact h
  | cons ch a ih =>
    cases h with
    | cons _ _ h => exact ih h

variable {l : List PadChar} {turns : ℕ}

theorem Whole.drop (h : Whole env multiWidth l) (c : ℕ) :
    Whole env multiWidth (dropWidth PadChar.width c l) := by
  have hsplit := take_append_drop PadChar.width c l
  rw [← hsplit] at h
  exact h.right

theorem Whole.padCharsFrom (h : Whole env multiWidth l)
    (hturns : (charsText l).length ≤ turns) :
    env.padCharsFrom multiWidth turns (charsText l) = l := by
  induction h generalizing turns with
  | nil => cases turns <;> rfl
  | @cons ch wc l hne hconv _ ih =>
    obtain ⟨c, ch', rfl⟩ := exists_cons_of_ne_nil hne
    rw [charsText_cons, length_append, length_cons] at hturns
    obtain ⟨turns, rfl⟩ : ∃ k, turns = k + 1 := ⟨turns - 1, by omega⟩
    rw [charsText_cons, cons_append, PadEnv.padCharsFrom, ← cons_append, hconv]
    dsimp only
    rw [take_left, drop_left, ih (by omega)]

theorem Whole.padChars (h : Whole env multiWidth l) :
    env.padChars multiWidth (charsText l) = l := h.padCharsFrom (Nat.le_refl _)

/-! ## The loops -/

theorem Whole.passFrom (h : Whole env multiWidth l)
    (hturns : (charsText l).length ≤ turns) (c : ℕ) :
    env.passFrom multiWidth turns c (charsText l) =
      if c ≤ total PadChar.width l then
        some (charsText (takeWidth PadChar.width c l), charsText (dropWidth PadChar.width c l))
      else none := by
  induction h generalizing turns c with
  | nil =>
    cases c with
    | zero => cases turns <;> rfl
    | succ c => cases turns <;> rfl
  | @cons ch wc l hne hconv _ ih =>
    cases c with
    | zero => cases turns <;> rfl
    | succ c =>
      obtain ⟨b, ch', rfl⟩ := exists_cons_of_ne_nil hne
      rw [charsText_cons, length_append, length_cons] at hturns
      obtain ⟨turns, rfl⟩ : ∃ k, turns = k + 1 := ⟨turns - 1, by omega⟩
      have hle : c + 1 - env.wcpadwidth multiWidth wc ≤ total PadChar.width l ↔
          c + 1 ≤ total PadChar.width (⟨b :: ch', env.wcpadwidth multiWidth wc⟩ :: l) := by
        rw [total_cons]
        dsimp only
        omega
      rw [charsText_cons, cons_append, PadEnv.passFrom, ← cons_append, hconv]
      dsimp only
      rw [if_neg (mt List.length_eq_zero_iff.mp hne), take_left, drop_left,
        ih (by omega)]
      simp only [hle]
      split
      · rfl
      · rfl

theorem Whole.pass (h : Whole env multiWidth l) (c : ℕ) :
    env.pass multiWidth c (charsText l) =
      served PadChar.width [(c, l)] (charsText (takeWidth PadChar.width c l),
        charsText (dropWidth PadChar.width c l)) := by
  unfold PadEnv.pass
  rw [h.passFrom (Nat.le_refl _) c]
  unfold served Met
  simp only [forall_mem_singleton]

theorem Whole.copyFrom (h : Whole env multiWidth l)
    (hturns : (charsText l).length ≤ turns) :
    env.copyFrom turns (charsText l) = some (charsText l) := by
  induction h generalizing turns with
  | nil => cases turns <;> rfl
  | @cons ch wc l hne hconv _ ih =>
    obtain ⟨b, ch', rfl⟩ := exists_cons_of_ne_nil hne
    rw [charsText_cons, length_append, length_cons] at hturns
    obtain ⟨turns, rfl⟩ : ∃ k, turns = k + 1 := ⟨turns - 1, by omega⟩
    rw [charsText_cons, cons_append, PadEnv.copyFrom, ← cons_append, hconv]
    dsimp only
    rw [if_neg (mt List.length_eq_zero_iff.mp hne), take_left, drop_left, ih (by omega)]
    rfl

theorem Whole.copyText (h : Whole env multiWidth l) (counted : Bool) :
    env.copyText counted (charsText l) = some (charsText l) := by
  cases counted with
  | false => rfl
  | true => exact h.copyFrom (Nat.le_refl _)

theorem repeated_some (t : Bytes) (n : ℕ) :
    repeated (some t) n = some (List.replicate n t).flatten := by
  induction n with
  | zero => rfl
  | succ n ih =>
    rw [repeated, Option.bind_some, ih]
    rfl

theorem charsText_replicate (n : ℕ) (l : List PadChar) :
    charsText (List.replicate n l).flatten = (List.replicate n (charsText l)).flatten := by
  induction n with
  | zero => rfl
  | succ n ih =>
    rw [replicate_succ, flatten_cons, charsText_append, ih, replicate_succ,
      flatten_cons]

/-- A turn that is repeated asks for what it asks for once. -/
theorem repeated_served (d : List (ℕ × List PadChar)) (l : List PadChar) (n : ℕ) :
    repeated (served PadChar.width d (charsText l)) n =
      served PadChar.width (if n = 0 then [] else d)
        (charsText (List.replicate n l).flatten) := by
  cases n with
  | zero =>
    rfl
  | succ n =>
    rw [if_neg (Nat.succ_ne_zero n), charsText_replicate]
    unfold served
    split
    · rw [repeated_some]
    · rfl

/-! ## Filling up -/

section Fill

/-- The width of a string that may be missing, and its characters. -/
def oneWidth (one : Option Chars) : ℕ := (one.map Chars.width).getD 0

def oneChars (one : Option Chars) : List PadChar := (one.map Chars.chars).getD []

/-- What the loops of `fillLeft` ask for. -/
def leftDemands (both : Bool) (f : ℕ) (one : Option Chars) (mul : Chars) :
    List (ℕ × List PadChar) :=
  if f ≤ oneWidth one then
    match one with
    | none => []
    | some one => [(one.width - f, one.chars)]
  else if mul.width = 0 then []
  else
    let m := (f - oneWidth one) % mul.width
    let left :=
      if m = 0 then []
      else
        [(mul.width - m, mul.chars)] ++
          if both then [] else [(m, dropWidth PadChar.width (mul.width - m) mul.chars)]
    left ++ if (f - oneWidth one) / mul.width = 0 then [] else [(mul.width, mul.chars)]

/-- The characters that `fillLeft` writes. -/
def leftChars (both : Bool) (f : ℕ) (one : Option Chars) (mul : Chars) : List PadChar :=
  if f ≤ oneWidth one then dropWidth PadChar.width (oneWidth one - f) (oneChars one)
  else
    let m := (f - oneWidth one) % mul.width
    let behind := dropWidth PadChar.width (mul.width - m) mul.chars
    let left :=
      if m = 0 then [] else if both then behind else takeWidth PadChar.width m behind
    (if mul.width = 0 then []
    else left ++ (List.replicate ((f - oneWidth one) / mul.width)
      (takeWidth PadChar.width mul.width mul.chars)).flatten) ++ oneChars one

/-- What the loops of `fillRight` ask for. -/
def rightDemands (f : ℕ) (one : Option Chars) (mul : Chars) : List (ℕ × List PadChar) :=
  if f ≤ oneWidth one then
    match one with
    | none => []
    | some one => [(f, one.chars)]
  else if mul.width = 0 then []
  else
    let m := (f - oneWidth one) % mul.width
    if m = 0 then [] else [(m, mul.chars)]

/-- The characters that `fillRight` writes. -/
def rightChars (f : ℕ) (one : Option Chars) (mul : Chars) : List PadChar :=
  if f ≤ oneWidth one then takeWidth PadChar.width f (oneChars one)
  else
    oneChars one ++
      if mul.width = 0 then []
      else (List.replicate ((f - oneWidth one) / mul.width) mul.chars).flatten ++
        takeWidth PadChar.width ((f - oneWidth one) % mul.width) mul.chars

variable {one : Option Chars} {mul : Chars}

theorem oneWidth_wide (one : Option Chars) :
    ((one.map Chars.wide).map (·.width)).getD 0 = oneWidth one := by
  cases one <;> rfl

theorem oneText_wide (one : Option Chars) :
    ((one.map Chars.wide).map (·.text)).getD [] = charsText (oneChars one) := by
  cases one <;> rfl

theorem leftOver_eq (hmul : Whole env multiWidth mul.chars) (both : Bool) (m : ℕ) :
    (if m = 0 then some []
    else
      (env.pass multiWidth (mul.width - m) (charsText mul.chars)).bind fun r ↦
        if both then some r.2 else (env.pass multiWidth m r.2).map (·.1)) =
      served PadChar.width
        (if m = 0 then []
        else
          [(mul.width - m, mul.chars)] ++
            if both then [] else [(m, dropWidth PadChar.width (mul.width - m) mul.chars)])
        (charsText
          (if m = 0 then []
          else if both then dropWidth PadChar.width (mul.width - m) mul.chars
          else takeWidth PadChar.width m
            (dropWidth PadChar.width (mul.width - m) mul.chars))) := by
  by_cases hm : m = 0
  · rw [if_pos hm, if_pos hm, if_pos hm, served_nil]
    rfl
  · rw [if_neg hm, if_neg hm, if_neg hm, hmul.pass]
    apply served_bind
    cases both with
    | false =>
      rw [(hmul.drop _).pass, served_map]
      rfl
    | true => exact (served_nil _).symm

theorem fillLeft_eq (hone : ∀ t, one = some t → Whole env multiWidth t.chars)
    (hmul : Whole env multiWidth mul.chars) (both : Bool) (f : ℕ) :
    env.fillLeft multiWidth both f (one.map Chars.wide) mul.wide =
      served PadChar.width (leftDemands both f one mul)
        (charsText (leftChars both f one mul)) := by
  unfold fillLeft leftDemands leftChars
  rw [oneWidth_wide, oneText_wide]
  dsimp only
  by_cases hf : f ≤ oneWidth one
  · rw [if_pos hf, if_pos hf, if_pos hf]
    cases one with
    | none =>
      have hnil : oneChars none = [] := rfl
      rw [hnil, dropWidth_nil, served_nil]
      rfl
    | some one =>
      have hpass := (hone one rfl).pass (one.width - f)
      change (env.pass multiWidth (one.width - f) (charsText one.chars)).map (·.2) = _
      rw [hpass, served_map]
      rfl
  · have hwidth : mul.wide.width = mul.width := rfl
    have htext : mul.wide.text = charsText mul.chars := rfl
    rw [if_neg hf, if_neg hf, if_neg hf, hwidth, htext]
    by_cases hzero : mul.width = 0
    · rw [if_pos hzero, if_pos hzero, if_pos hzero, served_nil]
      rfl
    · rw [if_neg hzero, if_neg hzero, if_neg hzero, leftOver_eq hmul, hmul.pass, served_map,
        repeated_served, served_bind_map, served_map, charsText_append, charsText_append]

theorem fillRight_eq (hone : ∀ t, one = some t → Whole env multiWidth t.chars)
    (hmul : Whole env multiWidth mul.chars) (both : Bool) (f : ℕ) :
    env.fillRight multiWidth both f (one.map Chars.wide) mul.wide =
      served PadChar.width (rightDemands f one mul) (charsText (rightChars f one mul)) := by
  unfold fillRight rightDemands rightChars
  rw [oneWidth_wide]
  by_cases hf : f ≤ oneWidth one
  · rw [if_pos hf, if_pos hf, if_pos hf]
    cases one with
    | none =>
      have hnil : oneChars none = [] := rfl
      rw [hnil, takeWidth_nil, served_nil]
      rfl
    | some one =>
      have hpass := (hone one rfl).pass f
      change (env.pass multiWidth f (charsText one.chars)).map (·.1) = _
      rw [hpass, served_map]
      rfl
  · have hwidth : mul.wide.width = mul.width := rfl
    have htext : mul.wide.text = charsText mul.chars := rfl
    have honce : env.copyOne (!both) (one.map Chars.wide) = some (charsText (oneChars one)) := by
      cases one with
      | none => rfl
      | some one => exact (hone one rfl).copyText (!both)
    rw [if_neg hf, if_neg hf, if_neg hf, hwidth, htext, honce, Option.bind_some]
    by_cases hzero : mul.width = 0
    · rw [if_pos hzero, if_pos hzero, if_pos hzero, served_nil, charsText_append]
      rfl
    · rw [if_neg hzero, if_neg hzero, if_neg hzero, hmul.copyText, repeated_some,
        Option.bind_some, charsText_append, charsText_append, charsText_replicate]
      by_cases hm : (f - oneWidth one) % mul.width = 0
      · rw [if_pos hm, if_pos hm, hm, takeWidth_zero, served_nil, charsText_nil,
          append_nil]
        rfl
      · rw [if_neg hm, if_neg hm, hmul.pass, served_map, served_map]

end Fill

end PadEnv

/-! ## All strings -/

/-- The strings of `dopadding` as their characters. -/
structure CharStrings where
  str : Chars
  preone : Option Chars
  postone : Option Chars
  premul : Chars
  postmul : Chars

namespace CharStrings

variable (prenum postnum : ℕ) (s : CharStrings)

def strings : PadEnv.Strings where
  str := s.str.wide
  preone := s.preone.map Chars.wide
  postone := s.postone.map Chars.wide
  premul := s.premul.wide
  postmul := s.postmul.wide

/-- What the loops over the first half ask for. -/
def firstDemands : List (ℕ × List PadChar) :=
  let half := s.str.width / 2
  if prenum ≤ half then
    [(half - prenum, s.str.chars)] ++
      [(prenum, dropWidth PadChar.width (half - prenum) s.str.chars)]
  else PadEnv.leftDemands true (prenum - half) s.preone s.premul ++ [(half, s.str.chars)]

/-- The characters of the first half, and those left. -/
def firstChars : List PadChar × List PadChar :=
  let half := s.str.width / 2
  if prenum ≤ half then
    let t := dropWidth PadChar.width (half - prenum) s.str.chars
    (takeWidth PadChar.width prenum t, dropWidth PadChar.width prenum t)
  else
    (PadEnv.leftChars true (prenum - half) s.preone s.premul ++
      takeWidth PadChar.width half s.str.chars, dropWidth PadChar.width half s.str.chars)

/-- What the loops over the other half ask for. -/
def otherDemands (rest : List PadChar) : List (ℕ × List PadChar) :=
  let half := s.str.width - s.str.width / 2
  if postnum ≤ half then [(postnum, rest)]
  else PadEnv.rightDemands (postnum - half) s.postone s.postmul

def otherChars (rest : List PadChar) : List PadChar :=
  let half := s.str.width - s.str.width / 2
  if postnum ≤ half then takeWidth PadChar.width postnum rest
  else rest ++ PadEnv.rightChars (postnum - half) s.postone s.postmul

/-- What the loops ask for: a width, and the characters that have to be as wide. -/
def demands : List (ℕ × List PadChar) :=
  if prenum ≠ 0 then
    if postnum ≠ 0 then
      s.firstDemands prenum ++ s.otherDemands postnum (s.firstChars prenum).2
    else if prenum ≤ s.str.width then
      [(s.str.width - prenum, s.str.chars)] ++
        [(prenum, dropWidth PadChar.width (s.str.width - prenum) s.str.chars)]
    else PadEnv.leftDemands false (prenum - s.str.width) s.preone s.premul
  else if postnum ≠ 0 then
    if postnum ≤ s.str.width then [(postnum, s.str.chars)]
    else PadEnv.rightDemands (postnum - s.str.width) s.postone s.postmul
  else []

/-- The characters that are written. -/
def writtenChars : List PadChar :=
  if prenum ≠ 0 then
    if postnum ≠ 0 then (s.firstChars prenum).1 ++ s.otherChars postnum (s.firstChars prenum).2
    else if prenum ≤ s.str.width then
      takeWidth PadChar.width prenum
        (dropWidth PadChar.width (s.str.width - prenum) s.str.chars)
    else PadEnv.leftChars false (prenum - s.str.width) s.preone s.premul ++ s.str.chars
  else if postnum ≠ 0 then
    if postnum ≤ s.str.width then takeWidth PadChar.width postnum s.str.chars
    else s.str.chars ++ PadEnv.rightChars (postnum - s.str.width) s.postone s.postmul
  else []

/-- Every string is cut into its characters. -/
structure Whole (env : PadEnv) (multiWidth : ℕ) : Prop where
  str : env.Whole multiWidth s.str.chars
  preone : ∀ t, s.preone = some t → env.Whole multiWidth t.chars
  postone : ∀ t, s.postone = some t → env.Whole multiWidth t.chars
  premul : env.Whole multiWidth s.premul.chars
  postmul : env.Whole multiWidth s.postmul.chars

variable {prenum postnum s} {env : PadEnv} {multiWidth : ℕ}

theorem firstHalf_eq (h : s.Whole env multiWidth) :
    env.firstHalf multiWidth prenum s.strings =
      served PadChar.width (s.firstDemands prenum)
        (charsText (s.firstChars prenum).1, charsText (s.firstChars prenum).2) := by
  unfold PadEnv.firstHalf firstDemands firstChars
  have hwidth : s.strings.str.width = s.str.width := rfl
  have htext : s.strings.str.text = charsText s.str.chars := rfl
  rw [hwidth, htext]
  by_cases hf : prenum ≤ s.str.width / 2
  · rw [if_pos hf, if_pos hf, if_pos hf, h.str.pass]
    exact served_bind _ _ ((h.str.drop _).pass prenum)
  · have hleft := PadEnv.fillLeft_eq h.preone h.premul true (prenum - s.str.width / 2)
    rw [if_neg hf, if_neg hf, if_neg hf, h.str.pass]
    change ((env.fillLeft multiWidth true _ (s.preone.map Chars.wide) s.premul.wide).bind _) = _
    rw [hleft, served_bind_map, charsText_append]

theorem otherHalf_eq (h : s.Whole env multiWidth) {rest : List PadChar}
    (hrest : env.Whole multiWidth rest) :
    env.otherHalf multiWidth postnum s.strings (charsText rest) =
      served PadChar.width (s.otherDemands postnum rest)
        (charsText (s.otherChars postnum rest)) := by
  unfold PadEnv.otherHalf otherDemands otherChars
  have hwidth : s.strings.str.width = s.str.width := rfl
  rw [hwidth]
  by_cases hf : postnum ≤ s.str.width - s.str.width / 2
  · rw [if_pos hf, if_pos hf, if_pos hf, hrest.pass, served_map]
  · have hright := PadEnv.fillRight_eq h.postone h.postmul true
      (postnum - (s.str.width - s.str.width / 2))
    rw [if_neg hf, if_neg hf, if_neg hf]
    change ((env.fillRight multiWidth true _ (s.postone.map Chars.wide) s.postmul.wide).map _) = _
    rw [hright, served_map, charsText_append]

/-- What is written, where every string is wide enough for its loops. -/
theorem written_eq (h : s.Whole env multiWidth) :
    env.written multiWidth prenum postnum s.strings =
      served PadChar.width (s.demands prenum postnum)
        (charsText (s.writtenChars prenum postnum)) := by
  unfold PadEnv.written demands writtenChars
  have hwidth : s.strings.str.width = s.str.width := rfl
  have htext : s.strings.str.text = charsText s.str.chars := rfl
  rw [hwidth, htext]
  by_cases hpre : prenum ≠ 0
  · rw [if_pos hpre, if_pos hpre, if_pos hpre]
    by_cases hpost : postnum ≠ 0
    · have hrest : env.Whole multiWidth (s.firstChars prenum).2 := by
        unfold firstChars
        dsimp only
        split
        · exact (h.str.drop _).drop _
        · exact h.str.drop _
      rw [if_pos hpost, if_pos hpost, if_pos hpost, firstHalf_eq h]
      apply served_bind
      rw [otherHalf_eq h hrest, served_map, charsText_append]
    · rw [if_neg hpost, if_neg hpost, if_neg hpost]
      by_cases hf : prenum ≤ s.str.width
      · rw [if_pos hf, if_pos hf, if_pos hf, h.str.pass]
        apply served_bind
        rw [(h.str.drop _).pass, served_map]
      · have hleft := PadEnv.fillLeft_eq h.preone h.premul false (prenum - s.str.width)
        rw [if_neg hf, if_neg hf, if_neg hf]
        change ((env.fillLeft multiWidth false _ (s.preone.map Chars.wide)
          s.premul.wide).map _) = _
        rw [hleft, served_map, charsText_append]
  · rw [if_neg hpre, if_neg hpre, if_neg hpre]
    by_cases hpost : postnum ≠ 0
    · rw [if_pos hpost, if_pos hpost, if_pos hpost]
      by_cases hf : postnum ≤ s.str.width
      · rw [if_pos hf, if_pos hf, if_pos hf, h.str.pass, served_map]
      · have hright := PadEnv.fillRight_eq h.postone h.postmul false (postnum - s.str.width)
        rw [if_neg hf, if_neg hf, if_neg hf, h.str.copyText, Option.bind_some]
        change ((env.fillRight multiWidth false _ (s.postone.map Chars.wide)
          s.postmul.wide).map _) = _
        rw [hright, served_map, charsText_append]
    · rw [if_neg hpost, if_neg hpost, if_neg hpost, served_nil]
      rfl

end CharStrings

end Bsh.Shell
