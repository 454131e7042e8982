import Bsh.Shell.Characters

/-!
# Subscripts counted forwards

`name[i]` and `name[i,j]` for a scalar without width or case attributes, and for an ordinary array.
`getarg` turns a subscript into a raw offset from either end of the value, `getindex` narrows the
offsets to `int` and corrects the first, `getstrvalue` and `getarrvalue` read the range, and
`assignstrvalue` writes to it.  Strings are without their NUL, so that their `strlen` is the length
of the list.
-/

namespace Bsh.Shell

open Bsh.Library

/-- A conversion to `zlong`. -/
def toZlong (n : ℤ) : ℤ := n.bmod (2 ^ 64)

/-- A conversion to `int`. -/
def toInt (n : ℤ) : ℤ := n.bmod (2 ^ 32)

/-- The options `KSHARRAYS` and `KSHZEROSUBSCRIPT`. -/
structure SubscriptOpts where
  kshArrays : Bool
  kshZeroSubscript : Bool

/-- What `getarg` returns for an arithmetic subscript: the offset, and the lengths of the characters
in front of it and behind it. -/
structure SubscriptArg where
  raw : ℤ
  prevcharlen : ℤ
  nextcharlen : ℤ

/-- The fields of a `struct value` that a subscript sets; `com` keeps the value of an array a list,
and `empty` is `VALFLAG_EMPTY`. -/
structure SubscriptValue where
  start : ℤ
  stop : ℤ
  com : Bool
  empty : Bool

/-! ## `getarg` -/

/-- Where a loop over `MB_METACHARLEN` stops: what is left of the string and of the count, and the
length of the last character. -/
structure Walked where
  rest : Bytes
  nchars : ℕ
  lastcharlen : ℕ

/-- `for (t = s; nchars && *t; nchars--) t += (lastcharlen = MB_METACHARLEN(t))`. -/
def TextEnv.walkChars (env : TextEnv) : ℕ → Bytes → ℕ → Option Walked
  | 0, t, lastcharlen => some ⟨t, 0, lastcharlen⟩
  | nchars, [], lastcharlen => some ⟨[], nchars, lastcharlen⟩
  | nchars + 1, c :: t, _ =>
    match env.charLen (c :: t) with
    | some len => env.walkChars nchars ((c :: t).drop len) len
    | none => none

/-- `MB_METACHARLEN` of a string that has a character, and 1 otherwise. -/
def TextEnv.nextCharLen (env : TextEnv) (t : Bytes) : Option ℕ :=
  if t = [] then some 1 else env.charLen t

/-- The subscript of the user, with the correction for arrays that begin at 0. -/
def SubscriptOpts.userIndex (opts : SubscriptOpts) (i : ℤ) : ℤ :=
  if opts.kshArrays ∧ 0 ≤ i then toZlong (i + 1) else i

/-- `getarg` for a scalar. -/
def getargScalar (env : TextEnv) (opts : SubscriptOpts) (s : Bytes) (i : ℤ) :
    Option SubscriptArg :=
  let r := opts.userIndex i
  if 0 < r then
    match env.walkChars r.toNat s 1 with
    | none => none
    | some t =>
      (env.nextCharLen t.rest).map fun (next : ℕ) ↦
        { raw := toZlong ((s.length - t.rest.length : ℕ) + t.nchars)
          prevcharlen := if t.nchars = 0 then t.lastcharlen else 1
          nextcharlen := next }
  else if r = 0 then
    (env.nextCharLen s).map fun (next : ℕ) ↦ { raw := 0, prevcharlen := 0, nextcharlen := next }
  else
    match env.metastrlen s with
    | none => none
    | some n =>
      if n + r < 0 then
        some { raw := toZlong (r - s.length), prevcharlen := 1, nextcharlen := 1 }
      else
        match env.walkChars (n + r).toNat s 1 with
        | none => none
        | some t =>
          (env.nextCharLen t.rest).map fun (next : ℕ) ↦
            { raw := -t.rest.length, prevcharlen := t.lastcharlen, nextcharlen := next }

/-- `getarg` for an array. -/
def getargArray (opts : SubscriptOpts) (i : ℤ) : SubscriptArg :=
  { raw := opts.userIndex i, prevcharlen := 1, nextcharlen := 1 }

/-! ## `getindex` -/

/-- The end of `getindex`: the first argument, and the second one where there is a comma. -/
def subscriptValue (opts : SubscriptOpts) (a : SubscriptArg) (a2 : Option SubscriptArg) :
    SubscriptValue :=
  let start := toInt a.raw
  let stop := match a2 with
    | some b => toInt b.raw
    | none => start
  let com := a2.isSome || start ≠ stop
  if 0 < start then { start := start - a.prevcharlen, stop := stop, com := com, empty := false }
  else if start = 0 ∧ stop = 0 then
    if opts.kshZeroSubscript then
      { start := start, stop := a.nextcharlen, com := com, empty := false }
    else { start := -1, stop := stop, com := true, empty := true }
  else { start := start, stop := stop, com := com, empty := false }

/-- `getindex` for a scalar. -/
def getindexScalar (env : TextEnv) (opts : SubscriptOpts) (s : Bytes) (i : ℤ) (j : Option ℤ) :
    Option SubscriptValue :=
  match getargScalar env opts s i, j with
  | none, _ => none
  | some a, none => some (subscriptValue opts a none)
  | some a, some j =>
    (getargScalar env opts s j).map fun b ↦ subscriptValue opts a (some b)

/-- `getindex` for an array. -/
def getindexArray (opts : SubscriptOpts) (i : ℤ) (j : Option ℤ) : SubscriptValue :=
  subscriptValue opts (getargArray opts i) (j.map (getargArray opts))

/-! ## Reading -/

/-- `MB_METACHARLEN` at the offset of an end counted from the end of the string. -/
def TextEnv.stepOver (env : TextEnv) (s : Bytes) (stop : ℤ) : Option ℤ :=
  if s.drop stop.toNat = [] then some stop
  else (env.charLen (s.drop stop.toNat)).map fun (len : ℕ) ↦ stop + len

/-- The end of `getstrvalue`, with both offsets from the start of the string. -/
def copyRange (s : Bytes) (len start stop : ℤ) : Bytes :=
  let t := if len < start then [] else s.drop start.toNat
  if stop ≤ start then []
  else if stop - start ≤ len - start then t.take (stop - start).toNat
  else t

/-- `getstrvalue` of a scalar. -/
def getstrvalue (env : TextEnv) (s : Bytes) (v : SubscriptValue) : Option Bytes :=
  if v.start = 0 ∧ v.stop = -1 then some s
  else
    let len := toInt s.length
    let start := if v.start < 0 then max (v.start + len) 0 else v.start
    if v.stop < 0 then
      if 0 ≤ v.stop + len then
        (env.stepOver s (v.stop + len)).map fun stop ↦ copyRange s len start stop
      else some (copyRange s len start (v.stop + len))
    else some (copyRange s len start v.stop)

/-- The value of `name[i]` or `name[i,j]` for a scalar. -/
def scalarSubscript (env : TextEnv) (opts : SubscriptOpts) (s : Bytes) (i : ℤ) (j : Option ℤ) :
    Option Bytes :=
  match getindexScalar env opts s i j with
  | some v => getstrvalue env s v
  | none => none

/-- `getstrvalue` of an array whose subscript names one element. -/
def getstrvalueArray (ss : List Bytes) (v : SubscriptValue) : Bytes :=
  let start := if v.start < 0 then v.start + ss.length else v.start
  if ss.length ≤ start ∨ start < 0 then [] else ss.getD start.toNat []

/-- `arrdup_max`. -/
def arrdupMax (ss : List Bytes) (max : ℤ) : List Bytes := ss.take max.toNat

/-- `getarrvalue`. -/
def getarrvalue (ss : List Bytes) (v : SubscriptValue) : List Bytes :=
  if v.start = 0 ∧ v.stop = -1 then ss
  else
    let start := if v.start < 0 then v.start + ss.length else v.start
    let stop := if v.stop < 0 then v.stop + (ss.length + 1) else v.stop
    if stop ≤ start then arrdupMax [[]] 0
    else if start < 0 then arrdupMax [[]] 1
    else if ss.length ≤ start then arrdupMax [[]] (stop - (start + 1))
    else arrdupMax (ss.drop start.toNat) (stop - start)

/-- The value of `name[i]` or `name[i,j]` for an array: one string, or a list. -/
def arraySubscript (opts : SubscriptOpts) (ss : List Bytes) (i : ℤ) (j : Option ℤ) :
    Bytes ⊕ List Bytes :=
  let v := getindexArray opts i j
  if v.com then .inr (getarrvalue ss v) else .inl (getstrvalueArray ss v)

/-! ## Assigning -/

/-- What an assignment to a subscript comes to. -/
inductive ScalarAssigned where
  | value (s : Bytes)
  /-- "assignment to invalid subscript range". -/
  | invalidRange
deriving DecidableEq

/-- The copy into a string of the given size, and into the string that is there; neither may be
indexed outside. -/
def spliceNew (z val : Bytes) (start stop newsize : ℤ) : Option Bytes :=
  if 0 ≤ start ∧ start ≤ z.length ∧ 0 ≤ stop ∧ stop ≤ z.length ∧
      start + val.length + (z.length - stop) ≤ newsize then
    some (z.take start.toNat ++ val ++ z.drop stop.toNat)
  else none

def spliceInPlace (z val : Bytes) (start : ℤ) : Option Bytes :=
  if 0 ≤ start ∧ start + val.length ≤ z.length then
    some (z.take start.toNat ++ val ++ z.drop (start.toNat + val.length))
  else none

/-- The end of `assignstrvalue`, with both offsets from the start of the string; `strset` says that
the parameter has the setter `strsetfn`. -/
def storeRange (strset : Bool) (z val : Bytes) (zlen start stop : ℤ) : Option ScalarAssigned :=
  let stop := if stop < start then start else min stop zlen
  let newsize := toInt (start + toInt val.length + (zlen - stop))
  if newsize ≠ zlen ∨ !strset then (spliceNew z val start stop newsize).map .value
  else (spliceInPlace z val start).map .value

/-- `assignstrvalue` for a scalar. -/
def assignstrvalue (env : TextEnv) (strset : Bool) (z : Bytes) (v : SubscriptValue) (val : Bytes) :
    Option ScalarAssigned :=
  if v.empty then some .invalidRange
  else if v.start = 0 ∧ v.stop = -1 then some (.value val)
  else
    let zlen := toInt z.length
    let start := min (if v.start < 0 then max (v.start + zlen) 0 else v.start) zlen
    let store := storeRange strset z val zlen start
    if v.stop < 0 then
      if v.stop + zlen < 0 then store 0
      else if zlen ≤ v.stop + zlen then store zlen
      else if env.multibyte then (env.stepOver z (v.stop + zlen)).bind store
      else store (v.stop + zlen + 1)
    else store v.stop

/-- `name[i]=val` or `name[i,j]=val` for a scalar. -/
def assignScalar (env : TextEnv) (opts : SubscriptOpts) (strset : Bool) (s : Bytes) (i : ℤ)
    (j : Option ℤ) (val : Bytes) : Option ScalarAssigned :=
  match getindexScalar env opts s i j with
  | some v => assignstrvalue env strset s v val
  | none => none

end Bsh.Shell
