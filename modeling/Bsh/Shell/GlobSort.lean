import Bsh.Shell.Metafy
import Bsh.Shell.SortOrder
import Bsh.Shell.Subscript

/-!
# Sorting and inserting the matches of a glob

`zglob` collects its matches in a buffer and sorts it by `gmatchcmp` in reverse, unless the first key
is `oN`.  Then it inserts those matches into the list of words that the subscript asks for, one by
one behind the same node, each between the words of the qualifier `P`.
-/

namespace Bsh.Shell

open Bsh.Library

/-! ## Matches and keys -/

/-- A string of C, without its NUL. -/
abbrev CString := {s : Bytes // 0 ∉ s}

/-- What `struct gmatch` holds of one `struct stat`. -/
structure MatchStat where
  size : ℤ
  atime : ℤ
  mtime : ℤ
  ctime : ℤ
  links : ℤ
  ansec : ℤ
  mnsec : ℤ
  cnsec : ℤ

/-- `struct gmatch`; `linked` are the fields whose names begin with an underscore. -/
structure Gmatch where
  uname : CString
  sortstrs : List CString
  own : MatchStat
  linked : MatchStat

/-- The metafied name. -/
def Gmatch.name (m : Gmatch) : Bytes := metafied m.uname.1

/-- The fields for a key with or without `-`. -/
def Gmatch.stat (m : Gmatch) (linked : Bool) : MatchStat := if linked then m.linked else m.own

/-- The `GS_` keys. -/
inductive GlobKey where
  | name
  | depth
  | exec
  | size (linked : Bool)
  | atime (linked : Bool)
  | mtime (linked : Bool)
  | ctime (linked : Bool)
  | links (linked : Bool)
  | none
deriving DecidableEq

/-- An element of `gf_sortlist`; `desc` is `GS_DESC`. -/
structure GlobSort where
  key : GlobKey
  desc : Bool
deriving DecidableEq

/-! ## `gmatchcmp` -/

/-- `zstrcmp` for the flags 0 and `SORTIT_NUMERICALLY`. -/
def zstrcmp (numeric : Bool) (as bs : CString) : ℤ :=
  eltpcmp ⟨false, if numeric then .numeric else .off, false⟩
    ⟨as.1, false, fun _ ↦ as.2⟩ ⟨bs.1, false, fun _ ↦ bs.2⟩

/-- What is behind the common characters, and whether the last of these is a slash. -/
def passShared : Bool → Bytes → Bytes → Bool × Bytes × Bytes
  | slash, c :: aptr, d :: bptr =>
    if c = d then passShared (c = char '/') aptr bptr else (slash, c :: aptr, d :: bptr)
  | slash, aptr, bptr => (slash, aptr, bptr)

/-- There is a slash that is not the last character. -/
def countsSlash : Bytes → Bool
  | c :: d :: s => c = char '/' || countsSlash (d :: s)
  | _ => false

/-- The case `GS_DEPTH`. -/
def depthDiff (a b : Bytes) : ℤ :=
  let (slash, aptr, bptr) := passShared false a b
  -- Trailing slashes do not count.
  let back := (aptr = [] || bptr = []) && slash
  let aptr := if back then char '/' :: aptr else aptr
  let bptr := if back then char '/' :: bptr else bptr
  (if countsSlash aptr then 1 else 0) - (if countsSlash bptr then 1 else 0)

/-- The times of a key, by seconds and then by nanoseconds. -/
def timeDiff (a b ansec bnsec : ℤ) : ℤ :=
  let r := toZlong (a - b)
  if r = 0 then toZlong (ansec - bnsec) else r

/-- The cases of `gmatchcmp`; `execs` is how many keys of shell code there are in front. -/
def GlobKey.diff (key : GlobKey) (numsort : Bool) (execs : ℕ) (a b : Gmatch) : ℤ :=
  match key with
  | name => zstrcmp numsort b.uname a.uname
  | depth => depthDiff a.name b.name
  | exec =>
    match a.sortstrs[execs]?, b.sortstrs[execs]? with
    | some as, some bs => zstrcmp numsort bs as
    | _, _ => 0
  | size l => toZlong ((b.stat l).size - (a.stat l).size)
  | atime l => timeDiff (a.stat l).atime (b.stat l).atime (a.stat l).ansec (b.stat l).ansec
  | mtime l => timeDiff (a.stat l).mtime (b.stat l).mtime (a.stat l).mnsec (b.stat l).mnsec
  | ctime l => timeDiff (a.stat l).ctime (b.stat l).ctime (a.stat l).cnsec (b.stat l).cnsec
  | links l => toZlong ((b.stat l).links - (a.stat l).links)
  | none => 0

/-- The loop of `gmatchcmp`. -/
def gmatchcmpFrom (numsort : Bool) : ℕ → List GlobSort → Gmatch → Gmatch → ℤ
  | _, [], _, _ => 0
  | execs, s :: sortlist, a, b =>
    let r := s.key.diff numsort execs a b
    if r ≠ 0 then
      if s.desc then if r < 0 then 1 else -1
      else if 0 < r then 1 else -1
    else gmatchcmpFrom numsort (if s.key = .exec then execs + 1 else execs) sortlist a b

/-- `gmatchcmp`. -/
def gmatchcmp (numsort : Bool) (sortlist : List GlobSort) : Gmatch → Gmatch → ℤ :=
  gmatchcmpFrom numsort 0 sortlist

/-! ## Insertion -/

/-- A place in a linked list: what is in front of it and of its node, and what is behind. -/
structure WordPlace where
  front : List Bytes
  behind : List Bytes

/-- `insertlinknode`: the place is that of the new node. -/
def insertlinknode (at' : WordPlace) (word : Bytes) : WordPlace :=
  { at' with front := at'.front ++ [word] }

/-- What a glob inserts its matches with: `gf_pre_words` and `gf_post_words`. -/
structure MatchWords where
  preWords : List Bytes
  postWords : List Bytes

/-- `insert_glob_match`: what is behind the node afterwards. -/
def insertGlobMatch (words : MatchWords) (behind : List Bytes) (data : Bytes) : List Bytes :=
  let next := words.preWords.foldl insertlinknode ⟨[], behind⟩
  let next := insertlinknode next data
  let next := words.postWords.foldl insertlinknode next
  next.front ++ next.behind

/-- `matchptr[p]`, within the matches that are there. -/
def matchAt (matchbuf : List Gmatch) (p : ℤ) : Option Gmatch :=
  if 0 ≤ p then matchbuf[p.toNat]? else none

/-- The loops that insert matches; `step` is 1 or -1. -/
def insertMatches (words : MatchWords) (matchbuf : List Gmatch) (step : ℤ) :
    ℕ → ℤ → List Bytes → Option (List Bytes)
  | 0, _, behind => some behind
  | stop + 1, matchptr, behind =>
    (matchAt matchbuf matchptr).bind fun m ↦
      insertMatches words matchbuf step stop (matchptr + step)
        (insertGlobMatch words behind m.name)

/-! ## The end of `zglob` -/

/-- The state in which `zglob` has parsed its qualifiers. -/
structure GlobState where
  /-- The sort specifiers that were given. -/
  sorts : List GlobSort
  /-- Whether the number of matches is limited by `Y`. -/
  shortcircuit : Bool
  numsort : Bool
  words : MatchWords
  nullGlob : Bool
  cshNullGlob : Bool
  noMatch : Bool
  inExpandredir : Bool
  badcshglob : Bool
  /-- The pattern as an ordinary string, not metafied. -/
  ostr : CString

/-- `gf_sortlist`. -/
def GlobState.sortlist (g : GlobState) : List GlobSort :=
  if g.sorts = [] then [⟨if g.shortcircuit then .none else .name, false⟩] else g.sorts

/-- What `zglob` ends with. -/
inductive GlobEnd where
  /-- What is behind the node. -/
  | words (behind : List Bytes)
  /-- "no matches found". -/
  | noMatches
  /-- "redirection failed (no match)". -/
  | redirectionFailed
deriving DecidableEq

/-- The sorting of the buffer. -/
def GlobState.sorted (g : GlobState) (qsort : QSort Gmatch) (matchbuf : List Gmatch) :
    List Gmatch :=
  if g.sortlist.head?.any (·.key = .none) then matchbuf
  else qsort.sort (gmatchcmp g.numsort g.sortlist) matchbuf

/-- The insertion of the matches of the sorted buffer; `badcshglob` is the one before it. -/
def GlobState.insertSlice (g : GlobState) (badcshglob : Bool) (matchbuf : List Gmatch)
    (first stop : ℤ) (behind : List Bytes) : Option (List Bytes) :=
  let matchct : ℤ := matchbuf.length
  let first := if first < 0 then max (first + matchct) 0 else first
  let stop := if stop < 0 then stop + (matchct + 1) else min stop matchct
  let count := toInt (stop - first)
  if 0 < count then
    if g.sortlist.head?.any (·.key = .none) then
      -- Back to front.
      insertMatches g.words matchbuf (-1) count.toNat (matchct - first - 1) behind
    else insertMatches g.words matchbuf 1 count.toNat (matchct - first - count) behind
  else if !badcshglob && !g.noMatch && matchct = 1 then
    (matchAt matchbuf (matchct - 1)).map fun m ↦ insertGlobMatch g.words behind m.name
  else some behind

/-- The match for a pattern that is treated as an ordinary string. -/
def literalMatch (ostr : CString) : Gmatch :=
  ⟨ostr, [], ⟨0, 0, 0, 0, 0, 0, 0, 0⟩, ⟨0, 0, 0, 0, 0, 0, 0, 0⟩⟩

/-- `zglob` behind the call of `scanner`, which has found the matches in this order. -/
def GlobState.zglobEnd (g : GlobState) (qsort : QSort Gmatch) (found : List Gmatch)
    (first stop : ℤ) (behind : List Bytes) : Option GlobEnd :=
  let finish (badcshglob : Bool) (matchbuf : List Gmatch) :=
    (g.insertSlice badcshglob (g.sorted qsort matchbuf) first stop behind).map GlobEnd.words
  if found ≠ [] then finish true found
  else if !g.nullGlob then
    if g.cshNullGlob then finish true []
    else if g.noMatch then some .noMatches
    else finish g.badcshglob [literalMatch g.ostr]
  else if g.inExpandredir then some .redirectionFailed
  else finish g.badcshglob []

end Bsh.Shell
