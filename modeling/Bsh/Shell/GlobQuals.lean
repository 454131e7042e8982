import Bsh.Library.Bytes
import Bsh.Library.Rows

/-!
# The list of glob qualifiers

`zglob` puts the tests of a group of qualifiers into nodes, linked by `next` inside of an alternative
and by `or` from the first node of one alternative to the first node of the next.  The groups are
read from the right, and every further group is merged with the list of those before.  `insert` walks
the final list for each file.  A node has a number that is never used again, and `none` stands for a
step through a pointer to no node.
-/

namespace Bsh.Shell

open Bsh.Library

/-! ## Tests -/

/-- `g_range`, `g_amc` and `g_units`. -/
structure QualSetting where
  range : ℤ
  amc : ℤ
  units : ℤ

/-- A test function, with the settings it reads; `σ` is `struct stat`. -/
abbrev QualFunc (σ : Type) := QualSetting → Bytes → σ → ℤ → Option Bytes → ℤ

/-- `struct qual` without its links. -/
structure Qual (σ : Type) where
  func : QualFunc σ
  data : ℤ
  sdata : Option Bytes
  sense : ℕ
  setting : QualSetting

/-- What `insert` knows of a file: its name with `pathbuf`, what both kinds of `statfullpath` give,
and whether `statfullpath` without a buffer finds it. -/
structure GlobFile (σ : Type) where
  name : Bytes
  buf : Option σ
  target : Option σ
  present : Bool

variable {σ : Type}

/-- `buf2`, which is testNodes once for a file. -/
def GlobFile.buf2 (isLink : σ → Bool) (f : GlobFile σ) (buf : σ) : σ :=
  if isLink buf then f.target.getD buf else buf

/-- The test rejects the file. -/
def Qual.rejects (isLink : σ → Bool) (q : Qual σ) (f : GlobFile σ) (buf : σ) : Bool :=
  let bp := if q.sense &&& 2 ≠ 0 then f.buf2 isLink buf else buf
  let failed := if q.func q.setting f.name bp q.data q.sdata = 0 then 1 else 0
  (failed ^^^ q.sense) &&& 1 ≠ 0

/-! ## Nodes -/

/-- The nodes: their test, which is none while `func` is NULL, and both links. -/
structure QualHeap (σ : Type) where
  cell : ℕ → Option (Cell ℕ (Option (Qual σ)))
  or : ℕ → Option ℕ
  fresh : ℕ

namespace QualHeap

/-- Before any allocation. -/
def initial : QualHeap σ := ⟨fun _ ↦ none, fun _ ↦ none, 0⟩

/-- A new node without links. -/
def alloc (s : QualHeap σ) (val : Option (Qual σ)) : ℕ × QualHeap σ :=
  (s.fresh, ⟨Function.update s.cell s.fresh (some ⟨val, none⟩), Function.update s.or s.fresh none,
    s.fresh + 1⟩)

def setNext (s : QualHeap σ) (a : ℕ) (next : Option ℕ) : Option (QualHeap σ) :=
  (s.cell a).map fun c ↦
    { s with cell := Function.update s.cell a (some { c with next := next }) }

def setVal (s : QualHeap σ) (a : ℕ) (val : Option (Qual σ)) : Option (QualHeap σ) :=
  (s.cell a).map fun c ↦ { s with cell := Function.update s.cell a (some { c with val := val }) }

def setOr (s : QualHeap σ) (a : ℕ) (or : Option ℕ) : Option (QualHeap σ) :=
  (s.cell a).map fun _ ↦ { s with or := Function.update s.or a or }

def getOr (s : QualHeap σ) (a : ℕ) : Option (Option ℕ) := (s.cell a).map fun _ ↦ s.or a

/-- `if (last) last->next = a`. -/
def linkTo (s : QualHeap σ) (last : Option ℕ) (a : ℕ) : Option (QualHeap σ) :=
  match last with
  | none => some s
  | some l => s.setNext l (some a)

/-- `if (last) last->or = a`. -/
def orTo (s : QualHeap σ) (last : Option ℕ) (a : ℕ) : Option (QualHeap σ) :=
  match last with
  | none => some s
  | some l => s.setOr l (some a)

end QualHeap

/-! ## Reading a group -/

/-- A piece of a group: `flag` is a qualifier that tests nothing. -/
inductive QualItem (σ : Type) where
  | comma
  | negate
  | follow
  | flag
  | test (func : QualFunc σ) (data : ℤ) (sdata : Option Bytes) (setting : QualSetting)

/-- The variables of `zglob` while it reads a group. -/
structure QualParse (σ : Type) where
  heap : QualHeap σ
  newquals : Option ℕ
  qo : Option ℕ
  qn : Option ℕ
  ql : Option ℕ
  sense : ℕ
  qualct : ℕ
  qualorct : ℕ

namespace QualParse

/-- A comma. -/
def comma (p : QualParse σ) : Option (QualParse σ) :=
  if p.qualct ≠ 0 then
    let (qn, heap) := p.heap.alloc none
    (heap.orTo p.qo qn).map fun heap ↦
      { p with
        heap := heap, sense := 0, qn := some qn, qo := some qn, qualorct := p.qualorct + 1,
        qualct := 0, ql := none }
  else some { p with sense := 0 }

/-- The node for a test: the one that a comma made, or a new one. -/
def node (p : QualParse σ) : ℕ × QualHeap σ :=
  match p.qn with
  | some qn => (qn, p.heap)
  | none => p.heap.alloc none

/-- What follows `if (func)`. -/
def addTest (p : QualParse σ) (func : QualFunc σ) (data : ℤ) (sdata : Option Bytes)
    (setting : QualSetting) : Option (QualParse σ) := do
  let (qn, heap) := p.node
  let heap ← heap.linkTo p.ql qn
  let heap ← heap.setVal qn (some ⟨func, data, sdata, p.sense, setting⟩)
  return { p with
    heap := heap, newquals := p.newquals.or (some qn),
    qo := if p.newquals.isSome then p.qo else some qn, qn := none, ql := some qn,
    qualct := p.qualct + 1 }

def step (p : QualParse σ) : QualItem σ → Option (QualParse σ)
  | .comma => p.comma
  | .negate => some { p with sense := p.sense ^^^ 1 }
  | .follow => some { p with sense := p.sense ^^^ 2 }
  | .flag => some p
  | .test func data sdata setting => p.addTest func data sdata setting

end QualParse

/-! ## Merging two lists -/

namespace QualHeap

/-- The loop of `dup_qual_list`. -/
def dupLoop : ℕ → QualHeap σ → (orig qfirst qlast : Option ℕ) →
    Option (QualHeap σ × Option ℕ × Option ℕ)
  | _, s, none, qfirst, qlast => some (s, qfirst, qlast)
  | 0, _, some _, _, _ => none
  | turns + 1, s, some orig, qfirst, qlast => do
    let c ← s.cell orig
    let (qnew, s) := s.alloc c.val
    let s ← s.linkTo qlast qnew
    dupLoop turns s c.next (qfirst.or (some qnew)) (some qnew)

/-- `dup_qual_list`; no list has more nodes than were made. -/
def dup_qual_list (s : QualHeap σ) (orig : Option ℕ) :
    Option (QualHeap σ × Option ℕ × Option ℕ) :=
  s.dupLoop s.fresh orig none none

/-- `for (; q->next; q = q->next)`. -/
def lastNode (s : QualHeap σ) : ℕ → ℕ → Option ℕ
  | 0, _ => none
  | turns + 1, q =>
    match s.cell q with
    | none => none
    | some ⟨_, none⟩ => some q
    | some ⟨_, some next⟩ => s.lastNode turns next

/-- The `or` chain built so far, with its ends. -/
structure OrChain (σ : Type) where
  heap : QualHeap σ
  qorhead : Option ℕ
  qortail : Option ℕ

/-- The body of both loops of the hard case. -/
def combineOne (c : OrChain σ) (qn qo : ℕ) : Option (OrChain σ) := do
  let qnor ← c.heap.getOr qn
  let qoor ← c.heap.getOr qo
  let islast := qnor.isNone && qoor.isNone
  let (s, qfirst, qlast) ←
    if islast then (c.heap.lastNode c.heap.fresh qn).map fun qlast ↦ (c.heap, some qn, some qlast)
    else c.heap.dup_qual_list (some qn)
  let qfirst ← qfirst
  let qlast ← qlast
  let s ← s.orTo c.qortail qfirst
  let (s, behind) ←
    if islast then some (s, some qo)
    else (s.dup_qual_list (some qo)).map fun (s, first, _) ↦ (s, first)
  let s ← s.setNext qlast behind
  return ⟨s, c.qorhead.or (some qfirst), some qfirst⟩

/-- The inner loop, over the list of the groups before. -/
def combineOld : ℕ → OrChain σ → ℕ → Option ℕ → Option (OrChain σ)
  | _, c, _, none => some c
  | 0, _, _, some _ => none
  | turns + 1, c, qn, some qo => do
    let c ← combineOne c qn qo
    let next ← c.heap.getOr qo
    combineOld turns c qn next

/-- The outer loop, over the alternatives of the new group. -/
def combineNew : ℕ → OrChain σ → (quals qn : Option ℕ) → Option (OrChain σ)
  | _, c, _, none => some c
  | 0, _, _, some _ => none
  | turns + 1, c, quals, some qn => do
    let c ← combineOld c.heap.fresh c qn quals
    let next ← c.heap.getOr qn
    combineNew turns c quals next

/-- What follows the reading of a group; the new list is `quals`. -/
def merge (s : QualHeap σ) (quals newquals : Option ℕ) : Option (QualHeap σ × Option ℕ) :=
  match quals, newquals with
  | some q, some n => do
    let qor ← s.getOr q
    let nor ← s.getOr n
    if qor.isSome || nor.isSome then
      let c ← combineNew s.fresh ⟨s, none, none⟩ (some q) (some n)
      return (c.heap, c.qorhead)
    else
      let last ← s.lastNode s.fresh n
      let s ← s.setNext last (some q)
      return (s, some n)
  | none, some n => some (s, some n)
  | q, none => some (s, q)

end QualHeap

/-! ## Groups and files -/

/-- The nodes, and the variables of `zglob` that outlive a group. -/
structure Quals (σ : Type) where
  heap : QualHeap σ
  quals : Option ℕ
  qualct : ℕ
  qualorct : ℕ

namespace Quals

/-- One turn of the loop over the groups. -/
def group (q : Quals σ) (items : List (QualItem σ)) : Option (Quals σ) := do
  let p ← items.foldlM QualParse.step ⟨q.heap, none, none, none, none, 0, q.qualct, q.qualorct⟩
  let (heap, quals) ← p.heap.merge q.quals p.newquals
  return ⟨heap, quals, p.qualct, p.qualorct⟩

/-- The loop, which takes groups off the end of the pattern. -/
def zglob (groups : List (List (QualItem σ))) : Option (Quals σ) :=
  groups.reverse.foldlM group ⟨.initial, none, 0, 0⟩

/-- The loop of `insert` through the qualifiers. -/
def walk (isLink : σ → Bool) (s : QualHeap σ) (f : GlobFile σ) (buf : σ) :
    ℕ → ℕ → Option ℕ → Option Bool
  | _, _, none => some true
  | 0, _, some _ => none
  | turns + 1, qo, some qn => do
    let c ← s.cell qn
    match c.val with
    | none => some true
    | some q =>
      if q.rejects isLink f buf then
        match ← s.getOr qo with
        | none => some false
        | some qo => walk isLink s f buf turns qo (some qo)
      else walk isLink s f buf turns qo c.next

/-- The part of `insert` that rejects files; `marked` is `gf_listtypes || gf_markdirs`. -/
def insert (isLink : σ → Bool) (q : Quals σ) (marked checked : Bool) (f : GlobFile σ) :
    Option Bool :=
  if marked && f.buf.isNone then some false
  else if q.qualct ≠ 0 ∨ q.qualorct ≠ 0 then
    match f.buf, q.quals with
    | none, _ => some false
    | some _, none => some true
    | some buf, some qo => walk isLink q.heap f buf q.heap.fresh qo (some qo)
  else some (checked || marked || f.present)

end Quals

end Bsh.Shell
