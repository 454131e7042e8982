import Mathlib.Data.List.Sort
import Bsh.Library.Walk

/-!
# Hash tables that are changed while they are scanned

`addhashnode2`, `removehashnode`, `gethashnode2`, `scanmatchtable` and `expandhashtable` of
`hashtable.c`.  The scans that are running are a stack; each of them has a `struct scanstatus`, and
`impl(ht)->scan` points to one of these or is NULL.  What the callbacks of a scan do are steps of
their own between the turns of its loop; these steps are also allowed between nodes that the flags or
the pattern pass over, where the code makes none.  Tables with a `scantab` of their own are left out.

A step gives `none` where the code would follow a NULL pointer, or touch a node that is not in the
table or an array of buckets that has been freed.
-/

namespace Bsh.Shell

open Bsh.Library

/-- `struct hashnode`; the links are in the chains of the table. -/
structure HashNode (κ : Type*) where
  nam : κ
  flags : ℕ

/-- What the loop of a scan is at.  A sorted scan has its copy of the nodes and the index of the next
one; an unsorted one has the array of buckets and the size that it began with, the number of buckets
that it has come to, and `st.u.u`. -/
inductive ScanCursor where
  | sorted (hashtab : List (Option ℕ)) (i : ℕ)
  | unsorted (nodes hsize i : ℕ) (u : Option ℕ)

/-- A call of `scanmatchtable`; `visits` are the nodes that the loop has come to, their names, and
whether `scanfunc` was called. -/
structure Scan (κ : Type*) where
  id : ℕ
  flags1 : ℕ
  flags2 : ℕ
  pprog : Option (κ → Bool)
  cursor : ScanCursor
  visits : List (ℕ × κ × Bool)

/-- The table, with the nodes that the program has.  `nodes` is the allocation of the buckets, `scan`
the running scan that `impl(ht)->scan` points to, and `started` the number of scans so far. -/
structure HashTable (κ : Type*) where
  node : ℕ → HashNode κ
  table : HashChains ℕ
  nodes : ℕ
  scan : Option ℕ
  scans : List (Scan κ)
  started : ℕ

/-! ## Patching a scan -/

namespace ScanCursor

/-- `hn` has replaced `hp`. -/
def replace (hp hn : ℕ) : ScanCursor → ScanCursor
  | sorted hashtab i => sorted (hashtab.map fun x ↦ if x = some hp then some hn else x) i
  | unsorted nodes hsize i u => unsorted nodes hsize i (if u = some hp then some hn else u)

/-- `hp` has been removed, and `next` came after it. -/
def remove (hp : ℕ) (next : Option ℕ) : ScanCursor → ScanCursor
  | sorted hashtab i => sorted (hashtab.map fun x ↦ if x = some hp then none else x) i
  | unsorted nodes hsize i u => unsorted nodes hsize i (if u = some hp then next else u)

end ScanCursor

namespace HashTable

variable {κ : Type*} [LinearOrder κ] (hash : κ → ℕ)

/-- `newhashtable`. -/
def newhashtable (node : ℕ → HashNode κ) (size : ℕ) : HashTable κ :=
  ⟨node, .empty size, 0, none, [], 0⟩

/-- The nodes by their names. -/
def hashing (node : ℕ → HashNode κ) : Hashing ℕ where
  hash n := hash (node n).nam
  same m n := (node m).nam = (node n).nam
  same_refl _ := decide_eq_true rfl
  same_symm _ _ h := decide_eq_true (of_decide_eq_true h).symm
  same_trans _ _ _ h h' := decide_eq_true ((of_decide_eq_true h).trans (of_decide_eq_true h'))
  hash_eq _ _ h := congrArg hash (of_decide_eq_true h)

/-- The scan that `impl(ht)->scan` points to is patched. -/
def patchScan (s : HashTable κ) (f : ScanCursor → ScanCursor) : List (Scan κ) :=
  s.scans.map fun st ↦ if s.scan = some st.id then { st with cursor := f st.cursor } else st

/-! ## Changing the table -/

/-- `addhashnode2`, for a table that `expand` expands. -/
def addWith (expand : HashTable κ → Option (HashTable κ)) (s : HashTable κ) (nam : κ) (hn : ℕ) :
    Option (HashTable κ × Option ℕ) :=
  let node := Function.update s.node hn ⟨nam, (s.node hn).flags⟩
  let (table, old) := s.table.add (hashing hash node) hn
  match old with
  | some hp => some ({ s with node, table, scans := s.patchScan (.replace hp hn) }, some hp)
  | none =>
    let s := { s with node, table }
    if 2 * table.hsize ≤ table.ct && s.scan.isNone then (expand s).map fun s ↦ (s, none)
    else some (s, none)

/-- `expandhashtable`.  Nodes are added to the new buckets one by one, which may expand the table
again; the first argument bounds how deep. -/
def expandhashtable : ℕ → HashTable κ → Option (HashTable κ)
  | 0, _ => none
  | depth + 1, s =>
    s.table.all.foldlM (fun t hn ↦
      (addWith hash (expandhashtable depth) t (t.node hn).nam hn).map Prod.fst)
      { s with table := .empty (4 * s.table.hsize), nodes := s.nodes + 1 }

def addhashnode2 (s : HashTable κ) (nam : κ) (hn : ℕ) : Option (HashTable κ × Option ℕ) :=
  addWith hash (expandhashtable hash 2) s nam hn

/-- The bucket of a name. -/
def bucket (s : HashTable κ) (nam : κ) : List ℕ := s.table.nodes (hash nam % s.table.hsize)

def gethashnode2 (s : HashTable κ) (nam : κ) : Option ℕ :=
  (s.bucket hash nam).find? fun hp ↦ (s.node hp).nam = nam

def removehashnode (s : HashTable κ) (nam : κ) : HashTable κ × Option ℕ :=
  match s.gethashnode2 hash nam with
  | none => (s, none)
  | some hp =>
    let chain := s.bucket hash nam
    ({ s with
      table := ⟨s.table.hsize, Function.update s.table.nodes (hash nam % s.table.hsize)
        (chain.eraseP fun hp ↦ (s.node hp).nam = nam), s.table.ct - 1⟩
      scans := s.patchScan (.remove hp (successor hp chain)) }, some hp)

/-! ## Scanning -/

/-- The call of `scanmatchtable` up to its loop.  The array that is sorted has room for `ct` nodes;
fewer would leave some of it unset. -/
def startScan (s : HashTable κ) (sorted : Bool) (flags1 flags2 : ℕ) (pprog : Option (κ → Bool)) :
    Option (HashTable κ) :=
  let start (cursor : ScanCursor) : HashTable κ :=
    { s with scan := some s.started
             scans := ⟨s.started, flags1, flags2, pprog, cursor, []⟩ :: s.scans
             started := s.started + 1 }
  if sorted then
    if s.table.all.length = s.table.ct then
      some (start (.sorted ((s.table.all.insertionSort fun a b ↦
        (s.node a).nam ≤ (s.node b).nam).map some) 0))
    else none
  else some (start (.unsorted s.nodes s.table.hsize 0 none))

/-- Whether the loop calls `scanfunc`. -/
def selects (st : Scan κ) (x : HashNode κ) : Bool :=
  (st.flags1 = 0 || x.flags &&& st.flags1 ≠ 0) && x.flags &&& st.flags2 = 0 &&
    st.pprog.all (· x.nam)

/-- The loop comes to a node, which must be in the table. -/
def visit (s : HashTable κ) (st : Scan κ) (rest : List (Scan κ)) (n : ℕ) (cursor : ScanCursor) :
    Option (HashTable κ) :=
  if n ∈ s.table.chain (hashing hash s.node) n then
    some { s with scans := { st with
      cursor, visits := st.visits ++ [(n, (s.node n).nam, selects st (s.node n))] } :: rest }
  else none

/-- The end of `scanmatchtable`. -/
def endScan (s : HashTable κ) (rest : List (Scan κ)) : HashTable κ :=
  { s with scan := none, scans := rest }

/-- The first of the buckets `i`, …, `hsize - 1` that has a node. -/
def nextBucket (s : HashTable κ) (i hsize : ℕ) : Option (ℕ × ℕ) :=
  (List.range' i (hsize - i)).findSome? fun j ↦ (s.table.nodes j).head?.map fun n ↦ (j, n)

/-- `hn->next`. -/
def next (s : HashTable κ) (n : ℕ) : Option ℕ :=
  successor n (s.table.chain (hashing hash s.node) n)

/-- One turn of the loop of the innermost scan, which comes to a node or ends. -/
def scanTurn (s : HashTable κ) : Option (HashTable κ) :=
  match s.scans with
  | [] => some s
  | st :: rest =>
    match st.cursor with
    | .sorted hashtab i =>
      match hashtab[i]? with
      | none => some (s.endScan rest)
      | some none => none
      | some (some n) => s.visit hash st rest n (.sorted hashtab (i + 1))
    | .unsorted nodes hsize i (some n) =>
      s.visit hash st rest n (.unsorted nodes hsize i (s.next hash n))
    | .unsorted nodes hsize i none =>
      if hsize ≤ i then some (s.endScan rest)
      else if nodes ≠ s.nodes then none
      else
        match s.nextBucket i hsize with
        | none => some (s.endScan rest)
        | some (j, n) => s.visit hash st rest n (.unsorted nodes hsize (j + 1) (s.next hash n))

end HashTable

/-! ## Runs -/

/-- A step of the program, or of the scan that runs. -/
inductive HashEvent (κ : Type*) where
  | add (nam : κ) (hn : ℕ)
  | remove (nam : κ)
  | flags (hn flags : ℕ)
  | scan (sorted : Bool) (flags1 flags2 : ℕ) (pprog : Option (κ → Bool))
  | turn

namespace HashTable

variable {κ : Type*} [LinearOrder κ] (hash : κ → ℕ)

def step (s : HashTable κ) : HashEvent κ → Option (HashTable κ)
  | .add nam hn => (s.addhashnode2 hash nam hn).map Prod.fst
  | .remove nam => some (s.removehashnode hash nam).1
  | .flags hn flags =>
    some { s with node := Function.update s.node hn { s.node hn with flags } }
  | .scan sorted flags1 flags2 pprog => s.startScan sorted flags1 flags2 pprog
  | .turn => s.scanTurn hash

/-- The steps of a run, up to the first that fails. -/
def nextState (s : Option (HashTable κ)) (event : HashEvent κ) : Option (HashTable κ) :=
  s.bind fun s ↦ s.step hash event

end HashTable

end Bsh.Shell
