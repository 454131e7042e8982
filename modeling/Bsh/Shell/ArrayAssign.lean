import Bsh.Library.Cells
import Bsh.Shell.Subscript

/-!
# Assigning to a slice of an array

`setarrvalue` of `params.c`.  The bounds of the slice are normalised by the length of the array, and
the new array is made in one of three ways: the values are stored into the old array if the length
stays the same, behind the old elements after `zrealloc` if the slice begins behind the last one,
and otherwise a new array is filled from the front, the values and the end.  Arrays are cells of
pointers with a `NULL` behind the last string; who frees a string is left out.
-/

namespace Bsh.Shell

open Bsh.Library List

/-! ## Arrays in memory -/

/-- The cells of an array: a string, or `NULL`. -/
abbrev ArrayCells := Cells (Option Bytes)

/-- An array as its parameter holds it. -/
def cellsOf (ss : List Bytes) : ArrayCells := ss.map (some <| some ·) ++ [some none]

/-- The strings in front of the `NULL`. -/
def stringsOf : ArrayCells → Option (List Bytes)
  | some (some s) :: cells => (stringsOf cells).map (s :: ·)
  | some none :: _ => some []
  | _ => none

theorem stringsOf_cellsOf (ss : List Bytes) (rest : ArrayCells) :
    stringsOf (cellsOf ss ++ rest) = some ss := by
  induction ss with
  | nil => rfl
  | cons s ss ih =>
    change (stringsOf (cellsOf ss ++ rest)).map (s :: ·) = _
    rw [ih]
    rfl

/-! ## `setarrvalue` -/

/-- The types that `setarrvalue` tells apart. -/
inductive ParamKind where
  | array
  | hashed
  | other
  deriving DecidableEq

/-- What `setarrvalue` asks of a parameter: `tied` is `pm->ename != NULL`, and `plainSet` that its
set function is `arrsetfn`. -/
structure ArrayParam where
  name : String
  kind : ParamKind
  readonly : Bool
  special : Bool
  unique : Bool
  tied : Bool
  plainSet : Bool

/-- An array without special treatment. -/
structure ArrayParam.Ordinary (pm : ArrayParam) : Prop where
  kind : pm.kind = .array
  readonly : pm.readonly = false
  special : pm.special = false
  unique : pm.unique = false
  tied : pm.tied = false
  plainSet : pm.plainSet = true

/-- The fields of a `struct value` for an assignment: `inv` is `VALFLAG_INV`, `empty` is
`VALFLAG_EMPTY`. -/
structure AssignValue where
  start : ℤ
  stop : ℤ
  inv : Bool
  empty : Bool

/-- The options `EXECOPT` and `KSHARRAYS`. -/
structure AssignOpts where
  exec : Bool
  kshArrays : Bool

/-- What an assignment of an array comes to. -/
inductive ArrayAssigned where
  | ignored
  | failed (message : String)
  /-- `arrhashsetfn`, with `ASSPM_AUGMENT` or without. -/
  | hash (val : List Bytes) (augment : Bool)
  /-- The set function is called with the values. -/
  | whole (val : List Bytes)
  /-- The cells of the old array have been stored to. -/
  | inPlace (cells : ArrayCells)
  /-- The set function is called with a new array; `p` is left at its `NULL`. -/
  | fresh (cells : ArrayCells) (p : ℕ)

/-- The bounds after the normalisation by the length of the array. -/
def assignBounds (kshArrays : Bool) (length : ℤ) (v : AssignValue) : ℤ × ℤ :=
  let (start, stop) :=
    if v.inv && !kshArrays then (if 0 < v.start then v.start - 1 else v.start, v.stop - 1)
    else (v.start, v.stop)
  let start := if start < 0 then if start + length < 0 then 0 else start + length else start
  let stop :=
    if stop < 0 then if stop + (length + 1) < 0 then 0 else stop + (length + 1) else stop
  (start, if stop < start then start else stop)

/-- `post_assignment_length`. -/
def postLength (length : ℤ) (start stop : ℤ) (count : ℕ) : ℤ :=
  if stop < length then start + count + (length - stop) else start + count

/-- The copies that `for (i = 0; i < v->start; i++)` makes. -/
def padded : ℕ → List Bytes → List Bytes
  | 0, _ => []
  | n + 1, [] => [] :: padded n []
  | n + 1, q :: old => q :: padded n old

/-- The values are stored into the old array. -/
def assignInPlace (old val : List Bytes) (start : ℤ) : Option ArrayCells :=
  ((cellsOf old).storeAll start.toNat (val.map some)).map Prod.fst

/-- The array is made longer, and the values are stored behind it. -/
def assignBehind (old val : List Bytes) (start post : ℤ) : Option (ArrayCells × ℕ) := do
  let new : ArrayCells := (cellsOf old).take (post + 1).toNat ++
    Cells.fresh ((post + 1).toNat - (cellsOf old).length)
  let (new, p) ← new.storeAll old.length (List.replicate (start - old.length).toNat (some []))
  let (new, p) ← new.storeAll p (val.map some)
  let new ← new.store p none
  return (new, p)

/-- A new array is filled. -/
def assignFresh (old val : List Bytes) (start stop post : ℤ) : Option (ArrayCells × ℕ) := do
  let new : ArrayCells := Cells.fresh (post + 1).toNat
  let (new, p) ← new.storeAll 0 ((padded start.toNat old).map some)
  let (new, p) ← new.storeAll p (val.map some)
  let behind := if stop < old.length then old.drop stop.toNat else []
  let (new, p) ← new.storeAll p (behind.map some)
  let new ← new.store p none
  return (new, p)

/-- `setarrvalue`; without a result something has been stored outside of an array. -/
def setarrvalue (opts : AssignOpts) (pm : ArrayParam) (v : AssignValue) (old val : List Bytes) :
    Option ArrayAssigned :=
  if !opts.exec then some .ignored
  else if pm.readonly then some (.failed s!"read-only variable: {pm.name}")
  else if pm.kind = .other then
    some (.failed s!"{pm.name}: attempt to assign array value to non-array")
  else if v.empty then some (.failed s!"{pm.name}: assignment to invalid subscript range")
  else if v.start = 0 ∧ v.stop = -1 then
    if pm.kind = .hashed then some (.hash val false) else some (.whole val)
  else if v.start = -1 ∧ v.stop = 0 ∧ pm.kind = .hashed then some (.hash val true)
  else if pm.kind = .hashed then
    some (.failed s!"{pm.name}: attempt to set slice of associative array")
  else
    let (start, stop) := assignBounds opts.kshArrays old.length v
    let post := postLength old.length start stop val.length
    if old.length = post ∧ pm.plainSet ∧ !pm.special ∧ !pm.unique ∧ !pm.tied then
      (assignInPlace old val start).map .inPlace
    else if (old.length : ℤ) < post ∧ old.length ≤ start ∧ 0 < old.length ∧ pm.plainSet then
      (assignBehind old val start post).map fun r ↦ .fresh r.1 r.2
    else (assignFresh old val start stop post).map fun r ↦ .fresh r.1 r.2

/-- The array of an ordinary parameter after an assignment, where there was one. -/
def ArrayAssigned.array : ArrayAssigned → Option (List Bytes)
  | whole val => some val
  | inPlace cells => stringsOf cells
  | fresh cells _ => stringsOf cells
  | _ => none

/-! ## The three ways -/

/-- The array with the elements from `s` up to `e` replaced by the values. -/
def replaced (a val : List Bytes) (s e : ℕ) : List Bytes :=
  a.take s ++ List.replicate (s - a.length) [] ++ val ++ a.drop e

variable {a val : List Bytes} {s e : ℕ}

theorem padded_eq (s : ℕ) (a : List Bytes) :
    padded s a = a.take s ++ List.replicate (s - a.length) [] := by
  induction s generalizing a with
  | zero => simp [padded]
  | succ s ih =>
    cases a with
    | nil =>
      rw [padded, ih, take_nil, take_nil, length_nil, Nat.sub_zero, Nat.sub_zero]
      rfl
    | cons q a =>
      rw [padded, ih, take_succ_cons, length_cons, Nat.add_sub_add_right]
      rfl

theorem replaced_length (h : s ≤ e) :
    ((replaced a val s e).length : ℤ) = postLength a.length s e val.length := by
  rw [replaced, postLength, length_append, length_append, length_append,
    length_take, List.length_replicate, length_drop]
  split <;> omega

theorem cellsOf_length (a : List Bytes) : (cellsOf a).length = a.length + 1 := by
  rw [cellsOf, length_append, length_map, length_singleton]

theorem cellsOf_append (a b : List Bytes) :
    cellsOf (a ++ b) = a.map (some <| some ·) ++ cellsOf b := by
  rw [cellsOf, cellsOf, map_append, append_assoc]

theorem size_eq (h : s ≤ e) :
    (postLength a.length s e val.length + 1).toNat = (replaced a val s e).length + 1 := by
  rw [← replaced_length h]
  exact Int.toNat_natCast_add_one

theorem replaced_strings (a val : List Bytes) (s e : ℕ) :
    (padded s a).map some ++ val.map some ++ (a.drop e).map some =
      (replaced a val s e).map some := by
  rw [padded_eq, replaced, ← map_append, ← map_append]

theorem assignFresh_eq (h : s ≤ e) :
    assignFresh a val s e (postLength a.length s e val.length) =
      some (cellsOf (replaced a val s e), (replaced a val s e).length) := by
  have hend : (if (e : ℤ) < a.length then a.drop (e : ℤ).toNat else []) = a.drop e := by
    split
    · rfl
    · next hnot => rw [drop_eq_nil_of_le (by omega)]
  have hlast := @Cells.storeAll_last _ ([] : ArrayCells)
    (Cells.fresh ((replaced a val s e).length + 1)) ((replaced a val s e).map some)
    (none : Option Bytes) (by simp [Cells.fresh])
  have hresult : ([] : ArrayCells) ++ ((replaced a val s e).map some).map some ++ [some none] =
      cellsOf (replaced a val s e) := by
    rw [map_map]
    rfl
  rw [hresult, length_map, length_nil, Nat.zero_add, ← replaced_strings,
    Cells.storeAll_storeAll, Cells.storeAll_storeAll, Option.bind_assoc, Option.bind_assoc] at hlast
  rw [assignFresh, size_eq h, hend]
  exact hlast

theorem assignBehind_eq (hs : a.length ≤ s) (h : s ≤ e) :
    assignBehind a val s (postLength a.length s e val.length) =
      some (cellsOf (replaced a val s e), (replaced a val s e).length) := by
  have hreplaced : replaced a val s e = a ++ (List.replicate (s - a.length) [] ++ val) := by
    rw [replaced, take_of_length_le hs, drop_eq_nil_of_le (hs.trans h), append_nil,
      append_assoc]
  have hsize : (replaced a val s e).length = a.length + (s - a.length + val.length) := by
    rw [hreplaced, length_append, length_append, List.length_replicate]
  have hpad : ((s : ℤ) - a.length).toNat = s - a.length := by omega
  have hmoved : (cellsOf a).take ((replaced a val s e).length + 1) ++
      Cells.fresh ((replaced a val s e).length + 1 - (cellsOf a).length) =
      a.map (some <| some ·) ++ ([some none] ++ Cells.fresh (s - a.length + val.length)) := by
    have hall : (cellsOf a).length ≤ (replaced a val s e).length + 1 := by
      rw [cellsOf_length]
      omega
    have hmore : (replaced a val s e).length + 1 - (cellsOf a).length =
        s - a.length + val.length := by
      rw [cellsOf_length]
      omega
    rw [take_of_length_le hall, hmore, cellsOf, append_assoc]
  have hlast := @Cells.storeAll_last _ (a.map (some <| some ·))
    ([some none] ++ Cells.fresh (s - a.length + val.length))
    (List.replicate (s - a.length) (some []) ++ val.map some) (none : Option Bytes)
    (by simp [Cells.fresh])
  have hstrings : List.replicate (s - a.length) (some []) ++ val.map some =
      (List.replicate (s - a.length) [] ++ val).map some := by
    rw [map_append, map_replicate]
  have hresult : a.map (some <| some ·) ++
      (List.replicate (s - a.length) (some []) ++ val.map some).map some ++ [some none] =
      cellsOf (replaced a val s e) := by
    rw [hreplaced, cellsOf_append, cellsOf, hstrings, map_map, append_assoc]
    rfl
  have hend : a.length + (List.replicate (s - a.length) (some []) ++ val.map some).length =
      (replaced a val s e).length := by
    rw [hsize, length_append, List.length_replicate, length_map]
  rw [hresult, length_map, hend, Cells.storeAll_storeAll, Option.bind_assoc] at hlast
  rw [assignBehind, size_eq h, hpad, hmoved]
  exact hlast

theorem assignInPlace_eq (hlength : (a.length : ℤ) = postLength a.length s e val.length) :
    assignInPlace a val s = some (cellsOf (replaced a val s e)) := by
  have hfit : s + val.length ≤ a.length := by
    rw [postLength] at hlength
    split at hlength <;> omega
  have hbehind : a.drop e = a.drop (s + val.length) := by
    by_cases he : e < a.length
    · rw [postLength, if_pos (by omega)] at hlength
      have hsame : e = s + val.length := by omega
      rw [hsame]
    · rw [postLength, if_neg (by omega)] at hlength
      rw [drop_eq_nil_of_le (by omega), drop_eq_nil_of_le (by omega)]
  have hfront : s - a.length = 0 := by omega
  have hstore := @Cells.storeAll_eq _ (cellsOf a) s (val.map some)
    (by rw [cellsOf_length, length_map]; omega)
  rw [assignInPlace, Int.toNat_natCast, hstore, Option.map_some, length_map, replaced, hbehind,
    hfront, replicate_zero, append_nil, cellsOf_append, cellsOf,
    take_append_of_le_length (by rw [length_map]; omega),
    drop_append_of_le_length (by rw [length_map]; omega), map_append, map_take,
    map_map, append_assoc, append_assoc, cellsOf, map_drop]
  rfl

/-! ## The bounds -/

theorem assignBounds_spec (ksh : Bool) (n : ℕ) (v : AssignValue) :
    0 ≤ (assignBounds ksh n v).1 ∧ (assignBounds ksh n v).1 ≤ (assignBounds ksh n v).2 := by
  by_cases hinv : (v.inv && !ksh) = true
  · simp only [assignBounds, if_pos hinv]
    constructor
    · split_ifs <;> omega
    · split_ifs <;> omega
  · simp only [assignBounds, if_neg hinv]
    constructor
    · split_ifs <;> omega
    · split_ifs <;> omega

/-- The elements that an assignment replaces: with 0 and -1 all of them. -/
def sliceBounds (ksh : Bool) (n : ℕ) (v : AssignValue) : ℕ × ℕ :=
  if v.start = 0 ∧ v.stop = -1 then (0, n)
  else ((assignBounds ksh n v).1.toNat, (assignBounds ksh n v).2.toNat)

theorem getarrvalue_replaced (a val : List Bytes) (s e : ℕ) (com empty : Bool) :
    getarrvalue (replaced a val s e) ⟨s, s + val.length, com, empty⟩ = val := by
  have hfront : (a.take s ++ List.replicate (s - a.length) []).length = s := by
    rw [length_append, length_take, List.length_replicate]
    omega
  have hdrop : (replaced a val s e).drop s = val ++ a.drop e := by
    rw [replaced, append_assoc, drop_left' hfront]
  have hlength : s + val.length ≤ (replaced a val s e).length := by
    rw [replaced, append_assoc, length_append, hfront, length_append]
    omega
  have hnotWhole : ¬ ((s : ℤ) = 0 ∧ (s : ℤ) + val.length = -1) := by omega
  have hstart : (if (s : ℤ) < 0 then (s : ℤ) + (replaced a val s e).length else s) = s :=
    if_neg (by omega)
  have hstop : (if (s : ℤ) + val.length < 0 then
      (s : ℤ) + val.length + ((replaced a val s e).length + 1) else s + val.length) =
      s + val.length := if_neg (by omega)
  simp only [getarrvalue, if_neg hnotWhole, hstart, hstop]
  by_cases hval : val.length = 0
  · rw [if_pos (by omega), List.length_eq_zero_iff.mp hval]
    rfl
  · have hcount : ((s : ℤ) + val.length - s).toNat = val.length := by omega
    rw [if_neg (by omega), if_neg (by omega), if_neg (by omega), arrdupMax, Int.toNat_natCast, hdrop,
      hcount, take_left]

/-! ## The assignment -/

end Bsh.Shell
