import Bsh.Library.Memory
import Bsh.Shell.SubscriptScalar

/-!
# Arrays from subscripts and values

`assignaparam` for a list that mixes plain values with `[i]=v` and `[i]+=v`, on an ordinary parameter
that is named without a subscript.  A first pass finds the length of the new array, and a second one
stores the values.  Subscripts are 64-bit integers, and the running position and the length are
`int`.

A run that stores or reads outside of the vector, or asks for a vector of a negative size, gives
`none`.
-/

namespace Bsh.Shell

open Bsh.Library List

/-- A string on the heap. -/
abbrev HeapString := Item Bytes

/-- What `prefork` makes of an element: a value, or a marker, a key and a value.  The number is what
`mathevali` makes of the key. -/
inductive ArrayEntry where
  | value (v : HeapString)
  | indexed (marker key : HeapString) (augment : Bool) (index : ℤ) (v : HeapString)

def ArrayEntry.strings : ArrayEntry → List HeapString
  | value v => [v]
  | indexed marker key _ _ v => [marker, key, v]

inductive ParamValue where
  | unset
  | scalar (s : HeapString)
  | array (xs : List HeapString)

def ParamValue.strings : ParamValue → List HeapString
  | unset => []
  | scalar s => [s]
  | array xs => xs

/-! ## The passes -/

/-- A subscript that is reported. -/
def badSubscript (kshArrays : Bool) (index : ℤ) : Bool :=
  index < 0 || (!kshArrays && index == 0)

def subscriptPosition (kshArrays : Bool) (index : ℤ) : ℤ := if kshArrays then index else index - 1

/-- The first pass, from `nextind` and `maxlen` on: the positions and the length, or the key that is
reported. -/
def sizePass (kshArrays : Bool) :
    List ArrayEntry → ℤ → ℤ → Except HeapString (List ℤ × ℤ)
  | [], _, maxlen => .ok ([], maxlen)
  | .value _ :: val, nextind, maxlen =>
    let nextind := toInt (nextind + 1)
    sizePass kshArrays val nextind (max maxlen nextind)
  | .indexed _ key _ index _ :: val, _, maxlen =>
    if badSubscript kshArrays index then .error key
    else
      let subscript := subscriptPosition kshArrays index
      let nextind := toInt (subscript + 1)
      (sizePass kshArrays val nextind (max maxlen nextind)).map fun r ↦ (subscript :: r.1, r.2)

/-- `fullval[i]`. -/
def cellAt (fullval : List (Option HeapString)) (i : ℤ) : Option (Option HeapString) :=
  if 0 ≤ i then fullval[i.toNat]? else none

/-- The second pass, from `nextind` on. -/
def storePass : List ArrayEntry → List ℤ → ℤ → List (Option HeapString) → Pool Bytes →
    Option (List (Option HeapString) × Pool Bytes)
  | [], _, _, fullval, pool => some (fullval, pool)
  | .value v :: val, subscripts, nextind, fullval, pool => do
    let old ← cellAt fullval nextind
    storePass val subscripts (toInt (nextind + 1)) (fullval.set nextind.toNat (some v))
      (pool.free old.toList)
  | .indexed marker key augment _ v :: val, i :: subscripts, _, fullval, pool => do
    let pool := pool.free [marker, key]
    let old ← cellAt fullval i
    match augment, old with
    | true, some old =>
      let (joined, pool) := pool.alloc (old.val ++ v.val)
      storePass val subscripts (toInt (i + 1)) (fullval.set i.toNat (some joined))
        (pool.free [v, old])
    | _, old =>
      storePass val subscripts (toInt (i + 1)) (fullval.set i.toNat (some v))
        (pool.free old.toList)
  | .indexed .. :: _, [], _, _, _ => none

/-- The empty strings for the positions that nothing is stored at. -/
def fillEmpty : List (Option HeapString) → Pool Bytes → List HeapString × Pool Bytes
  | [], pool => ([], pool)
  | some s :: fullval, pool =>
    let (l, pool) := fillEmpty fullval pool
    (s :: l, pool)
  | none :: fullval, pool =>
    let (s, pool) := pool.alloc []
    let (l, pool) := fillEmpty fullval pool
    (s :: l, pool)

/-! ## The function -/

structure AssignOutcome where
  error : Bool
  param : ParamValue
  pool : Pool Bytes

/-- The list and the array after a parameter that is no array has become one. -/
def resetArray (augment : Bool) (val : List ArrayEntry) (param : ParamValue) (pool : Pool Bytes) :
    List ArrayEntry × List HeapString × Pool Bytes :=
  match param with
  | .unset => (val, [], pool)
  | .scalar s =>
    if augment then
      let (old, pool) := pool.alloc s.val
      (.value old :: val, [], pool.free [s])
    else (val, [], pool.free [s])
  | .array xs => (val, xs, pool)

/-- The new array; the old one is released when it is set. -/
def buildArray (val : List ArrayEntry) (orig xs : List HeapString) (subscripts : List ℤ)
    (maxlen : ℤ) (pool : Pool Bytes) : Option AssignOutcome :=
  if toInt (maxlen + 1) < 0 then none
  else
    let (copies, pool) := pool.allocAll (orig.map Item.val)
    let fullval := copies.map some ++ List.replicate (maxlen.toNat + 1 - orig.length) none
    (storePass val subscripts 0 fullval pool).map fun (fullval, pool) ↦
      let (new, pool) := fillEmpty (fullval.take maxlen.toNat) pool
      ⟨false, .array new, pool.free xs⟩

def assignaparam (kshArrays augment : Bool) (val : List ArrayEntry) (param : ParamValue)
    (pool : Pool Bytes) : Option AssignOutcome :=
  let (val, xs, pool) := resetArray augment val param pool
  let orig := if augment then xs else []
  match sizePass kshArrays val 0 orig.length with
  | .error _ => some ⟨true, .array xs, pool.free (val.flatMap ArrayEntry.strings)⟩
  | .ok (subscripts, maxlen) => buildArray val orig xs subscripts maxlen pool

/-! ## What is expected -/

/-- A list with a value at a position; the positions up to it that were not there are empty. -/
def setAt (l : List Bytes) (i : ℕ) (v : Bytes) : List Bytes :=
  (l ++ List.replicate (i + 1 - l.length) []).set i v

/-- An entry applied to a list, at the position behind that of the last one. -/
def applyEntry (kshArrays : Bool) (s : List Bytes × ℕ) : ArrayEntry → List Bytes × ℕ
  | .value v => (setAt s.1 s.2 v.val, s.2 + 1)
  | .indexed _ _ augment index v =>
    let i := (subscriptPosition kshArrays index).toNat
    (setAt s.1 i (if augment then s.1.getD i [] ++ v.val else v.val), i + 1)

def applyEntries (kshArrays : Bool) (s : List Bytes × ℕ) (val : List ArrayEntry) :
    List Bytes × ℕ :=
  val.foldl (applyEntry kshArrays) s

/-- The list that the entries are applied to; a scalar that is augmented is the first entry. -/
def entriesStart (augment : Bool) : ParamValue → List Bytes × ℕ
  | .unset => ([], 0)
  | .scalar s => if augment then ([s.val], 1) else ([], 0)
  | .array xs => if augment then (xs.map Item.val, 0) else ([], 0)

/-! ## The first pass -/

def ArrayEntry.bad (kshArrays : Bool) : ArrayEntry → Bool
  | value _ => false
  | indexed _ _ _ index _ => badSubscript kshArrays index

/-- The positions of the entries that have one. -/
def positions (kshArrays : Bool) : List ArrayEntry → List ℤ
  | [] => []
  | .value _ :: val => positions kshArrays val
  | .indexed _ _ _ index _ :: val => subscriptPosition kshArrays index :: positions kshArrays val

variable {cells : List (Option HeapString)} {i : ℕ} {kshArrays : Bool} {live : List HeapString}
  {start : Pool Bytes} {val : List ArrayEntry}

theorem subscriptPosition_nonneg {index : ℤ}
    (h : badSubscript kshArrays index = false) : 0 ≤ subscriptPosition kshArrays index := by
  unfold badSubscript at h
  unfold subscriptPosition
  cases kshArrays <;> simp at h ⊢ <;> omega

theorem sizePass_indexed {index : ℤ}
    (h : badSubscript kshArrays index = false) (marker key : HeapString) (augment : Bool)
    (v : HeapString) (val : List ArrayEntry) (nextind maxlen : ℤ) :
    sizePass kshArrays (.indexed marker key augment index v :: val) nextind maxlen =
      (sizePass kshArrays val (toInt (subscriptPosition kshArrays index + 1))
        (max maxlen (toInt (subscriptPosition kshArrays index + 1)))).map fun r ↦
          (subscriptPosition kshArrays index :: r.1, r.2) :=
  if_neg (by rw [h]; exact Bool.false_ne_true)

theorem sizePass_bad
    (h : val.any (ArrayEntry.bad kshArrays) = true) (nextind maxlen : ℤ) :
    ∃ key, sizePass kshArrays val nextind maxlen = .error key := by
  induction val generalizing nextind maxlen with
  | nil => exact nomatch h
  | cons entry val ih =>
    rw [any_cons, Bool.or_eq_true] at h
    cases entry with
    | value v => exact ih (h.resolve_left nofun) _ _
    | indexed marker key augment index v =>
      by_cases hbad : badSubscript kshArrays index = true
      · exact ⟨key, if_pos hbad⟩
      · obtain ⟨key', hkey⟩ := ih (h.resolve_left hbad)
          (toInt _)
          _
        refine ⟨key', ?_⟩
        rw [sizePass_indexed (Bool.eq_false_iff.mpr hbad), hkey]
        rfl

/-- `INT_MAX`. -/
def intTop : ℤ := 2 ^ 31 - 1

theorem toInt_le (n : ℤ) : toInt n ≤ intTop := by
  unfold toInt Int.bmod intTop
  norm_num
  split <;> omega

theorem toInt_same {n : ℤ} (h : 0 ≤ n) (h' : n ≤ intTop) : toInt n = n := by
  unfold intTop at h'
  exact toInt_eq ⟨by omega, by omega⟩

theorem toInt_behind_top : toInt (intTop + 1) < 0 := by
  decide

/-- The positions are those of the entries, whatever becomes of the length. -/
theorem sizePass_ok
    (h : val.any (ArrayEntry.bad kshArrays) = false) (nextind : ℤ) {maxlen : ℤ}
    (hmaxlen : maxlen ≤ intTop) :
    ∃ length, sizePass kshArrays val nextind maxlen = .ok (positions kshArrays val, length) ∧
      maxlen ≤ length ∧ length ≤ intTop := by
  induction val generalizing nextind maxlen with
  | nil => exact ⟨maxlen, rfl, le_refl _, hmaxlen⟩
  | cons entry val ih =>
    rw [any_cons, Bool.or_eq_false_iff] at h
    cases entry with
    | value v =>
      obtain ⟨length, hsize, hle, htop⟩ := ih h.2 _
        (max_le hmaxlen (toInt_le (nextind + 1)))
      exact ⟨length, hsize, (le_max_left _ _).trans hle, htop⟩
    | indexed marker key augment index v =>
      obtain ⟨length, hsize, hle, htop⟩ := ih h.2
        (toInt _)
        (max_le hmaxlen (toInt_le _))
      refine ⟨length, ?_, (le_max_left _ _).trans hle, htop⟩
      rw [sizePass_indexed h.1, hsize]
      rfl

/-! ## Lists that grow -/

theorem length_setAt (l : List Bytes) (i : ℕ) (v : Bytes) :
    (setAt l i v).length = max l.length (i + 1) := by
  rw [setAt, length_set, length_append, List.length_replicate]
  omega

/-- The length behind an entry is that of the list, or the position behind the entry. -/
theorem length_applyEntry (kshArrays : Bool) (s : List Bytes × ℕ) (entry : ArrayEntry) :
    (applyEntry kshArrays s entry).1.length =
      max s.1.length (applyEntry kshArrays s entry).2 := by
  cases entry with
  | value v => exact length_setAt _ _ _
  | indexed marker key augment index v => exact length_setAt _ _ _

theorem length_le_applyEntries (kshArrays : Bool) (s : List Bytes × ℕ) (val : List ArrayEntry) :
    s.1.length ≤ (applyEntries kshArrays s val).1.length := by
  induction val generalizing s with
  | nil => exact Nat.le_refl _
  | cons entry val ih =>
    calc s.1.length ≤ (applyEntry kshArrays s entry).1.length := by
          rw [length_applyEntry]
          exact Nat.le_max_left _ _
      _ ≤ _ := ih _

/-- The first pass finds the length as long as it is an `int`. -/
theorem sizePass_fits
    (h : val.any (ArrayEntry.bad kshArrays) = false) (s : List Bytes × ℕ)
    (hfits : ((applyEntries kshArrays s val).1.length : ℤ) ≤ intTop) :
    sizePass kshArrays val s.2 s.1.length =
      .ok (positions kshArrays val, ((applyEntries kshArrays s val).1.length : ℤ)) := by
  induction val generalizing s with
  | nil => rfl
  | cons entry val ih =>
    rw [any_cons, Bool.or_eq_false_iff] at h
    have hnext := ih h.2 _ hfits
    have hlength := length_applyEntry kshArrays s entry
    have hle := length_le_applyEntries kshArrays (applyEntry kshArrays s entry) val
    have hsmall : ((applyEntry kshArrays s entry).2 : ℤ) ≤ intTop := by
      have hbound : ((applyEntries kshArrays (applyEntry kshArrays s entry) val).1.length : ℤ) ≤
          intTop := hfits
      omega
    have hmax : max (s.1.length : ℤ) (applyEntry kshArrays s entry).2 =
        (applyEntry kshArrays s entry).1.length := by
      rw [hlength]
      push_cast
      rfl
    cases entry with
    | value v =>
      have hcast : toInt ((s.2 : ℤ) + 1) = (applyEntry kshArrays s (.value v)).2 :=
        toInt_same (by omega) (by exact_mod_cast hsmall)
      rw [sizePass, hcast, hmax]
      exact hnext
    | indexed marker key augment index v =>
      have hpos := subscriptPosition_nonneg h.1
      have hcast : toInt (subscriptPosition kshArrays index + 1) =
          (applyEntry kshArrays s (.indexed marker key augment index v)).2 := by
        have hnat : (((subscriptPosition kshArrays index).toNat + 1 : ℕ) : ℤ) =
            subscriptPosition kshArrays index + 1 := by
          push_cast
          rw [Int.toNat_of_nonneg hpos]
        change _ = (((subscriptPosition kshArrays index).toNat + 1 : ℕ) : ℤ)
        change (((subscriptPosition kshArrays index).toNat + 1 : ℕ) : ℤ) ≤ _ at hsmall
        rw [hnat] at hsmall ⊢
        exact toInt_same (by omega) hsmall
      rw [sizePass_indexed h.1, hcast, hmax, hnext]
      rfl

/-- A length that is no `int`, or the largest, is not found: the length is the largest `int`, or some
position lies behind it. -/
theorem sizePass_long
    (h : val.any (ArrayEntry.bad kshArrays) = false) (s : List Bytes × ℕ)
    (hstart : (s.1.length : ℤ) < intTop) (hnext : (s.2 : ℤ) < intTop)
    (hlong : intTop ≤ ((applyEntries kshArrays s val).1.length : ℤ)) :
    ∃ length, sizePass kshArrays val s.2 s.1.length = .ok (positions kshArrays val, length) ∧
      (length = intTop ∨ ∃ i ∈ positions kshArrays val, length < i) := by
  induction val generalizing s with
  | nil => exact absurd hlong (not_le.mpr hstart)
  | cons entry val ih =>
    rw [any_cons, Bool.or_eq_false_iff] at h
    have hlength := length_applyEntry kshArrays s entry
    have hstart' : (s.1.length : ℤ) ≤ intTop := hstart.le
    cases entry with
    | value v =>
      have hsecond : (applyEntry kshArrays s (.value v)).2 = s.2 + 1 := rfl
      have hcast : toInt ((s.2 : ℤ) + 1) = ((s.2 + 1 : ℕ) : ℤ) := by
        exact toInt_same (by omega) (by omega)
      have hmax : max (s.1.length : ℤ) ((s.2 + 1 : ℕ) : ℤ) =
          (applyEntry kshArrays s (.value v)).1.length := by
        rw [hlength, hsecond]
        push_cast
        rfl
      by_cases hstep : ((s.2 + 1 : ℕ) : ℤ) < intTop
      · obtain ⟨length, hsize, hcase⟩ := ih h.2 _
          (by omega) (by exact hstep) hlong
        refine ⟨length, ?_, hcase⟩
        rw [sizePass, hcast, hmax]
        exact hsize
      · obtain ⟨length, hsize, hle, htop⟩ := sizePass_ok h.2 _
          (max_le hstart' (toInt_le ((s.2 : ℤ) + 1)))
        have hreach : toInt ((s.2 : ℤ) + 1) ≤ length := (le_max_right _ _).trans hle
        rw [hcast] at hreach
        refine ⟨length, ?_, .inl (le_antisymm htop ((not_lt.mp hstep).trans hreach))⟩
        rw [sizePass]
        exact hsize
    | indexed marker key augment index v =>
      have hpos := subscriptPosition_nonneg h.1
      have hsecond : (applyEntry kshArrays s (.indexed marker key augment index v)).2 =
          (subscriptPosition kshArrays index).toNat + 1 := rfl
      rw [sizePass_indexed h.1]
      by_cases hstep : subscriptPosition kshArrays index + 1 < intTop
      · have hcast : toInt (subscriptPosition kshArrays index + 1) =
            (applyEntry kshArrays s (.indexed marker key augment index v)).2 := by
          rw [hsecond, toInt_same (by omega) (by omega)]
          omega
        have hmax : max (s.1.length : ℤ)
            (applyEntry kshArrays s (.indexed marker key augment index v)).2 =
            (applyEntry kshArrays s (.indexed marker key augment index v)).1.length := by
          rw [hlength]
          push_cast
          rfl
        obtain ⟨length, hsize, hcase⟩ := ih h.2
          _
          (by omega) (by omega) hlong
        refine ⟨length, ?_, hcase.imp id ?_⟩
        · rw [hcast, hmax, hsize]
          rfl
        · rintro ⟨i, hi, hlt⟩
          exact ⟨i, mem_cons_of_mem _ hi, hlt⟩
      · obtain ⟨length, hsize, hle, htop⟩ := sizePass_ok h.2
          (toInt _)
          (max_le hstart' (toInt_le _))
        refine ⟨length, by rw [hsize]; rfl, ?_⟩
        by_cases hlast : subscriptPosition kshArrays index + 1 = intTop
        · left
          rw [hlast, toInt_same (by omega) (by omega)] at hle
          exact le_antisymm htop ((le_max_right _ _).trans hle)
        · by_cases hmost : length = intTop
          · exact .inl hmost
          · exact .inr ⟨_, mem_cons_self, by omega⟩

/-! ## The second pass -/

/-- What is in a cell; nothing counts as the empty string. -/
def cellText (cell : Option HeapString) : Bytes := (cell.map Item.val).getD []

/-- The cells hold a list, with empty positions behind it. -/
def HoldsList (cells : List (Option HeapString)) (l : List Bytes) : Prop :=
  l.length ≤ cells.length ∧
    cells.map cellText = l ++ List.replicate (cells.length - l.length) []

theorem HoldsList.getD {l : List Bytes} (h : HoldsList cells l) {old : Option HeapString} (hold : cells[i]? = some old) : l.getD i [] = cellText old := by
  have hmap : (cells.map cellText)[i]? = some (cellText old) := by
    rw [List.getElem?_map, hold]
    rfl
  rw [h.2] at hmap
  rw [getD_eq_getElem?_getD]
  rcases Nat.lt_or_ge i l.length with hlt | hge
  · rw [List.getElem?_append_left hlt] at hmap
    rw [hmap]
    rfl
  · rw [List.getElem?_append_right hge, List.getElem?_replicate] at hmap
    rw [List.getElem?_eq_none hge]
    split at hmap
    · exact Option.some_inj.mp hmap
    · exact nomatch hmap

theorem HoldsList.set {l : List Bytes} (h : HoldsList cells l) (hi : i < cells.length) (v : HeapString) :
    HoldsList (cells.set i (some v)) (setAt l i v.val) := by
  constructor
  · rw [length_setAt, length_set]
    exact max_le h.1 hi
  · have hsplit : l ++ List.replicate (cells.length - l.length) [] =
        l ++ List.replicate (i + 1 - l.length) [] ++
          List.replicate (cells.length - max l.length (i + 1)) [] := by
      rw [append_assoc, replicate_append_replicate]
      congr 2
      omega
    have hinside : i < (l ++ List.replicate (i + 1 - l.length) ([] : Bytes)).length := by
      rw [length_append, List.length_replicate]
      omega
    rw [map_set, h.2, hsplit, set_append_left _ _ hinside, length_setAt,
      length_set]
    rfl

theorem storePass_outside
    {fullval : List (Option HeapString)} {i : ℤ} (hi : i ∈ positions kshArrays val)
    (houtside : (fullval.length : ℤ) ≤ i) (nextind : ℤ) (pool : Pool Bytes) :
    storePass val (positions kshArrays val) nextind fullval pool = none := by
  induction val generalizing nextind fullval pool with
  | nil => exact nomatch hi
  | cons entry val ih =>
    cases entry with
    | value v =>
      rw [positions, storePass]
      cases cellAt fullval nextind with
      | none => rfl
      | some old => exact ih hi (by rwa [length_set]) _ _
    | indexed marker key augment index v =>
      rw [positions, storePass]
      rw [positions, mem_cons] at hi
      cases hcell : cellAt fullval _ with
      | none => rfl
      | some old =>
        have hrest : i ∈ positions kshArrays val := by
          apply hi.resolve_left
          rintro rfl
          unfold cellAt at hcell
          split at hcell
          · rw [List.getElem?_eq_none (by omega)] at hcell
            exact nomatch hcell
          · exact nomatch hcell
        cases augment with
        | false => exact ih hrest (by rwa [length_set]) _ _
        | true =>
          cases old with
          | none => exact ih hrest (by rwa [length_set]) _ _
          | some old => exact ih hrest (by rwa [length_set]) _ _

theorem cellAt_append {old : Option HeapString}
    (hold : cells[i]? = some old) : cellAt (cells ++ [none]) i = some old := by
  obtain ⟨hlt, -⟩ := List.getElem?_eq_some_iff.mp hold
  rw [cellAt, if_pos (Int.natCast_nonneg i), Int.toNat_natCast, List.getElem?_append_left hlt, hold]

/-- The second pass stores the list that the entries make, and loses no string. -/
theorem storePass_fits
    (h : val.any (ArrayEntry.bad kshArrays) = false) (s : List Bytes × ℕ) (hcells : HoldsList cells s.1)
    (hfits : (applyEntries kshArrays s val).1.length ≤ cells.length)
    (htop : (cells.length : ℤ) ≤ intTop) {pool : Pool Bytes} {rest : List HeapString}
    (hbalanced : start.Balanced live pool
      (cells.reduceOption ++ (val.flatMap ArrayEntry.strings ++ rest))) :
    ∃ cells' pool', storePass val (positions kshArrays val) s.2 (cells ++ [none]) pool =
        some (cells' ++ [none], pool') ∧ cells'.length = cells.length ∧
      HoldsList cells' (applyEntries kshArrays s val).1 ∧
      start.Balanced live pool' (cells'.reduceOption ++ rest) := by
  induction val generalizing s cells pool with
  | nil => exact ⟨cells, pool, rfl, rfl, hcells, hbalanced⟩
  | cons entry val ih =>
    rw [any_cons, Bool.or_eq_false_iff] at h
    have hlength := length_applyEntry kshArrays s entry
    have hle := length_le_applyEntries kshArrays (applyEntry kshArrays s entry) val
    have hstep : (applyEntry kshArrays s entry).2 ≤ cells.length := by
      have hbound : (applyEntries kshArrays (applyEntry kshArrays s entry) val).1.length ≤
        cells.length := hfits
      omega
    -- What holds behind the entry, once its item is in its cell.
    have hnext {i : ℕ} {item : HeapString} {pool : Pool Bytes} (hi : i < cells.length)
        (hset : applyEntry kshArrays s entry = (setAt s.1 i item.val, i + 1))
        (hstored : start.Balanced live pool ((cells.set i (some item)).reduceOption ++
          (val.flatMap ArrayEntry.strings ++ rest))) :
        ∃ cells' pool', storePass val (positions kshArrays val) (toInt ((i : ℤ) + 1))
            ((cells ++ [none]).set i (some item)) pool = some (cells' ++ [none], pool') ∧
          cells'.length = cells.length ∧
          HoldsList cells' (applyEntries kshArrays s (entry :: val)).1 ∧
          start.Balanced live pool' (cells'.reduceOption ++ rest) := by
      have hcast : toInt ((i : ℤ) + 1) = ((i + 1 : ℕ) : ℤ) := by
        exact toInt_same (by omega) (by omega)
      have hheld : HoldsList (cells.set i (some item)) (applyEntry kshArrays s entry).1 := by
        rw [hset]
        exact hcells.set hi item
      obtain ⟨cells', pool', hstore, hlen, hlist, hbal⟩ := ih h.2 _
        hheld (by rw [length_set]; exact hfits) (by rw [length_set]; exact htop) hstored
      refine ⟨cells', pool', ?_, by rw [hlen, length_set], hlist, hbal⟩
      rw [hset] at hstore
      rw [set_append_left _ _ hi, hcast]
      exact hstore
    cases entry with
    | value v =>
      have hi : s.2 < cells.length := hstep
      have hold := List.getElem?_eq_getElem hi
      rw [positions, storePass, cellAt_append hold, Option.bind_eq_bind, Option.bind_some,
        Int.toNat_natCast]
      exact hnext hi rfl (hbalanced.store hold)
    | indexed marker key augment index v =>
      have hpos := subscriptPosition_nonneg h.1
      obtain ⟨i, hindex⟩ := Int.eq_ofNat_of_zero_le hpos
      have hi : i < cells.length := by
        have hsecond : (applyEntry kshArrays s (.indexed marker key augment index v)).2 =
            (subscriptPosition kshArrays index).toNat + 1 := rfl
        rw [hsecond, hindex, Int.toNat_natCast] at hstep
        exact hstep
      have hold := List.getElem?_eq_getElem hi
      have htext := hcells.getD hold
      have hfreed : start.Balanced live (pool.free [marker, key])
          (cells.reduceOption ++ v :: (val.flatMap ArrayEntry.strings ++ rest)) := by
        apply Pool.Balanced.free
        apply hbalanced.perm
        exact perm_append_comm_assoc [marker, key] cells.reduceOption
          _
      rw [positions, storePass, hindex, cellAt_append hold, Option.bind_eq_bind, Option.bind_some,
        Int.toNat_natCast]
      -- A value that is stored as it is.
      have hplain (hset : applyEntry kshArrays s _ =
          (setAt s.1 i v.val, i + 1)) :=
        hnext hi hset (hfreed.store hold)
      cases augment with
      | false =>
        apply hplain
        rw [applyEntry, hindex]
        rfl
      | true =>
        generalize hcell : cells[i] = old at *
        cases old with
        | none =>
          apply hplain
          rw [applyEntry, hindex, if_pos rfl, Int.toNat_natCast, htext]
          rfl
        | some old =>
          have hset : applyEntry kshArrays s (.indexed marker key true index v) =
              (setAt s.1 i (old.val ++ v.val), i + 1) := by
            rw [applyEntry, hindex, if_pos rfl, Int.toNat_natCast, htext]
            rfl
          have hjoined := hfreed.alloc (old.val ++ v.val)
          have hmoved : start.Balanced live ((pool.free [marker, key]).alloc (old.val ++ v.val)).2
              ([v] ++ (cells.reduceOption ++
                ((pool.free [marker, key]).alloc (old.val ++ v.val)).1 ::
                  (val.flatMap ArrayEntry.strings ++ rest))) := by
            apply hjoined.perm
            generalize ((pool.free [marker, key]).alloc (old.val ++ v.val)).1 = joined
            generalize val.flatMap ArrayEntry.strings ++ rest = more
            calc (v :: (cells.reduceOption ++ joined :: more)).Perm
                  (v :: joined :: (cells.reduceOption ++ more)) := List.perm_middle.cons v
              _ |>.Perm (joined :: v :: (cells.reduceOption ++ more)) := List.Perm.swap _ _ _
              _ |>.Perm (joined :: (cells.reduceOption ++ v :: more)) :=
                List.perm_middle.symm.cons joined
          have hstored := hmoved.free.store hold
          rw [Pool.free_free] at hstored
          exact hnext hi hset hstored

/-! ## The new array -/

theorem fillEmpty_val (cells : List (Option HeapString)) (pool : Pool Bytes) :
    (fillEmpty cells pool).1.map Item.val = cells.map cellText := by
  induction cells generalizing pool with
  | nil => rfl
  | cons cell cells ih =>
    cases cell with
    | some s => exact congrArg (s.val :: ·) (ih pool)
    | none => exact congrArg ([] :: ·) (ih _)

theorem fillEmpty_balanced {pool : Pool Bytes}
    {rest : List HeapString} (h : start.Balanced live pool (cells.reduceOption ++ rest)) :
    start.Balanced live (fillEmpty cells pool).2 ((fillEmpty cells pool).1 ++ rest) := by
  induction cells generalizing pool rest with
  | nil => exact h
  | cons cell cells ih =>
    cases cell with
    | some s =>
      have hrest : start.Balanced live pool (cells.reduceOption ++ s :: rest) :=
        h.perm perm_middle
      exact (ih hrest).perm List.perm_middle.symm
    | none =>
      have hrest : start.Balanced live (pool.alloc []).2
          (cells.reduceOption ++ (pool.alloc []).1 :: rest) :=
        (h.alloc []).perm perm_middle
      exact (ih hrest).perm List.perm_middle.symm

theorem buildArray_fits
    (h : val.any (ArrayEntry.bad kshArrays) = false) {orig xs : List HeapString}
    {length : ℕ}
    (hlength : (applyEntries kshArrays (orig.map Item.val, 0) val).1.length = length)
    (htop : (length : ℤ) < intTop) {pool : Pool Bytes}
    (hbalanced : start.Balanced live pool (xs ++ val.flatMap ArrayEntry.strings)) :
    ∃ new pool', buildArray val orig xs (positions kshArrays val) length pool =
        some ⟨false, .array new, pool'⟩ ∧
      new.map Item.val = (applyEntries kshArrays (orig.map Item.val, 0) val).1 ∧
      start.Balanced live pool' new := by
  have horig : orig.length ≤ length := by
    have hle := length_le_applyEntries kshArrays (orig.map Item.val, 0) val
    rwa [hlength, length_map] at hle
  set copied := pool.allocAll (orig.map Item.val) with hcopied
  have hcopies : copied.1.map Item.val = orig.map Item.val := pool.allocAll_val _
  have hcount : copied.1.length = orig.length := by
    simpa using congrArg List.length hcopies
  set cells := copied.1.map some ++ List.replicate (length - orig.length) none with hcells
  have hcellslength : cells.length = length := by
    rw [hcells, length_append, length_map, List.length_replicate, hcount]
    omega
  have hheld : HoldsList cells (orig.map Item.val) := by
    constructor
    · rw [length_map, hcellslength]
      exact horig
    · rw [length_map, hcellslength, hcells, map_append, map_map,
        map_replicate, ← hcopies]
      rfl
  have hlive : start.Balanced live copied.2
      (cells.reduceOption ++ (val.flatMap ArrayEntry.strings ++ xs)) := by
    have hreduce : cells.reduceOption = copied.1 := by
      rw [hcells, reduceOption_append, reduceOption_replicate_none, append_nil]
      simp [List.reduceOption]
    rw [hreduce]
    exact (hbalanced.allocAll _).perm (List.perm_append_comm.append_left _)
  have hfull : copied.1.map some ++ List.replicate ((length : ℤ).toNat + 1 - orig.length) none =
      cells ++ [none] := by
    rw [hcells, Int.toNat_natCast, append_assoc, ← replicate_succ']
    congr 2
    omega
  obtain ⟨cells', pool', hstore, hlen, hlist, hbal⟩ := storePass_fits h _ hheld
    (by rw [hcellslength]; exact hlength.le) (by rw [hcellslength]; exact htop.le) hlive
  refine ⟨(fillEmpty cells' pool').1, (fillEmpty cells' pool').2.free xs, ?_, ?_, ?_⟩
  · have hsize : ¬ toInt ((length : ℤ) + 1) < 0 := by
      rw [toInt_same (by omega) (by omega)]
      omega
    have htake : (cells' ++ [none]).take (length : ℤ).toNat = cells' := by
      apply take_left'
      rw [hlen, hcellslength, Int.toNat_natCast]
    rw [buildArray, if_neg hsize]
    dsimp only
    rw [← hcopied, hfull]
    change Option.map _ (storePass val (positions kshArrays val) ((0 : ℕ) : ℤ) (cells ++ [none])
      copied.2) = _
    rw [hstore, Option.map_some]
    rw [htake]
  · rw [fillEmpty_val, hlist.2, hlen, hcellslength, hlength, Nat.sub_self, replicate_zero,
      append_nil]
  · apply Pool.Balanced.free
    exact (fillEmpty_balanced hbal).perm perm_append_comm

/-- A length that does not fit ends without an array. -/
theorem buildArray_long {orig xs : List HeapString}
    {length : ℤ} (horig : orig.length ≤ length)
    (hlong : length = intTop ∨ ∃ i ∈ positions kshArrays val, length < i) (pool : Pool Bytes) :
    buildArray val orig xs (positions kshArrays val) length pool = none := by
  unfold buildArray
  split
  · rfl
  · next hsize =>
    rcases hlong with rfl | ⟨i, hi, hlt⟩
    · exact absurd toInt_behind_top hsize
    · have hcount : (pool.allocAll (orig.map Item.val)).1.length = orig.length := by
        simpa using congrArg List.length (pool.allocAll_val (orig.map Item.val))
      dsimp only
      rw [storePass_outside hi]
      · rfl
      · rw [length_append, length_map, List.length_replicate, hcount]
        omega

/-! ## The whole assignment -/

/-- An error leaves the parameter as it was; otherwise it is the array that the entries make.  In
both cases every string is released once, or belongs to the parameter. -/
def Assigned (kshArrays augment : Bool) (val : List ArrayEntry) (param : ParamValue)
    (pool : Pool Bytes) (out : AssignOutcome) : Prop :=
  if out.error then
    out.param = param ∧
      pool.Balanced (param.strings ++ val.flatMap ArrayEntry.strings) out.pool param.strings
  else
    ∃ new, out.param = .array new ∧
      new.map Item.val = (applyEntries kshArrays (entriesStart augment param) val).1 ∧
      pool.Balanced (param.strings ++ val.flatMap ArrayEntry.strings) out.pool new

/-- A parameter that has become an array, and the list that is stored in it. -/
structure IsReset (kshArrays augment : Bool) (val : List ArrayEntry) (param : ParamValue)
    (pool : Pool Bytes) (r : List ArrayEntry × List HeapString × Pool Bytes) : Prop where
  bad : r.1.any (ArrayEntry.bad kshArrays) = val.any (ArrayEntry.bad kshArrays)
  entries : applyEntries kshArrays ((if augment then r.2.1 else []).map Item.val, 0) r.1 =
    applyEntries kshArrays (entriesStart augment param) val
  balanced : pool.Balanced (param.strings ++ val.flatMap ArrayEntry.strings) r.2.2
    (r.2.1 ++ r.1.flatMap ArrayEntry.strings)
  small : (∀ xs, param = .array xs → (xs.length : ℤ) < intTop) → (r.2.1.length : ℤ) < intTop

theorem resetArray_isReset (kshArrays augment : Bool) (val : List ArrayEntry)
    (param : ParamValue) (pool : Pool Bytes) :
    IsReset kshArrays augment val param pool (resetArray augment val param pool) := by
  have hzero : (([] : List HeapString).length : ℤ) < intTop := by decide
  cases param with
  | unset =>
    refine ⟨rfl, ?_, .of_perm (.refl _), fun _ ↦ hzero⟩
    cases augment with
    | false => rfl
    | true => rfl
  | scalar s =>
    cases augment with
    | false => exact ⟨rfl, rfl, Pool.Balanced.free (.of_perm (.refl _)), fun _ ↦ hzero⟩
    | true =>
      have hcopied := (Pool.Balanced.of_perm (p := pool)
        (.refl (s :: val.flatMap ArrayEntry.strings))).alloc s.val
      exact ⟨rfl, rfl, (hcopied.perm (List.Perm.swap _ _ _)).free, fun _ ↦ hzero⟩
  | array xs =>
    refine ⟨rfl, ?_, .of_perm (.refl _), fun h ↦ h xs rfl⟩
    cases augment with
    | false => rfl
    | true => rfl

/-- The assignment is as it should be exactly if the new array has fewer than `INT_MAX` elements, or,
where a subscript is reported, if the parameter is an array already. -/
theorem assignaparam_iff (kshArrays augment : Bool) (val : List ArrayEntry) {param : ParamValue}
    (pool : Pool Bytes) (hparam : ∀ xs, param = .array xs → (xs.length : ℤ) < intTop) :
    (∃ out, assignaparam kshArrays augment val param pool = some out ∧
        Assigned kshArrays augment val param pool out) ↔
      if val.any (ArrayEntry.bad kshArrays) then ∃ xs, param = .array xs
      else ((applyEntries kshArrays (entriesStart augment param) val).1.length : ℤ) < intTop := by
  have hreset := resetArray_isReset kshArrays augment val param pool
  unfold assignaparam
  dsimp only
  cases hbad : val.any _ with
  | true =>
    obtain ⟨key, hkey⟩ := sizePass_bad (hreset.bad.trans hbad) 0
      _
    rw [hkey, if_pos rfl]
    constructor
    · rintro ⟨out, hout, hassigned⟩
      obtain rfl := Option.some_inj.mp hout
      exact ⟨_, hassigned.1.symm⟩
    · rintro ⟨xs, rfl⟩
      refine ⟨_, rfl, ?_⟩
      exact ⟨rfl, Pool.Balanced.free (.of_perm perm_append_comm)⟩
  | false =>
    have hgood := hreset.bad.trans hbad
    have hsmall := hreset.small hparam
    have hbalanced := hreset.balanced
    unfold Assigned
    rw [← hreset.entries]
    generalize resetArray augment val param pool = r at *
    obtain ⟨val', xs, pool'⟩ := r
    have horig : ((if augment then xs else []).length : ℤ) < intTop := by
      split
      · exact hsmall
      · decide
    generalize (if augment then xs else []) = orig at *
    have hstart : ((orig.map Item.val).length : ℤ) < intTop := by rwa [length_map]
    by_cases hfits : ((applyEntries kshArrays (orig.map Item.val, 0) val').1.length : ℤ) < intTop
    · have hsize := sizePass_fits hgood _ hfits.le
      obtain ⟨new, pool'', hbuild, htext, hnew⟩ := buildArray_fits hgood rfl hfits hbalanced
      rw [length_map, Nat.cast_zero] at hsize
      rw [hsize]
      dsimp only
      rw [hbuild]
      refine ⟨fun _ ↦ hfits, fun _ ↦ ⟨_, rfl, ?_⟩⟩
      exact ⟨new, rfl, htext, hnew⟩
    · have hzero : ((0 : ℕ) : ℤ) < intTop := by decide
      obtain ⟨length, hsize, hlong⟩ := sizePass_long hgood (orig.map Item.val, 0) hstart
        hzero (not_lt.mp hfits)
      obtain ⟨length', hsize', hle, -⟩ := sizePass_ok hgood 0 hstart.le
      rw [Nat.cast_zero, hsize'] at hsize
      obtain rfl : length' = length := by simpa using hsize
      rw [length_map] at hsize' hle
      rw [hsize']
      dsimp only
      rw [buildArray_long hle hlong]
      refine ⟨?_, fun h ↦ absurd h hfits⟩
      rintro ⟨out, hout, -⟩
      exact nomatch hout

/-- `a=(x [3]=y)` for a new array. -/
theorem third_assigned : ∃ out,
    assignaparam false false [.value ⟨0, Bytes.ascii "x"⟩,
      .indexed ⟨1, []⟩ ⟨2, Bytes.ascii "3"⟩ false 3 ⟨3, Bytes.ascii "y"⟩] .unset ⟨4, []⟩ = some out ∧
    Assigned false false [.value ⟨0, Bytes.ascii "x"⟩,
      .indexed ⟨1, []⟩ ⟨2, Bytes.ascii "3"⟩ false 3 ⟨3, Bytes.ascii "y"⟩] .unset ⟨4, []⟩ out := by
  apply (assignaparam_iff _ _ _ _ _).mpr
  · rw [if_neg (by decide)]
    decide
  · rintro xs ⟨⟩

/-- `a=([4294967297]=y)` stores outside of a vector of two cells, and `a=([0]=y)` for a scalar
leaves an empty array behind its error. -/
theorem far_not_assigned :
    (¬ ∃ out,
      assignaparam false false [.indexed ⟨0, []⟩ ⟨1, Bytes.ascii "4294967297"⟩ false 4294967297
        ⟨2, Bytes.ascii "y"⟩] .unset ⟨3, []⟩ = some out ∧
      Assigned false false [.indexed ⟨0, []⟩ ⟨1, Bytes.ascii "4294967297"⟩ false 4294967297
        ⟨2, Bytes.ascii "y"⟩] .unset ⟨3, []⟩ out) ∧
    ¬ ∃ out,
      assignaparam false false [.indexed ⟨0, []⟩ ⟨1, Bytes.ascii "0"⟩ false 0 ⟨2, Bytes.ascii "y"⟩]
        (.scalar ⟨3, Bytes.ascii "z"⟩) ⟨4, []⟩ = some out ∧
      Assigned false false [.indexed ⟨0, []⟩ ⟨1, Bytes.ascii "0"⟩ false 0 ⟨2, Bytes.ascii "y"⟩]
        (.scalar ⟨3, Bytes.ascii "z"⟩) ⟨4, []⟩ out := by
  constructor
  · rintro ⟨out, hout, -⟩
    exact nomatch hout
  · rintro ⟨out, hout, hassigned⟩
    obtain rfl := Option.some_inj.mp hout
    exact nomatch hassigned.1

end Bsh.Shell
