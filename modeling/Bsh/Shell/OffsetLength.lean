import Bsh.Shell.SubscriptArray

/-!
# Offset and length

`${name:offset:length}` in `paramsubst`, with the two numbers as `mathevali` gives them.  An array is
copied by elements, and the positional parameters count as if `$0` stood in front of them: offset 0
is handled apart and any other positive offset goes down by one, whereas a negative offset that is
out of range ends up at `$1`.  A scalar is walked over by characters.

All numbers are 64-bit integers and wrap.
-/

namespace Bsh.Shell

open Bsh.Library List

/-- The largest `zlong`, and one more. -/
def zlongEnd : ℤ := 2 ^ 63

/-- The numbers of the message `substring expression: %d < %d`. -/
structure SubstringError where
  stop : ℤ
  start : ℤ

/-! ## What is documented -/

/-- An offset is at most the number of elements, and counts from their end if it is negative. -/
def sliceStart (n : ℕ) (offset : ℤ) : ℤ :=
  min n (if offset < 0 then max 0 (n + offset) else offset)

/-- The elements from a start on, or `none` where the end lies in front of it. -/
def sliceFrom {α : Type*} (xs : List α) (start : ℤ) : Option ℤ → Option (List α)
  | none => some (xs.drop start.toNat)
  | some length =>
    if 0 ≤ length then some ((xs.drop start.toNat).take length.toNat)
    else if xs.length + length < start then none
    else some ((xs.drop start.toNat).take (xs.length + length - start).toNat)

def documentedSlice {α : Type*} (xs : List α) (offset : ℤ) (length : Option ℤ) :
    Option (List α) :=
  sliceFrom xs (sliceStart xs.length offset) length

/-- A result is the documented slice; `none` is a run that leaves the array. -/
def Slices {β : Type*} (r : Option (Except SubstringError β)) (slice : Option β) : Prop :=
  r.map Except.toOption = some slice

/-! ## Arrays -/

section

variable {α : Type*}

/-- `*dstptr++ = dupstring(*srcptr++)`, so many times. -/
def copyElements (aval : List α) : ℕ → ℕ → Option (List α)
  | _, 0 => some []
  | srcptr, count + 1 => do
    let x ← aval[srcptr]?
    let rest ← copyElements aval (srcptr + 1) count
    return x :: rest

/-- `while (count--)`, which leaves the array for a negative count. -/
def copyCount (aval : List α) (srcptr count : ℤ) : Option (List α) :=
  if count < 0 then none else copyElements aval srcptr.toNat count.toNat

/-- The offset for an array of `n` elements; `prefixed` is `horrible_offset_hack`. -/
def arrayOffset ( prefixed : Bool) (n : ℕ) (offset : ℤ) : ℤ :=
  let offset := if prefixed ∧ 0 < offset then offset - 1 else offset
  if offset < 0 then max 0 (offset + n) else offset

/-- `alen`, which counts `$0` if the offset is 0. -/
def arrayLength ( prefixed : Bool) (n : ℕ) (offset : ℤ) : ℤ :=
  if prefixed ∧ offset = 0 then n + 1 else n

/-- The length that `offsetArray` works with. -/
def givenLength (alen start : ℤ) : Option ℤ → ℤ
  | some length => if length < 0 then toZlong (length + (alen - start)) else length
  | none => alen

/-- The number of elements that are copied. -/
def sliceCount (alen start given : ℤ) : ℤ :=
  toInt (if alen < toZlong (min start alen + given) then alen - min start alen else given)

/-- The copy of the elements, with `$0` in front if the offset is 0. -/
def copySlice (argzero : Option α) (aval : List α) (offset start count : ℤ) : Option (List α) :=
  match argzero with
  | some zero =>
    if count ≠ 0 ∧ offset = 0 then (copyCount aval start (count - 1)).map (zero :: ·)
    else copyCount aval start count
  | none => copyCount aval start count

/-- The array with the offset and the length applied; `argzero` is given for the positional
parameters. -/
def offsetArray (argzero : Option α) (aval : List α) (offset : ℤ) (length : Option ℤ) :
    Option (Except SubstringError (List α)) :=
  let alen := arrayLength argzero.isSome aval.length offset
  let start := arrayOffset argzero.isSome aval.length offset
  let given := givenLength alen start length
  if length.isSome ∧ given < 0 then some (.error ⟨toInt (given + start), toInt start⟩)
  else (copySlice argzero aval offset (min start alen) (sliceCount alen start given)).map .ok

/-! ## The copy -/

theorem copyElements_eq {aval : List α} {srcptr count : ℕ} (h : srcptr + count ≤ aval.length) :
    copyElements aval srcptr count = some ((aval.drop srcptr).take count) := by
  induction count generalizing srcptr with
  | zero => rw [copyElements, take_zero]
  | succ count ih =>
    have hlt : srcptr < aval.length := by omega
    rw [copyElements, List.getElem?_eq_getElem hlt, ih (by omega), drop_eq_getElem_cons hlt,
      take_succ_cons]
    rfl

theorem copyCount_eq {aval : List α} {srcptr count : ℤ} (hsrc : 0 ≤ srcptr) (hcount : 0 ≤ count)
    (h : srcptr + count ≤ aval.length) :
    copyCount aval srcptr count = some ((aval.drop srcptr.toNat).take count.toNat) := by
  rw [copyCount, if_neg (not_lt.mpr hcount), copyElements_eq (by omega)]

end

/-! ## Numbers that wrap -/

theorem toZlong_cases {n : ℤ} (h : -(2 * zlongEnd) ≤ n ∧ n < 2 * zlongEnd) :
    toZlong n = if n < -zlongEnd then n + 2 * zlongEnd
      else if n < zlongEnd then n else n - 2 * zlongEnd := by
  unfold toZlong Int.bmod zlongEnd at *
  norm_num at *
  split_ifs <;> omega

theorem arrayOffset_neg ( prefixed : Bool) (n : ℕ) {offset : ℤ} (h : offset < 0) :
    arrayOffset prefixed n offset = max 0 (offset + n) := by
  have hsame : (if prefixed = true ∧ 0 < offset then offset - 1 else offset) = offset :=
    if_neg (by omega)
  simp only [arrayOffset, hsame, if_pos h]

theorem arrayOffset_nonneg ( prefixed : Bool) (n : ℕ) {offset : ℤ} (h : 0 ≤ offset) :
    arrayOffset prefixed n offset = if prefixed ∧ 0 < offset then offset - 1 else offset := by
  have hnonneg : ¬ (if prefixed = true ∧ 0 < offset then offset - 1 else offset) < 0 := by
    split <;> omega
  simp only [arrayOffset, if_neg hnonneg]

/-- The length does not wrap when the offset is added to it, or a negative one when it is counted
from the offset. -/
def LengthFits (alen start : ℤ) (length : Option ℤ) : Prop :=
  ∀ l ∈ length, if l < 0 then -zlongEnd ≤ l + (alen - start) else min start alen + l < zlongEnd

section

variable {α : Type*} {xs aval : List α} {offset start : ℤ} {length : Option ℤ}

theorem sliceFrom_min (xs : List α) (start : ℤ) (length : Option ℤ) :
    sliceFrom xs (min start xs.length) length = sliceFrom xs start length := by
  have hdrop : xs.drop (min start xs.length).toNat = xs.drop start.toNat := by
    rcases le_total start xs.length with h | h
    · rw [min_eq_left h]
    · rw [min_eq_right h, Int.toNat_natCast, drop_length, drop_eq_nil_of_le (by omega)]
  cases length with
  | none => rw [sliceFrom, sliceFrom, hdrop]
  | some l =>
    rw [sliceFrom, sliceFrom, hdrop]
    split
    · rfl
    · next hneg =>
      rcases le_total start xs.length with h | h
      · rw [min_eq_left h]
      · rw [if_pos (by omega), if_pos (by omega)]

theorem givenLength_neg {alen start l : ℤ} (halen : 0 ≤ alen) (hstart : 0 ≤ start)
    (hsmall : alen < 2 ^ 31) (hneg : l < 0) (hfits : -zlongEnd ≤ l + (alen - start)) :
    givenLength alen start (some l) = l + (alen - start) := by
  unfold zlongEnd at hfits
  rw [givenLength, if_pos hneg, toZlong_cases (by unfold zlongEnd; omega),
    if_neg (by unfold zlongEnd; omega), if_pos (by unfold zlongEnd; omega)]

theorem givenLength_nonneg {alen start l : ℤ} (h : 0 ≤ l) :
    givenLength alen start (some l) = l := if_neg (not_lt.mpr h)

/-- The array as an offset sees it. -/
def extended (argzero : Option α) (aval : List α) (offset : ℤ) : List α :=
  if offset = 0 then argzero.toList ++ aval else aval

theorem length_extended (argzero : Option α) (aval : List α) (offset : ℤ) :
    ((extended argzero aval offset).length : ℤ) =
      arrayLength argzero.isSome aval.length offset := by
  unfold extended arrayLength
  cases argzero with
  | none => simp
  | some zero =>
    split
    · next h => simp [h]
    · next h => simp [h]

theorem copySlice_eq {argzero : Option α} {count : ℤ} (hstart : 0 ≤ start) (hcount : 0 ≤ count)
    (h : start + count ≤ (extended argzero aval offset).length)
    (hzero : argzero.isSome → offset = 0 → start = 0) :
    copySlice argzero aval offset start count =
      some (((extended argzero aval offset).drop start.toNat).take count.toNat) := by
  have hplain (heq : extended argzero aval offset = aval) : copyCount aval start count =
      some (((extended argzero aval offset).drop start.toNat).take count.toNat) := by
    rw [heq] at h ⊢
    exact copyCount_eq hstart hcount h
  unfold copySlice
  cases argzero with
  | none => exact hplain (by simp [extended])
  | some zero =>
    dsimp only
    by_cases hoffset : offset = 0
    · have hext : extended (some zero) aval offset = zero :: aval := by simp [extended, hoffset]
      have hstart' := hzero rfl hoffset
      subst hstart'
      rw [hext, length_cons] at h
      rw [hext, Int.toNat_zero, drop_zero]
      by_cases hnone : count = 0
      · subst hnone
        rfl
      · rw [if_pos ⟨hnone, hoffset⟩, copyCount_eq (le_refl 0) (by omega) (by omega)]
        have hcount' : count.toNat = (count - 1).toNat + 1 := by omega
        rw [hcount', take_succ_cons]
        rfl
    · rw [if_neg (fun h ↦ hoffset h.2)]
      exact hplain (if_neg hoffset)

theorem sliceCount_eq {alen given : ℤ} (hstart : 0 ≤ start) (halen : 0 ≤ alen)
    (hsmall : alen < 2 ^ 31) (hgiven : 0 ≤ given) (hsum : min start alen + given < zlongEnd) :
    sliceCount alen start given = min given (alen - min start alen) := by
  have hsame : toZlong (min start alen + given) = min start alen + given := by
    rw [toZlong_cases (by omega), if_neg (by omega),
      if_pos hsum]
  have hmin : 0 ≤ min start alen ∧ min start alen ≤ alen := by omega
  rw [sliceCount, hsame]
  generalize min start alen = m at hmin hsum ⊢
  split
  · next h => rw [min_eq_right (by omega), toInt_eq (by omega)]
  · next h => rw [min_eq_left (by omega), toInt_eq (by omega)]

/-- Where no number wraps, the slice is taken from the array as the offset sees it. -/
theorem offsetArray_fits {argzero : Option α}
    (hstart : 0 ≤ arrayOffset argzero.isSome aval.length offset)
    (hsmall : aval.length < 2 ^ 31 - 1)
    (hfits : LengthFits (arrayLength argzero.isSome aval.length offset)
      (arrayOffset argzero.isSome aval.length offset) length) :
    Slices (offsetArray argzero aval offset length)
      (sliceFrom (extended argzero aval offset)
        (arrayOffset argzero.isSome aval.length offset) length) := by
  set start := arrayOffset argzero.isSome aval.length offset with hstartdef
  have hext := length_extended argzero aval offset
  set alen := arrayLength argzero.isSome aval.length offset with halendef
  have halen : 0 ≤ alen := hext ▸ Int.natCast_nonneg _
  have hsmall' : alen < 2 ^ 31 := by
    rw [halendef, arrayLength]
    split <;> omega
  have hzero : argzero.isSome → offset = 0 → min start alen = 0 := by
    intro hsome hoffset
    have hzero' : start = 0 := by
      rw [hstartdef, arrayOffset_nonneg _ _ hoffset.ge, hoffset]
      simp
    rw [hzero', min_eq_left halen]
  have hcopy {given : ℤ} (hnonneg : 0 ≤ given) (hsum : min start alen + given < zlongEnd) :
      copySlice argzero aval offset (min start alen) (sliceCount alen start given) =
        some (((extended argzero aval offset).drop (min start alen).toNat).take given.toNat) := by
    rw [sliceCount_eq hstart halen hsmall' hnonneg hsum,
      copySlice_eq (by omega) (by omega) (by omega) hzero]
    congr 1
    apply List.take_eq_take_iff.mpr
    rw [length_drop]
    omega
  rw [Slices, ← sliceFrom_min, hext, offsetArray, ← hstartdef, ← halendef]
  cases length with
  | none =>
    have hsum : min start alen + alen < zlongEnd := by
      unfold zlongEnd
      omega
    change Option.map _ (Option.map _ (copySlice _ _ _ _ (sliceCount alen start alen))) = _
    rw [hcopy halen hsum, sliceFrom, take_of_length_le]
    · rfl
    · rw [length_drop]
      omega
  | some l =>
    have hfit := hfits l rfl
    by_cases hneg : l < 0
    · rw [if_pos hneg] at hfit
      rw [givenLength_neg halen hstart hsmall' hneg hfit, sliceFrom, if_neg (not_le.mpr hneg), hext]
      by_cases hbefore : l + (alen - start) < 0
      · rw [if_pos ⟨rfl, hbefore⟩, if_pos (by omega)]
        rfl
      · have hmin : min start alen = start := min_eq_left (by omega)
        have hsum : min start alen + (l + (alen - start)) < zlongEnd := by
          unfold zlongEnd
          omega
        rw [if_neg (fun h ↦ hbefore h.2), hcopy (not_lt.mp hbefore) hsum, if_neg (by omega), hmin]
        have hcount : alen + l - start = l + (alen - start) := by ring
        rw [hcount]
        rfl
    · have hl := not_lt.mp hneg
      rw [if_neg hneg] at hfit
      rw [givenLength_nonneg hl, if_neg (fun h ↦ hneg h.2), hcopy hl hfit, sliceFrom, if_pos hl]
      rfl

/-- Where a number wraps, the copy leaves the array or a diagnostic is missing. -/
theorem offsetArray_wraps {argzero : Option α} {l : ℤ}
    (hstart : 0 ≤ arrayOffset argzero.isSome aval.length offset)
    (hend : arrayOffset argzero.isSome aval.length offset < zlongEnd)
    (hsmall : aval.length < 2 ^ 31 - 1) (hl : -zlongEnd ≤ l ∧ l < zlongEnd)
    (hwraps : ¬ LengthFits (arrayLength argzero.isSome aval.length offset)
      (arrayOffset argzero.isSome aval.length offset) (some l)) :
    ¬ Slices (offsetArray argzero aval offset (some l))
      (documentedSlice (argzero.toList ++ aval) offset (some l)) := by
  have hwraps' : ¬ if l < 0
      then -zlongEnd ≤ l + (arrayLength argzero.isSome aval.length offset -
        arrayOffset argzero.isSome aval.length offset)
      else min (arrayOffset argzero.isSome aval.length offset)
        (arrayLength argzero.isSome aval.length offset) + l < zlongEnd := by
    intro h
    apply hwraps
    rintro _ ⟨⟩
    exact h
  have halen : (aval.length : ℤ) ≤ arrayLength argzero.isSome aval.length offset ∧
      arrayLength argzero.isSome aval.length offset < 2 ^ 31 := by
    unfold arrayLength
    split <;> omega
  unfold Slices offsetArray
  dsimp only
  by_cases hneg : l < 0
  · rw [if_pos hneg, not_le] at hwraps'
    have hnone : documentedSlice (argzero.toList ++ aval) offset (some l) = none := by
      have hlength : (argzero.toList ++ aval).length ≤ aval.length + 1 := by
        rw [length_append, Nat.add_comm]
        exact Nat.add_le_add_left (by cases argzero <;> simp) _
      rw [documentedSlice, sliceFrom, if_neg (not_le.mpr hneg), if_pos]
      unfold sliceStart
      omega
    have hgiven : ¬ givenLength (arrayLength argzero.isSome aval.length offset)
        (arrayOffset argzero.isSome aval.length offset) (some l) < 0 := by
      unfold zlongEnd at *
      rw [givenLength, if_pos hneg, toZlong_cases (by unfold zlongEnd; omega),
        if_pos (by unfold zlongEnd; omega)]
      unfold zlongEnd
      omega
    rw [hnone, if_neg (fun h ↦ hgiven h.2), Option.map_map]
    intro h
    obtain ⟨xs, -, hxs⟩ := Option.map_eq_some_iff.mp h
    exact nomatch hxs
  · rw [if_neg hneg, not_lt] at hwraps'
    have hoffset : offset ≠ 0 := by
      intro hzero
      have hstart' : arrayOffset argzero.isSome aval.length offset = 0 := by
        rw [arrayOffset_nonneg _ _ hzero.ge, hzero]
        simp
      omega
    rw [givenLength_nonneg (not_lt.mp hneg), if_neg (fun h ↦ hneg h.2)]
    generalize arrayOffset argzero.isSome aval.length offset = start at *
    generalize arrayLength argzero.isSome aval.length offset = alen at *
    have hnegative : sliceCount alen start l < 0 := by
      have hz : toZlong (min start alen + l) = min start alen + l - 2 * zlongEnd := by
        rw [toZlong_cases (by omega), if_neg (by omega), if_neg (by omega)]
      have hint : toInt l = l - zlongEnd := by
        unfold toInt zlongEnd at *
        unfold Int.bmod
        norm_num at *
        omega
      rw [sliceCount, hz, if_neg (by omega), hint]
      omega
    have hnone : copySlice argzero aval offset (min start alen) (sliceCount alen start l) = none := by
      unfold copySlice copyCount
      cases argzero with
      | none => exact if_pos hnegative
      | some zero =>
        dsimp only
        rw [if_neg (fun h ↦ hoffset h.2), if_pos hnegative]
    rw [hnone]
    exact nofun

/-! ## When a slice is the documented one -/

theorem sliceFrom_cons (x : α) (xs : List α) (hstart : 0 ≤ start) (length : Option ℤ) :
    sliceFrom (x :: xs) (start + 1) length = sliceFrom xs start length := by
  have hdrop : (x :: xs).drop (start + 1).toNat = xs.drop start.toNat := by
    have hnat : (start + 1).toNat = start.toNat + 1 := by omega
    rw [hnat, drop_succ_cons]
  cases length with
  | none => rw [sliceFrom, sliceFrom, hdrop]
  | some l =>
    rw [sliceFrom, sliceFrom, hdrop, length_cons]
    split
    · rfl
    · by_cases hend : (xs.length : ℤ) + l < start
      · rw [if_pos hend, if_pos (by omega)]
      · rw [if_neg hend, if_neg (by omega)]
        congr 2
        omega

theorem take_cons_eq_take_iff {x : α} {n : ℕ} (hn : n ≤ xs.length) :
    xs.take n = (x :: xs).take n ↔ xs.take n = List.replicate n x := by
  induction n generalizing x xs with
  | zero => simp
  | succ n ih =>
    cases xs with
    | nil => exact absurd hn (by simp)
    | cons y xs =>
      rw [take_succ_cons, take_succ_cons, replicate_succ, List.cons.injEq,
        List.cons.injEq]
      apply and_congr_right
      rintro rfl
      exact ih (Nat.le_of_succ_le_succ hn)

/-- A slice that starts at `$1` instead of `$0` is the same: it is empty, or `$0` and the parameters
are, or its end lies in front of `$0`. -/
def SameFront (zero : α) (aval : List α) : Option ℤ → Prop
  | none => False
  | some l =>
    if 0 ≤ l then l ≤ aval.length ∧ aval.take l.toNat = List.replicate l.toNat zero
    else aval.length + 1 + l < 0

theorem sliceFrom_zero_iff (zero : α) (aval : List α) (length : Option ℤ) :
    sliceFrom aval 0 length = sliceFrom (zero :: aval) 0 length ↔ SameFront zero aval length := by
  have hlonger : aval ≠ zero :: aval := fun h ↦ by simpa using congrArg List.length h
  cases length with
  | none => simp [sliceFrom, SameFront]
  | some l =>
    simp only [sliceFrom, SameFront, Int.toNat_zero, drop_zero, sub_zero, length_cons]
    by_cases hl : 0 ≤ l
    · rw [if_pos hl, if_pos hl, if_pos hl, Option.some_inj]
      by_cases hshort : l ≤ aval.length
      · rw [take_cons_eq_take_iff (by omega)]
        exact ⟨fun h ↦ ⟨hshort, h⟩, fun h ↦ h.2⟩
      · rw [take_of_length_le (by omega), take_of_length_le (by simp; omega)]
        exact ⟨fun h ↦ absurd h hlonger, fun h ↦ absurd h.1 hshort⟩
    · rw [if_neg hl, if_neg hl, if_neg hl]
      by_cases hboth : (aval.length : ℤ) + 1 + l < 0
      · rw [if_pos (by omega), if_pos (by omega)]
        exact ⟨fun _ ↦ hboth, fun _ ↦ rfl⟩
      · have hsecond : ¬ ((aval.length + 1 : ℕ) : ℤ) + l < 0 := by
          exact hboth
        constructor
        · intro h
          split at h
          · exact nomatch h
          · next hfirst =>
            have hlength := congrArg List.length (Option.some_inj.mp h)
            rw [length_take, length_take, length_cons] at hlength
            omega
        · intro h
          exact absurd h hboth

theorem sliceFrom_arrayOffset_iff (argzero : Option α) (aval : List α) (offset : ℤ)
    (length : Option ℤ) :
    sliceFrom (extended argzero aval offset) (arrayOffset argzero.isSome aval.length offset)
        length = documentedSlice (argzero.toList ++ aval) offset length ↔
      ∀ zero ∈ argzero, offset + (aval.length + 1) ≤ 0 → SameFront zero aval length := by
  unfold documentedSlice sliceStart
  rw [min_comm, sliceFrom_min]
  cases argzero with
  | none =>
    have hext : extended none aval offset = aval := by simp [extended]
    have hsame : arrayOffset (none : Option α).isSome aval.length offset =
        if offset < 0 then max 0 ((aval.length : ℤ) + offset) else offset := by
      split
      · next h => rw [arrayOffset_neg _ _ h, add_comm]
      · next h => rw [arrayOffset_nonneg _ _ (not_lt.mp h), if_neg (by simp)]
    rw [hext, hsame]
    exact ⟨fun _ zero hzero ↦ absurd hzero (by simp), fun _ ↦ rfl⟩
  | some zero =>
    have hmem (p : α → Prop) : (∀ x ∈ some zero, p x) ↔ p zero := by simp
    have hlist : (some zero).toList ++ aval = zero :: aval := rfl
    rw [hmem, hlist, Option.isSome_some]
    by_cases hfar : offset + (aval.length + 1) ≤ 0
    · have hoffset : arrayOffset true aval.length offset = 0 := by
        rw [arrayOffset_neg _ _ (by omega), max_eq_left (by omega)]
      rw [hoffset, extended, if_neg (by omega), if_pos (by omega), length_cons,
        max_eq_left (by omega), sliceFrom_zero_iff]
      exact ⟨fun h _ ↦ h, fun h ↦ h hfar⟩
    · have hsame : sliceFrom (extended (some zero) aval offset)
          (arrayOffset true aval.length offset) length = sliceFrom (zero :: aval)
          (if offset < 0 then max 0 (((zero :: aval).length : ℕ) + offset) else offset) length := by
        rw [length_cons]
        by_cases hzero : offset = 0
        · rw [hzero, extended, if_pos rfl, arrayOffset_nonneg _ _ (le_refl 0)]
          rfl
        · rw [extended, if_neg hzero]
          by_cases hneg : offset < 0
          · rw [arrayOffset_neg _ _ hneg, if_pos hneg, max_eq_right (by omega),
              max_eq_right (by omega), ← sliceFrom_cons zero aval (by omega)]
            push_cast
            ring
          · rw [arrayOffset_nonneg _ _ (not_lt.mp hneg), if_pos ⟨rfl, by omega⟩, if_neg hneg,
              ← sliceFrom_cons zero aval (by omega), sub_add_cancel]
      exact ⟨fun _ h ↦ absurd h hfar, fun _ ↦ hsame⟩

/-- The slice of an array is the documented one exactly if no number wraps, and the offset does not
reach `$0` from the end of the positional parameters unless that makes no difference. -/
theorem offsetArray_iff (argzero : Option α) {aval : List α} {offset : ℤ} {length : Option ℤ}
    (hsmall : aval.length < 2 ^ 31 - 1) (hoffset : -zlongEnd ≤ offset ∧ offset < zlongEnd)
    (hlength : ∀ l ∈ length, -zlongEnd ≤ l ∧ l < zlongEnd) :
    Slices (offsetArray argzero aval offset length)
        (documentedSlice (argzero.toList ++ aval) offset length) ↔
      LengthFits (arrayLength argzero.isSome aval.length offset)
        (arrayOffset argzero.isSome aval.length offset) length ∧
      ∀ zero ∈ argzero, offset + (aval.length + 1) ≤ 0 → SameFront zero aval length := by
  have hstart : 0 ≤ arrayOffset argzero.isSome aval.length offset ∧
      arrayOffset argzero.isSome aval.length offset < zlongEnd := by
    unfold zlongEnd at *
    rcases lt_or_ge offset 0 with h | h
    · rw [arrayOffset_neg _ _ h]
      omega
    · rw [arrayOffset_nonneg _ _ h]
      split <;> omega
  rw [← sliceFrom_arrayOffset_iff]
  by_cases hfits : LengthFits (arrayLength argzero.isSome aval.length offset)
      (arrayOffset argzero.isSome aval.length offset) length
  · have hslice := offsetArray_fits hstart.1 hsmall hfits
    unfold Slices at *
    rw [hslice, Option.some_inj]
    exact ⟨fun h ↦ ⟨hfits, h⟩, fun h ↦ h.2⟩
  · cases length with
    | none => exact absurd (fun l hl ↦ absurd hl (by simp)) hfits
    | some l =>
      have hwraps := offsetArray_wraps hstart.1 hstart.2 hsmall (hlength l rfl) hfits
      exact ⟨fun h ↦ absurd h hwraps, fun h ↦ absurd h.1 hfits⟩

end

/-! ## Scalars -/

namespace TextEnv

variable (env : TextEnv)

/-- `for (t = val; *t;) { t += MB_METACHARLEN(t); n++; }`; the first argument bounds its turns. -/
def countAll : ℕ → Bytes → ℕ → Option ℕ
  | _, [], n => some n
  | 0, _ :: _, _ => none
  | turns + 1, c :: t, n =>
    match env.charLen (c :: t) with
    | some len => countAll turns ((c :: t).drop len) (n + 1)
    | none => none

/-- The characters from `sptr` on, as many as are asked for. -/
def charsFrom (sptr : Bytes) (length : ℤ) : Option (Except SubstringError Bytes) :=
  (env.walkChars length.toNat sptr 1).map fun eptr ↦
    .ok (sptr.take (sptr.length - eptr.rest.length))

/-- What `offsetScalar` does with a length, behind the offset. -/
def scalarLength (val sptr : Bytes) (offset length : ℤ) :
    Option (Except SubstringError Bytes) :=
  let length := if length < 0 then toZlong (length - offset) else length
  if length < 0 then
    (env.countAll val.length val 0).bind fun n ↦
      if length + n < 0 then some (.error ⟨toInt (length + n + toInt offset), toInt offset⟩)
      else env.charsFrom sptr (length + n)
  else env.charsFrom sptr length

/-- A negative offset is counted from the end of the string. -/
def startOffset (val : Bytes) (offset : ℤ) : Option ℤ :=
  if offset < 0 then (env.countAll val.length val 0).map fun (n : ℕ) ↦ max 0 (offset + n)
  else some offset

/-- The scalar with the offset and the length applied. -/
def offsetScalar (val : Bytes) (offset : ℤ) (length : Option ℤ) :
    Option (Except SubstringError Bytes) :=
  (env.startOffset val offset).bind fun offset ↦
    (env.walkChars offset.toNat val 1).bind fun sptr ↦
      match length with
      | none => some (.ok sptr.rest)
      | some length => env.scalarLength val sptr.rest offset length

variable {env : TextEnv} {val : Bytes} {chs : List Bytes} {offset : ℤ}

theorem Cut.countAll (h : env.Cut val chs) {turns : ℕ} (hturns : val.length ≤ turns) (n : ℕ) :
    env.countAll turns val n = some (n + chs.length) := by
  induction h generalizing turns n with
  | nil =>
    cases turns with
    | zero => rfl
    | succ turns => rfl
  | @cons ch rest chs hne hlen hrest ih =>
    obtain ⟨c, ch, rfl⟩ := exists_cons_of_ne_nil hne
    have hlong : (c :: ch ++ rest).length = ch.length + rest.length + 1 := by
      rw [cons_append, length_cons, length_append]
    obtain ⟨turns, rfl⟩ : ∃ t, turns = t + 1 := ⟨turns - 1, by omega⟩
    rw [cons_append] at hlen ⊢
    rw [TextEnv.countAll, hlen]
    dsimp only
    rw [← cons_append, drop_left, ih (by omega), length_cons]
    congr 1
    omega

theorem Cut.charsFrom (h : env.Cut val chs) (length : ℤ) :
    env.charsFrom val length = some (.ok (chs.take length.toNat).flatten) := by
  have hsplit : val = (chs.take length.toNat).flatten ++ (chs.drop length.toNat).flatten := by
    rw [← flatten_append, List.take_append_drop, h.flatten]
  rw [TextEnv.charsFrom, h.walkChars, Option.map_some]
  conv_lhs => rw [hsplit]
  rw [length_append, Nat.add_sub_cancel, take_left]

/-- The offset of a scalar of `n` characters. -/
def scalarOffset (n : ℕ) (offset : ℤ) : ℤ := if offset < 0 then max 0 (offset + n) else offset

/-- A negative length does not wrap when the offset is taken from it. -/
def ScalarFits (n : ℕ) (offset : ℤ) (length : Option ℤ) : Prop :=
  ∀ l ∈ length, l < 0 → -zlongEnd ≤ l - scalarOffset n offset

theorem Cut.offsetScalar (h : env.Cut val chs) (offset : ℤ) (length : Option ℤ) :
    env.offsetScalar val offset length = match length with
      | none => some (.ok (chs.drop (scalarOffset chs.length offset).toNat).flatten)
      | some l => env.scalarLength val (chs.drop (scalarOffset chs.length offset).toNat).flatten
          (scalarOffset chs.length offset) l := by
  have hoffset : env.startOffset val offset = some (scalarOffset chs.length offset) := by
    rw [startOffset, h.countAll (Nat.le_refl _), Nat.zero_add, scalarOffset]
    split
    · rfl
    · rfl
  rw [TextEnv.offsetScalar, hoffset, Option.bind_some, h.walkChars, Option.bind_some]

/-- Where no number wraps, the slice is taken from the characters. -/
theorem Cut.scalarLength (h : env.Cut val chs) {start l : ℤ} (hstart : 0 ≤ start)
    (hfits : l < 0 → -zlongEnd ≤ l - start) :
    Slices (env.scalarLength val (chs.drop start.toNat).flatten start l)
      ((sliceFrom chs start (some l)).map List.flatten) := by
  have hrest : env.Cut (chs.drop start.toNat).flatten (chs.drop start.toNat) := h.drop _
  unfold Slices TextEnv.scalarLength
  by_cases hneg : l < 0
  · have hkept : toZlong (l - start) = l - start := by
      rw [toZlong_cases (by omega), if_neg (by omega),
        if_pos (by omega)]
    rw [if_pos hneg, hkept, if_pos (by omega), h.countAll (Nat.le_refl _), Option.bind_some,
      Nat.zero_add, sliceFrom, if_neg (not_le.mpr hneg)]
    by_cases hbefore : (chs.length : ℤ) + l < start
    · rw [if_pos (by omega), if_pos hbefore]
      rfl
    · have hcount : l - start + chs.length = chs.length + l - start := by ring
      rw [if_neg (by omega), if_neg hbefore, hrest.charsFrom, hcount]
      rfl
  · rw [if_neg hneg, if_neg hneg, hrest.charsFrom, sliceFrom, if_pos (not_lt.mp hneg)]
    rfl

/-- The slice of a scalar is the documented one exactly if no number wraps. -/
theorem Cut.offsetScalar_iff (h : env.Cut val chs) {offset : ℤ} {length : Option ℤ}
    (hsize : chs.length < zlongEnd) (hoffset : -zlongEnd ≤ offset ∧ offset < zlongEnd)
    (hlength : ∀ l ∈ length, -zlongEnd ≤ l ∧ l < zlongEnd) :
    Slices (env.offsetScalar val offset length)
        ((documentedSlice chs offset length).map List.flatten) ↔
      ScalarFits chs.length offset length := by
  have hdocumented : documentedSlice chs offset length =
      sliceFrom chs (scalarOffset chs.length offset) length := by
    rw [documentedSlice, sliceStart, min_comm, sliceFrom_min, scalarOffset, add_comm]
  have hstart : 0 ≤ scalarOffset chs.length offset ∧
      scalarOffset chs.length offset < zlongEnd := by
    unfold scalarOffset
    split <;> omega
  rw [h.offsetScalar, hdocumented, ScalarFits]
  generalize scalarOffset chs.length offset = start at *
  cases length with
  | none =>
    refine ⟨fun _ l hl ↦ absurd hl (by simp), fun _ ↦ rfl⟩
  | some l =>
    constructor
    · intro hslices
      rintro _ ⟨⟩ hneg
      by_contra hwraps
      -- The length wraps to a positive one, so that the diagnostic is missing.
      have hl := hlength l rfl
      have hwrapped : toZlong (l - start) = l - start + 2 * zlongEnd := by
        rw [toZlong_cases (by omega), if_pos (by omega)]
      have hnone : sliceFrom chs start (some l) = none := by
        rw [sliceFrom, if_neg (not_le.mpr hneg), if_pos (by omega)]
      have hrest : env.Cut (chs.drop start.toNat).flatten (chs.drop start.toNat) := h.drop _
      unfold Slices TextEnv.scalarLength at hslices
      dsimp only at hslices
      rw [hnone, if_pos hneg, hwrapped, if_neg (by omega), hrest.charsFrom] at hslices
      exact nomatch hslices
    · intro hfits
      exact h.scalarLength hstart.1 (hfits l rfl)

end TextEnv

/-! ## Values -/

/-- What an offset is applied to: a scalar by its bytes, or an array, with `$0` for the positional
parameters. -/
inductive OffsetTarget where
  | scalar (b : Bytes)
  | array (argzero : Option Bytes) (aval : List Bytes)

namespace OffsetTarget

variable (env : TextEnv)

/-- The size is one that the machine can count. -/
def Small : OffsetTarget → Prop
  | scalar b => (env.characters (metafied b)).length < zlongEnd
  | array _ aval => aval.length < 2 ^ 31 - 1

/-- The offset and the length give what is documented. -/
def AsDocumented (offset : ℤ) (length : Option ℤ) : OffsetTarget → Prop
  | scalar b => Slices (env.offsetScalar (metafied b) offset length)
      ((documentedSlice (env.characters (metafied b)) offset length).map List.flatten)
  | array argzero aval => Slices (offsetArray argzero aval offset length)
      (documentedSlice (argzero.toList ++ aval) offset length)

/-- No number wraps, and `$0` is not reached from the end, or makes no difference. -/
def Exact (offset : ℤ) (length : Option ℤ) : OffsetTarget → Prop
  | scalar b => TextEnv.ScalarFits (env.characters (metafied b)).length offset length
  | array argzero aval => LengthFits (arrayLength argzero.isSome aval.length offset)
        (arrayOffset argzero.isSome aval.length offset) length ∧
      ∀ zero ∈ argzero, offset + (aval.length + 1) ≤ 0 → SameFront zero aval length

/-- Offset and length give the documented slice, or its diagnostic, exactly in these cases. -/
theorem asDocumented_iff {target : OffsetTarget} {offset : ℤ} {length : Option ℤ}
    (hsmall : target.Small env) (hoffset : -zlongEnd ≤ offset ∧ offset < zlongEnd)
    (hlength : ∀ l ∈ length, -zlongEnd ≤ l ∧ l < zlongEnd) :
    target.AsDocumented env offset length ↔ target.Exact env offset length := by
  cases target with
  | scalar b => exact (env.cut_characters b).offsetScalar_iff hsmall hoffset hlength
  | array argzero aval => exact offsetArray_iff argzero hsmall hoffset hlength

/-- `${a: 1:1}` of an array of two elements. -/
theorem second_asDocumented :
    (array none [Bytes.ascii "x", Bytes.ascii "y"]).AsDocumented TextEnv.portable 1 (some 1) := by
  have hsmall : (array none [Bytes.ascii "x", Bytes.ascii "y"]).Small TextEnv.portable := by
    change 2 < 2 ^ 31 - 1
    decide
  apply (asDocumented_iff TextEnv.portable hsmall (by decide) _).mpr
  · refine ⟨?_, by simp⟩
    rintro _ ⟨⟩
    decide
  · decide

/-- `${@: -3}` with two positional parameters starts at `$1` instead of `$0`. -/
theorem all_not_asDocumented : ¬ (array (some (Bytes.ascii "bsh"))
    [Bytes.ascii "x", Bytes.ascii "y"]).AsDocumented TextEnv.portable (-3) none := by
  have hslice : documentedSlice [Bytes.ascii "bsh", Bytes.ascii "x", Bytes.ascii "y"] (-3) none =
      some [Bytes.ascii "bsh", Bytes.ascii "x", Bytes.ascii "y"] := rfl
  intro h
  change some (some _) = some (documentedSlice
    [Bytes.ascii "bsh", Bytes.ascii "x", Bytes.ascii "y"] (-3) none) at h
  rw [hslice] at h
  simp at h

end OffsetTarget

end Bsh.Shell
