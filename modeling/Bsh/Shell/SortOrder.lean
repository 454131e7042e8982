import Bsh.Library.Comparator
import Bsh.Shell.Numbers

/-!
# The comparison of a sort

`eltpcmp` of `sort.c`, with a collation by byte value.  Strings end at a null byte.  Only an element
whose length is recorded has null bytes within, and its null bytes count as characters.  Digits are
compared as numbers by going back to where the digits of both strings began.
-/

namespace Bsh.Shell

open Bsh.Library List

/-! ## Elements and flags -/

/-- `sortnumeric`: 0, 1 or -1. -/
inductive SortNumeric where
  | off
  | numeric
  | signed
  deriving DecidableEq

structure SortFlags where
  backwards : Bool
  sortnumeric : SortNumeric
  sortnobslash : Bool
  deriving DecidableEq

/-- `sortdir`. -/
def SortFlags.sortdir (flags : SortFlags) : ℤ := if flags.backwards then -1 else 1

/-- What `eltpcmp` reads of `struct sortelt`. -/
structure SortElt where
  cmp : Bytes
  /-- Whether the length is recorded. -/
  recorded : Bool
  plain : recorded = false → 0 ∉ cmp

/-- `len`. -/
def SortElt.len (e : SortElt) : ℤ := if e.recorded then e.cmp.length else -1

/-- The character at a place, or the null byte at the end. -/
def charAt (s : Bytes) : UInt8 := s.headD 0

/-! ## `eltpcmp` -/

/-- The loop over strings with a length: what is left of them, and the place behind the last null
byte that both have. -/
def lengthScan (both : Bool) : ℕ → Bytes → Bytes → ℕ → ℕ → Bytes × Bytes × ℕ
  | 0, cmpa, cmpb, _, laststart => (cmpa, cmpb, laststart)
  | len + 1, cmpa, cmpb, pos, laststart =>
    if charAt cmpa = charAt cmpb then
      if charAt cmpa = 0 then
        if both then lengthScan both len cmpa.tail cmpb.tail (pos + 1) (pos + 1)
        else (cmpa, cmpb, laststart)
      else lengthScan both len cmpa.tail cmpb.tail (pos + 1) laststart
    else (cmpa, cmpb, laststart)

/-- `strcoll`, by byte value. -/
def strcoll : Bytes → Bytes → ℤ
  | c :: as, d :: bs => if c = d ∧ c ≠ 0 then strcoll as bs else (c.toNat : ℤ) - d.toNat
  | as, bs => ((charAt as).toNat : ℤ) - (charAt bs).toNat

/-- A pointer into a string: the bytes in front of it, the nearest first, and those from it on. -/
structure Place where
  before : Bytes
  rest : Bytes

def Place.next (p : Place) : Place := ⟨p.rest.take 1 ++ p.before, p.rest.tail⟩

/-- One backslash is passed over. -/
def Place.skipBackslash (p : Place) : Place := if charAt p.rest = char '\\' then p.next else p

/-- The loop that ignores backslashes. -/
def passBackslashes : ℕ → Place → Place → Place × Place
  | 0, as, bs => (as, bs)
  | turns + 1, as, bs =>
    if charAt as.rest ≠ 0 ∧ charAt bs.rest ≠ 0 then
      let as := as.skipBackslash
      let bs := bs.skipBackslash
      if charAt as.rest ≠ charAt bs.rest ∨ charAt as.rest = 0 then (as, bs)
      else passBackslashes turns as.next bs.next
    else (as, bs)

/-- The common characters are passed over. -/
def passCommon (beforea beforeb : Bytes) : Bytes → Bytes → Place × Place
  | c :: as, d :: bs =>
    if c = d ∧ c ≠ 0 then passCommon (c :: beforea) (d :: beforeb) as bs
    else (⟨beforea, c :: as⟩, ⟨beforeb, d :: bs⟩)
  | as, bs => (⟨beforea, as⟩, ⟨beforeb, bs⟩)

/-- Both pointers go back while the first has a digit in front of it. -/
def backToDigits : Bytes → Bytes → Bytes → Bytes → Place × Place
  | c :: beforea, d :: beforeb, as, bs =>
    if idigit c then backToDigits beforea beforeb (c :: as) (d :: bs)
    else (⟨c :: beforea, as⟩, ⟨d :: beforeb, bs⟩)
  | beforea, beforeb, as, bs => (⟨beforea, as⟩, ⟨beforeb, bs⟩)

/-- The digits that are the same are passed over. -/
def passSameDigits : Bytes → Bytes → Bytes × Bytes
  | c :: as, d :: bs =>
    if idigit c ∧ c = d then passSameDigits as bs else (c :: as, d :: bs)
  | as, bs => (as, bs)

/-- The loop that finds out which digits go on longer. -/
def passDigits : Bytes → Bytes → Bytes × Bytes
  | c :: as, d :: bs => if idigit c ∧ idigit d then passDigits as bs else (c :: as, d :: bs)
  | as, bs => (as, bs)

/-- The comparison of two numbers that begin here; `cmp` is what is returned for equal ones. -/
def compareNumbers (sortdir mul cmp : ℤ) (as bs : Bytes) : ℤ :=
  let (as, bs) := passSameDigits (as.dropWhile (· = char '0')) (bs.dropWhile (· = char '0'))
  if idigit (charAt as) ∨ idigit (charAt bs) then
    let cmp := mul * ((charAt as).toNat - (charAt bs).toNat)
    let (as, bs) := passDigits as bs
    if idigit (charAt as) ∧ ¬ idigit (charAt bs) then mul * sortdir
    else if idigit (charAt bs) ∧ ¬ idigit (charAt as) then -mul * sortdir
    else sortdir * cmp
  else sortdir * cmp

/-- A minus sign in front of a digit. -/
def negativeAt (s : Bytes) : Bool := charAt s = char '-' && idigit (charAt s.tail)

/-- The numeric part of `eltpcmp`. -/
def compareNumeric (sortdir : ℤ) (signed : Bool) (cmp : ℤ) (as bs : Place) : ℤ :=
  let (as, bs) := passCommon as.before bs.before as.rest bs.rest
  if signed ∧ negativeAt as.rest ∧ idigit (charAt bs.rest) then sortdir * -1
  else if signed ∧ negativeAt bs.rest ∧ idigit (charAt as.rest) then sortdir * 1
  else if idigit (charAt as.rest) ∨ idigit (charAt bs.rest) then
    let (as, bs) := backToDigits as.before bs.before as.rest bs.rest
    let mul := if signed ∧ as.before.head? = some (char '-') then -1 else 1
    if idigit (charAt as.rest) ∧ idigit (charAt bs.rest) then
      compareNumbers sortdir mul cmp as.rest bs.rest
    else sortdir * cmp
  else sortdir * cmp

/-- The part of `eltpcmp` behind the scan of strings with a length. -/
def comparePlaces (flags : SortFlags) (as bs : Place) : ℤ :=
  let (as, bs) := if flags.sortnobslash then passBackslashes as.rest.length as bs else (as, bs)
  let cmp := strcoll as.rest bs.rest
  match flags.sortnumeric with
  | .off => flags.sortdir * cmp
  | .numeric => compareNumeric flags.sortdir false cmp as bs
  | .signed => compareNumeric flags.sortdir true cmp as bs

/-- `eltpcmp`. -/
def eltpcmp (flags : SortFlags) (ae be : SortElt) : ℤ :=
  if ae.recorded || be.recorded then
    let len :=
      if ae.recorded then
        if be.recorded && be.cmp.length < ae.cmp.length then be.cmp.length else ae.cmp.length
      else be.cmp.length
    let (cmpa, cmpb, laststart) :=
      lengthScan (ae.recorded && be.recorded) len ae.cmp be.cmp 0 0
    if charAt cmpa = charAt cmpb ∧ ae.len ≠ be.len then
      if ae.recorded then
        if be.recorded then (ae.len - be.len) * flags.sortdir else flags.sortdir
      else -flags.sortdir
    else
      comparePlaces flags ⟨(ae.cmp.take laststart).reverse, ae.cmp.drop laststart⟩
        ⟨(be.cmp.take laststart).reverse, be.cmp.drop laststart⟩
  else comparePlaces flags ⟨[], ae.cmp⟩ ⟨[], be.cmp⟩

end Bsh.Shell

/-!
# Numbers in a sort

The values of digits, and the part of `eltpcmp` that compares two numbers: without leading zeros the
longer one is greater, and of two with one length the first digit that differs decides.
-/

namespace Bsh.Shell

open Bsh.Library List

/-! ## Values of digits -/

theorem idigit_iff {c : UInt8} : idigit c = true ↔ 48 ≤ c.toNat ∧ c.toNat ≤ 57 := by
  rw [idigit, Bool.and_eq_true, decide_eq_true_eq, decide_eq_true_eq, UInt8.le_iff_toNat_le,
    UInt8.le_iff_toNat_le]
  rfl

variable {ra rb x y : Bytes} (value : ℕ)

theorem digitsFrom_append (front back : Bytes) :
    digitsFrom value (front ++ back) = digitsFrom (digitsFrom value front) back := by
  unfold digitsFrom
  rw [foldl_append]

theorem digitsFrom_cons (c : UInt8) (digits : Bytes) :
    digitsFrom value (c :: digits) = digitsFrom (value * 10 + (c.toNat - 48)) digits := by
  rfl

theorem digitsFrom_bounds {digits : Bytes} (h : ∀ c ∈ digits, idigit c = true) :
    value * 10 ^ digits.length ≤ digitsFrom value digits ∧
      digitsFrom value digits < (value + 1) * 10 ^ digits.length := by
  induction digits generalizing value with
  | nil =>
    have hvalue : digitsFrom value [] = value := rfl
    rw [hvalue, length_nil, Nat.pow_zero]
    omega
  | cons c digits ih =>
    have hdigit := idigit_iff.mp (h c mem_cons_self)
    obtain ⟨hlow, hhigh⟩ := ih _ fun d hd ↦
      h d (mem_cons_of_mem _ hd)
    rw [digitsFrom_cons, length_cons, Nat.pow_succ']
    generalize 10 ^ digits.length = power at hlow hhigh ⊢
    have hdown : value * (10 * power) ≤ (value * 10 + (c.toNat - 48)) * power := by
      rw [← Nat.mul_assoc]
      exact Nat.mul_le_mul_right _ (Nat.le_add_right ..)
    have hup : (value * 10 + (c.toNat - 48) + 1) * power ≤ (value + 1) * (10 * power) := by
      rw [← Nat.mul_assoc]
      exact Nat.mul_le_mul_right _ (by omega)
    exact ⟨hdown.trans hlow, Nat.lt_of_lt_of_le hhigh hup⟩

theorem digitsFrom_lt_of_length (hx : ∀ c ∈ x, idigit c = true)
    (hy : ∀ c ∈ y, idigit c = true) (hzero : y.head? ≠ some (char '0'))
    (hless : x.length < y.length) : digitsFrom 0 x < digitsFrom 0 y := by
  cases y with
  | nil => exact absurd hless (Nat.not_lt_zero _)
  | cons e y =>
    have hdigit := idigit_iff.mp (hy e mem_cons_self)
    have hne : e.toNat ≠ 48 := fun h ↦
      hzero (congrArg some (UInt8.toNat_inj.mp (h.trans rfl)))
    have hlow := (digitsFrom_bounds (0 * 10 + (e.toNat - 48)) fun d hd ↦
      hy d (mem_cons_of_mem _ hd)).1
    calc digitsFrom 0 x < (0 + 1) * 10 ^ x.length := (digitsFrom_bounds 0 hx).2
      _ ≤ (0 + 1) * 10 ^ y.length :=
          Nat.mul_le_mul_left _ (Nat.pow_le_pow_right (by decide) (Nat.le_of_lt_succ hless))
      _ ≤ (0 * 10 + (e.toNat - 48)) * 10 ^ y.length := Nat.mul_le_mul_right _ (by omega)
      _ ≤ digitsFrom 0 (e :: y) := hlow

theorem digitsFrom_lt_of_head (common : Bytes) {d e : UInt8}
    (hx : ∀ c ∈ d :: x, idigit c = true) (hy : ∀ c ∈ e :: y, idigit c = true)
    (hlength : x.length = y.length) (hless : d.toNat < e.toNat) :
    digitsFrom 0 (common ++ d :: x) < digitsFrom 0 (common ++ e :: y) := by
  rw [digitsFrom_append, digitsFrom_append, digitsFrom_cons, digitsFrom_cons]
  generalize digitsFrom 0 common = value
  have hd := idigit_iff.mp (hx d mem_cons_self)
  have hhigh := (digitsFrom_bounds (value * 10 + (d.toNat - 48)) fun c hc ↦
    hx c (mem_cons_of_mem _ hc)).2
  have hlow := (digitsFrom_bounds (value * 10 + (e.toNat - 48)) fun c hc ↦
    hy c (mem_cons_of_mem _ hc)).1
  calc _ < (value * 10 + (d.toNat - 48) + 1) * 10 ^ x.length := hhigh
    _ ≤ (value * 10 + (e.toNat - 48)) * 10 ^ x.length := Nat.mul_le_mul_right _ (by omega)
    _ = (value * 10 + (e.toNat - 48)) * 10 ^ y.length := by rw [hlength]
    _ ≤ _ := hlow

theorem digitsFrom_dropZeros (digits : Bytes) :
    digitsFrom 0 (digits.dropWhile (· = char '0')) = digitsFrom 0 digits := by
  induction digits with
  | nil => rfl
  | cons c digits ih =>
    by_cases hzero : c = char '0'
    · rw [dropWhile_cons, if_pos (decide_eq_true hzero), ih, hzero]
      rfl
    · rw [dropWhile_cons, if_neg (Bool.eq_false_iff.mp (decide_eq_false hzero))]

/-! ## The comparison of numbers -/

theorem charAt_append (hx : x ≠ []) (rest : Bytes) : charAt (x ++ rest) = charAt x := by
  cases x with
  | nil => exact absurd rfl hx
  | cons c x => rfl

theorem idigit_charAt (hx : ∀ c ∈ x, idigit c = true) (hne : x ≠ []) :
    idigit (charAt x) = true := by
  cases x with
  | nil => exact absurd rfl hne
  | cons c x => exact hx c mem_cons_self

theorem passSameDigits_spec (hx : ∀ c ∈ x, idigit c = true) (hra : idigit (charAt ra) = false) (hrb : idigit (charAt rb) = false) :
    ∃ common x' y', x = common ++ x' ∧ y = common ++ y' ∧
      passSameDigits (x ++ ra) (y ++ rb) = (x' ++ ra, y' ++ rb) ∧
      ∀ d ∈ x'.head?, ∀ e ∈ y'.head?, d ≠ e := by
  induction x generalizing y with
  | nil =>
    refine ⟨[], [], y, rfl, rfl, ?_, nofun⟩
    cases ra with
    | nil => cases y <;> rfl
    | cons c ra =>
      cases hback : y ++ rb with
      | nil => rfl
      | cons d back =>
        rw [nil_append, passSameDigits, if_neg]
        rintro ⟨hdigit, _⟩
        exact absurd hdigit (Bool.eq_false_iff.mp hra)
  | cons c x ih =>
    cases y with
    | nil =>
      refine ⟨[], c :: x, [], rfl, rfl, ?_, fun _ _ ↦ nofun⟩
      cases rb with
      | nil => rfl
      | cons d rb =>
        rw [nil_append, cons_append, passSameDigits, if_neg]
        rintro ⟨hdigit, rfl⟩
        exact absurd hdigit (Bool.eq_false_iff.mp hrb)
    | cons d y =>
      rw [cons_append, cons_append, passSameDigits]
      by_cases heq : c = d
      · rw [if_pos ⟨hx c mem_cons_self, heq⟩]
        obtain ⟨common, x', y', rfl, rfl, hpass, hdiffer⟩ :=
          ih (y := y) fun e he ↦ hx e (mem_cons_of_mem _ he)
        exact ⟨c :: common, x', y', rfl, congrArg (· :: _) heq.symm, hpass, hdiffer⟩
      · rw [if_neg fun h ↦ heq h.2]
        refine ⟨[], c :: x, d :: y, rfl, rfl, rfl, ?_⟩
        intro e he f hf
        rw [← Option.some.inj he, ← Option.some.inj hf]
        exact heq

theorem passDigits_spec (hx : ∀ c ∈ x, idigit c = true)
    (hy : ∀ c ∈ y, idigit c = true) (hra : idigit (charAt ra) = false)
    (hrb : idigit (charAt rb) = false) :
    passDigits (x ++ ra) (y ++ rb) = (x.drop y.length ++ ra, y.drop x.length ++ rb) := by
  induction x generalizing y with
  | nil =>
    cases ra with
    | nil => cases y <;> rfl
    | cons c ra =>
      rw [drop_nil, length_nil, drop_zero]
      cases hback : y ++ rb with
      | nil => rfl
      | cons d back =>
        rw [nil_append, passDigits, if_neg]
        rintro ⟨hdigit, _⟩
        exact absurd hdigit (Bool.eq_false_iff.mp hra)
  | cons c x ih =>
    cases y with
    | nil =>
      cases rb with
      | nil => rfl
      | cons d rb =>
        rw [nil_append, cons_append, passDigits, if_neg]
        · rfl
        · rintro ⟨_, hdigit⟩
          exact absurd hdigit (Bool.eq_false_iff.mp hrb)
    | cons d y =>
      rw [cons_append, cons_append, passDigits,
        if_pos ⟨hx c mem_cons_self, hy d mem_cons_self⟩]
      exact ih (fun e he ↦ hx e (mem_cons_of_mem _ he))
        fun e he ↦ hy e (mem_cons_of_mem _ he)

theorem dropZeros_append {rest : Bytes} (hrest : idigit (charAt rest) = false) :
    (x ++ rest).dropWhile (· = char '0') = x.dropWhile (· = char '0') ++ rest := by
  induction x with
  | nil =>
    cases rest with
    | nil => rfl
    | cons c rest =>
      have hzero : c ≠ char '0' := by
        rintro rfl
        exact absurd hrest (by decide : ¬ idigit (char '0') = false)
      rw [nil_append, dropWhile_cons, if_neg (Bool.eq_false_iff.mp (decide_eq_false hzero))]
      rfl
  | cons c x ih =>
    rw [cons_append, dropWhile_cons, dropWhile_cons]
    by_cases hzero : c = char '0'
    · rw [if_pos (decide_eq_true hzero), if_pos (decide_eq_true hzero), ih]
    · rw [if_neg (Bool.eq_false_iff.mp (decide_eq_false hzero)),
        if_neg (Bool.eq_false_iff.mp (decide_eq_false hzero))]
      rfl

theorem dropZeros_head (x : Bytes) : (x.dropWhile (· = char '0')).head? ≠ some (char '0') := by
  intro hhead
  have hfalse := List.head?_dropWhile_not (· = char '0') x
  rw [hhead] at hfalse
  exact absurd hfalse (by decide)

/-- The values decide, and equal ones leave the result of the collation. -/
theorem compareNumbers_spec (cmp : ℤ) (hx : ∀ c ∈ x, idigit c = true)
    (hy : ∀ c ∈ y, idigit c = true) (hra : idigit (charAt ra) = false)
    (hrb : idigit (charAt rb) = false) :
    digitsFrom 0 x = digitsFrom 0 y ∧ compareNumbers 1 1 cmp (x ++ ra) (y ++ rb) = cmp ∨
      Agrees (compareNumbers 1 1 cmp (x ++ ra) (y ++ rb)) (digitsFrom 0 x) (digitsFrom 0 y) := by
  rw [compareNumbers, dropZeros_append hra, dropZeros_append hrb, ← digitsFrom_dropZeros x,
    ← digitsFrom_dropZeros y]
  have hx' : ∀ c ∈ x.dropWhile (· = char '0'), idigit c = true := fun c hc ↦
    hx c ((dropWhile_sublist _).subset hc)
  have hy' : ∀ c ∈ y.dropWhile (· = char '0'), idigit c = true := fun c hc ↦
    hy c ((dropWhile_sublist _).subset hc)
  have hxzero := dropZeros_head x
  have hyzero := dropZeros_head y
  generalize x.dropWhile (· = char '0') = x at hx' hxzero ⊢
  generalize y.dropWhile (· = char '0') = y at hy' hyzero ⊢
  obtain ⟨common, x', y', rfl, rfl, hpass, hdiffer⟩ := passSameDigits_spec hx' (y := y) hra hrb
  have hx'' : ∀ c ∈ x', idigit c = true := fun c hc ↦ hx' c (mem_append_right _ hc)
  have hy'' : ∀ c ∈ y', idigit c = true := fun c hc ↦ hy' c (mem_append_right _ hc)
  rw [hpass]
  dsimp only
  rw [passDigits_spec hx'' hy'' hra hrb]
  rcases Nat.lt_trichotomy x'.length y'.length with hless | heq | hmore
  · have hlonger : y'.drop x'.length ≠ [] := fun h ↦
      absurd (List.drop_eq_nil_iff.mp h) (Nat.not_le_of_lt hless)
    have hdigit : idigit (charAt (y'.drop x'.length ++ rb)) = true := by
      rw [charAt_append hlonger]
      exact idigit_charAt (fun c hc ↦ hy'' c (mem_of_mem_drop hc)) hlonger
    have hne : y' ≠ [] := ne_nil_of_length_pos (Nat.zero_lt_of_lt hless)
    have hfirst : idigit (charAt (y' ++ rb)) = true := by
      rw [charAt_append hne]
      exact idigit_charAt hy'' hne
    rw [if_pos (.inr hfirst), drop_of_length_le (Nat.le_of_lt hless), nil_append,
      if_neg fun h ↦ absurd h.1 (Bool.eq_false_iff.mp hra),
      if_pos ⟨hdigit, Bool.eq_false_iff.mp hra⟩]
    have hlength : (common ++ x').length < (common ++ y').length := by
      rw [length_append, length_append]
      omega
    exact .inr (.inl ⟨by decide, digitsFrom_lt_of_length hx' hy' hyzero hlength⟩)
  · cases x' with
    | nil =>
      obtain rfl := eq_nil_of_length_eq_zero heq.symm
      left
      rw [if_neg]
      · exact ⟨rfl, Int.one_mul _⟩
      · rintro (h | h)
        · exact absurd h (Bool.eq_false_iff.mp hra)
        · exact absurd h (Bool.eq_false_iff.mp hrb)
    | cons d x' =>
      cases y' with
      | nil => cases heq
      | cons e y' =>
        have hne : d.toNat ≠ e.toNat := fun h ↦ hdiffer d rfl e rfl (UInt8.toNat_inj.mp h)
        rw [if_pos (.inl (hx'' d mem_cons_self)), drop_of_length_le heq.ge,
          drop_of_length_le heq.le, nil_append, nil_append,
          if_neg fun h ↦ absurd h.1 (Bool.eq_false_iff.mp hra),
          if_neg fun h ↦ absurd h.1 (Bool.eq_false_iff.mp hrb), Int.one_mul, Int.one_mul]
        right
        have hrest : x'.length = y'.length := Nat.succ.inj heq
        rcases Nat.lt_or_gt_of_ne hne with hless | hmore
        · refine .inl ⟨?_, digitsFrom_lt_of_head common hx'' hy'' hrest hless⟩
          change (d.toNat : ℤ) - e.toNat < 0
          omega
        · refine .inr ⟨?_, digitsFrom_lt_of_head common hy'' hx'' hrest.symm hmore⟩
          change 0 < (d.toNat : ℤ) - e.toNat
          omega
  · have hlonger : x'.drop y'.length ≠ [] := fun h ↦
      absurd (List.drop_eq_nil_iff.mp h) (Nat.not_le_of_lt hmore)
    have hdigit : idigit (charAt (x'.drop y'.length ++ ra)) = true := by
      rw [charAt_append hlonger]
      exact idigit_charAt (fun c hc ↦ hx'' c (mem_of_mem_drop hc)) hlonger
    have hne : x' ≠ [] := ne_nil_of_length_pos (Nat.zero_lt_of_lt hmore)
    have hfirst : idigit (charAt (x' ++ ra)) = true := by
      rw [charAt_append hne]
      exact idigit_charAt hx'' hne
    rw [if_pos (.inl hfirst), drop_of_length_le (Nat.le_of_lt hmore), nil_append,
      if_pos ⟨hdigit, Bool.eq_false_iff.mp hrb⟩]
    have hlength : (common ++ y').length < (common ++ x').length := by
      rw [length_append, length_append]
      omega
    exact .inr (.inr ⟨by decide, digitsFrom_lt_of_length hy' hx' hxzero hlength⟩)

end Bsh.Shell
