import Bsh.Shell.Metafy

/-!
# The order of strings

`ztrcmp` of `utils.c`, by which the nodes of a hash table are sorted.  It is meant to compare the
unmetafied strings as unsigned bytes, with the end of a string below all of them.  The bytes that
it compares are of type `char`, whose sign depends on the machine, and behind a common `Meta` it
compares the encoded bytes.  What it returns depends on the first difference of the two strings
alone, and so does whether that is right.
-/

namespace Bsh.Shell

open Bsh.Library

/-! ## `ztrcmp` -/

/-- The value of a `char` as an `int`. -/
def charValue (signedChar : Bool) (c : UInt8) : ℤ :=
  if signedChar && 0x80 ≤ c.toNat then c.toNat - 256 else c.toNat

/-- `c1` and `c2`, read at the first difference. -/
def ztrcmpValue (signedChar : Bool) : Bytes → Option ℤ
  | [] => none
  | c :: rest =>
    if c = 0 then some (-1)
    else if charValue signedChar c = metaByte.toNat then
      rest.head?.map fun d ↦ (BitVec.ofInt 32 (charValue signedChar d) ^^^ 32).toInt
    else some (charValue signedChar c)

/-- The value that is returned. -/
def signOf (c1 c2 : ℤ) : ℤ := if c1 = c2 then 0 else if c1 < c2 then -1 else 1

/-- `ztrcmp`, of two strings in memory. -/
def ztrcmp (signedChar : Bool) : Bytes → Bytes → Option ℤ
  | c :: s1, d :: s2 =>
    if c ≠ 0 ∧ c = d then ztrcmp signedChar s1 s2
    else
      match ztrcmpValue signedChar (c :: s1), ztrcmpValue signedChar (d :: s2) with
      | some c1, some c2 => some (signOf c1 c2)
      | _, _ => none
  | _, _ => none

/-! ## The order that is meant -/

/-- The sign of a comparison. -/
def orderSign : Ordering → ℤ
  | .lt => -1
  | .eq => 0
  | .gt => 1

/-- What the two strings have where they differ first; a string that ends there has nothing. -/
def firstDifference : Bytes → Bytes → Option (Option UInt8 × Option UInt8)
  | [], [] => none
  | [], d :: _ => some (none, some d)
  | c :: _, [] => some (some c, none)
  | c :: s1, d :: s2 => if c = d then firstDifference s1 s2 else some (some c, some d)

/-- The place of a byte or of the end in the order. -/
def bytePlace : Option UInt8 → ℤ
  | none => -1
  | some c => c.toNat

theorem orderSign_compare_byte {c d : UInt8} (h : c ≠ d) :
    orderSign (compare c d) = signOf c.toNat d.toNat := by
  have hne : (c.toNat : ℤ) ≠ d.toNat := fun heq ↦ h (UInt8.toNat_inj.mp (Int.ofNat_inj.mp heq))
  change orderSign (compareOfLessAndEq c d) = _
  rw [signOf, if_neg hne, compareOfLessAndEq, if_neg h]
  by_cases hlt : c < d
  · have hnat : (c.toNat : ℤ) < d.toNat := Int.ofNat_lt.mpr (UInt8.lt_iff_toNat_lt.mp hlt)
    rw [if_pos hlt, if_pos hnat]
    rfl
  · have hnat : ¬(c.toNat : ℤ) < d.toNat :=
      fun hnat ↦ hlt (UInt8.lt_iff_toNat_lt.mpr (Int.ofNat_lt.mp hnat))
    rw [if_neg hlt, if_neg hnat]
    rfl

theorem orderSign_compare (s1 s2 : Bytes) :
    orderSign (compare s1 s2) =
      match firstDifference s1 s2 with
      | none => 0
      | some (a, b) => signOf (bytePlace a) (bytePlace b) := by
  induction s1 generalizing s2 with
  | nil =>
    cases s2 with
    | nil => rfl
    | cons d s2 =>
      have hlt : (-1 : ℤ) < d.toNat := by omega
      simp [firstDifference, bytePlace, signOf, orderSign, hlt, hlt.ne]
  | cons c s1 ih =>
    cases s2 with
    | nil =>
      have hgt : ¬(c.toNat : ℤ) < -1 := by omega
      have hne : (c.toNat : ℤ) ≠ -1 := by omega
      simp [firstDifference, bytePlace, signOf, orderSign, hgt, hne]
    | cons d s2 =>
      rw [firstDifference, List.compare_cons_cons]
      by_cases h : c = d
      · subst h
        rw [if_pos rfl, Std.compare_self, Ordering.eq_then, ih]
      · rw [if_neg h]
        have hthen : (compare c d).then (compare s1 s2) = compare c d := by
          cases hcompare : compare c d with
          | eq => exact absurd (Std.LawfulEqOrd.eq_of_compare hcompare) h
          | lt => rfl
          | gt => rfl
        rw [hthen]
        exact orderSign_compare_byte h

/-! ## What `ztrcmp` compares -/

set_option maxRecDepth 4000 in
theorem imeta_iff : ∀ c, imeta c = true ↔ c.toNat = 0 ∨ (0x83 ≤ c.toNat ∧ c.toNat ≤ 0xA2) :=
  Bytes.forall_byte (by decide)

set_option maxRecDepth 4000 in
/-- Two blocks of metafied bytes change places when they are encoded. -/
theorem flip_toNat : ∀ c, imeta c = true → (c ^^^ 32).toNat =
    if c.toNat = 0 then 32 else if c.toNat ≤ 0x9F then c.toNat + 32 else c.toNat - 32 :=
  Bytes.forall_byte (by decide)

set_option maxRecDepth 4000 in
/-- `*++s ^ 32` with bytes whose values are not negative. -/
theorem unflip_value : ∀ c, imeta c = true →
    (BitVec.ofInt 32 (charValue false (c ^^^ 32)) ^^^ 32).toInt = c.toNat :=
  Bytes.forall_byte (by decide)

/-- What is compared at the first difference, unless both strings have a pair there. -/
def headValue (signedChar : Bool) : Option UInt8 → ℤ
  | none => -1
  | some c =>
    if imeta c && signedChar then charValue true metaByte else charValue signedChar c

/-- What is returned for the first difference. -/
def firstSign (signedChar : Bool) : Option UInt8 → Option UInt8 → ℤ
  | some c, some d =>
    if imeta c && imeta d then
      signOf (charValue signedChar (c ^^^ 32)) (charValue signedChar (d ^^^ 32))
    else signOf (headValue signedChar (some c)) (headValue signedChar (some d))
  | a, b => signOf (headValue signedChar a) (headValue signedChar b)

section Values

variable (signedChar : Bool) {c d : UInt8} (s s' rest rest' : Bytes)

theorem ztrcmpValue_end : ztrcmpValue signedChar (0 :: rest) = some (-1) := rfl

theorem ztrcmpValue_plain (hc : imeta c = false) :
    ztrcmpValue signedChar (c :: rest) = some (charValue signedChar c) := by
  have hzero := not_imeta_ne_zero hc
  have hmeta : charValue signedChar c ≠ metaByte.toNat := by
    intro h
    have hlt := c.toNat_lt
    have hspecial := (imeta_iff c).not.mp (by simp [hc])
    simp only [charValue, metaByte] at h
    split at h
    · omega
    · simp at h
      omega
  rw [ztrcmpValue, if_neg hzero, if_neg hmeta]

theorem ztrcmpValue_special (hc : imeta c = true) :
    ztrcmpValue signedChar (metaByte :: (c ^^^ 32) :: rest) =
      some (headValue signedChar (some c)) := by
  cases signedChar with
  | true =>
    rw [ztrcmpValue, if_neg (by decide), if_neg (by decide), headValue, hc]
    rfl
  | false =>
    rw [ztrcmpValue, if_neg (by decide), if_pos (by decide), List.head?_cons, Option.map_some,
      unflip_value c hc, headValue, Bool.and_false]
    rfl

theorem ztrcmpValue_metafied (c : UInt8) :
    ztrcmpValue signedChar (metafied (c :: s) ++ rest) = some (headValue signedChar (some c)) := by
  cases hc : imeta c with
  | true =>
    rw [metafied_cons_special hc]
    exact ztrcmpValue_special signedChar _ hc
  | false =>
    rw [metafied_cons_plain hc, ztrcmpValue_plain signedChar _ hc, headValue, hc]
    rfl

theorem ztrcmp_of_ne {a b : UInt8} {v w : ℤ} (hne : a ≠ 0 → a ≠ b)
    (hv : ztrcmpValue signedChar (a :: s) = some v)
    (hw : ztrcmpValue signedChar (b :: s') = some w) :
    ztrcmp signedChar (a :: s) (b :: s') = some (signOf v w) := by
  rw [ztrcmp, if_neg (fun h ↦ hne h.1 h.2), hv, hw]

theorem ztrcmp_skip {a : UInt8} (ha : a ≠ 0) :
    ztrcmp signedChar (a :: s) (a :: s') = ztrcmp signedChar s s' := by
  rw [ztrcmp, if_pos ⟨ha, rfl⟩]

/-- The text of a byte starts with that byte or with `Meta`. -/
theorem metafied_starts (c : UInt8) : ∃ t,
    metafied (c :: s) ++ rest = (if imeta c then metaByte else c) :: t := by
  cases hc : imeta c with
  | true => exact ⟨_, metafied_cons_special hc s rest⟩
  | false => exact ⟨_, metafied_cons_plain hc s rest⟩

theorem starts_ne_zero (c : UInt8) : (if imeta c then metaByte else c) ≠ 0 := by
  cases hc : imeta c with
  | true =>
    rw [if_pos rfl]
    decide
  | false => exact not_imeta_ne_zero hc

theorem ztrcmp_end_byte (c : UInt8) :
    ztrcmp signedChar (0 :: rest) (metafied (c :: s) ++ rest') =
      some (firstSign signedChar none (some c)) := by
  have hvalue := ztrcmpValue_metafied signedChar s rest' c
  obtain ⟨t, ht⟩ := metafied_starts s rest' c
  rw [ht] at hvalue ⊢
  exact ztrcmp_of_ne signedChar _ _ (fun h ↦ absurd rfl h) rfl hvalue

theorem ztrcmp_byte_end (c : UInt8) :
    ztrcmp signedChar (metafied (c :: s) ++ rest') (0 :: rest) =
      some (firstSign signedChar (some c) none) := by
  have hvalue := ztrcmpValue_metafied signedChar s rest' c
  obtain ⟨t, ht⟩ := metafied_starts s rest' c
  rw [ht] at hvalue ⊢
  exact ztrcmp_of_ne signedChar _ _ (fun _ ↦ starts_ne_zero c) hvalue rfl

theorem ztrcmp_byte_byte (h : c ≠ d) :
    ztrcmp signedChar (metafied (c :: s) ++ rest) (metafied (d :: s') ++ rest') =
      some (firstSign signedChar (some c) (some d)) := by
  cases hboth : imeta c && imeta d with
  | true =>
    rw [Bool.and_eq_true] at hboth
    have hflip : c ^^^ 32 ≠ d ^^^ 32 := fun heq ↦ h (UInt8.xor_left_inj 32 |>.mp heq)
    rw [metafied_cons_special hboth.1, metafied_cons_special hboth.2,
      ztrcmp_skip signedChar _ _ (by decide), firstSign, hboth.1, hboth.2]
    exact ztrcmp_of_ne signedChar _ _ (fun _ ↦ hflip)
      (ztrcmpValue_plain signedChar _ (metaCode.flip_special c hboth.1))
      (ztrcmpValue_plain signedChar _ (metaCode.flip_special d hboth.2))
  | false =>
    have hvalue := ztrcmpValue_metafied signedChar s rest c
    have hvalue' := ztrcmpValue_metafied signedChar s' rest' d
    obtain ⟨t, ht⟩ := metafied_starts s rest c
    obtain ⟨t', ht'⟩ := metafied_starts s' rest' d
    rw [ht] at hvalue ⊢
    rw [ht'] at hvalue' ⊢
    have hne : (if imeta c then metaByte else c) ≠ if imeta d then metaByte else d := by
      cases hc : imeta c with
      | true =>
        have hd : imeta d = false := by simpa [hc] using hboth
        rw [hd]
        exact (not_imeta_ne_meta hd).symm
      | false =>
        cases hd : imeta d with
        | true => exact not_imeta_ne_meta hc
        | false => exact h
    rw [firstSign, hboth]
    exact ztrcmp_of_ne signedChar _ _ (fun _ ↦ hne) hvalue hvalue'

end Values

variable (signedChar : Bool)

/-- The common bytes of two strings are passed over. -/
theorem ztrcmp_metafied (s1 s2 rest1 rest2 : Bytes) :
    ztrcmp signedChar (metafied s1 ++ 0 :: rest1) (metafied s2 ++ 0 :: rest2) =
      match firstDifference s1 s2 with
      | none => some 0
      | some (a, b) => some (firstSign signedChar a b) := by
  induction s1 generalizing s2 with
  | nil =>
    cases s2 with
    | nil =>
      exact ztrcmp_of_ne signedChar _ _ (fun h ↦ absurd rfl h) (ztrcmpValue_end signedChar rest1)
        (ztrcmpValue_end signedChar rest2)
    | cons d s2 => exact ztrcmp_end_byte signedChar s2 rest1 _ d
  | cons c s1 ih =>
    cases s2 with
    | nil => exact ztrcmp_byte_end signedChar s1 rest2 _ c
    | cons d s2 =>
      rw [firstDifference]
      by_cases h : c = d
      · subst h
        rw [if_pos rfl, ← ih s2]
        cases hc : imeta c with
        | true =>
          rw [metafied_cons_special hc, metafied_cons_special hc,
            ztrcmp_skip signedChar _ _ (by decide), ztrcmp_skip signedChar _ _ (flip_ne_zero hc)]
        | false =>
          rw [metafied_cons_plain hc, metafied_cons_plain hc,
            ztrcmp_skip signedChar _ _ (not_imeta_ne_zero hc)]
      · rw [if_neg h]
        exact ztrcmp_byte_byte signedChar s1 s2 _ _ h

/-! ## When that is the order -/

/-- The end of a string, or an ASCII byte but the null byte. -/
def endOrAscii (o : Option UInt8) : Bool := o.all fun c ↦ 0 < c && c < 0x80

def highByte (o : Option UInt8) : Bool := o.any (0x80 ≤ ·)

/-- The null byte, and a byte that its `Meta` is below of as a signed `char`. -/
def nulBelow (a b : Option UInt8) : Bool :=
  a = some 0 && b.any fun d ↦ (0 < d && d < 0x80) || 0xA3 ≤ d

/-- Two metafied bytes that are encoded in the other order. -/
def flipSwaps (a b : Option UInt8) : Bool :=
  a.any (fun c ↦ 0x83 ≤ c && c ≤ 0x9F) && b.any fun d ↦ 0xA0 ≤ d && d ≤ 0xA2

/-- The first differences that are compared right. -/
def ordersFirst (signedChar : Bool) (a b : Option UInt8) : Bool :=
  !flipSwaps a b && !flipSwaps b a &&
    (!signedChar || (endOrAscii a && endOrAscii b) || (highByte a && highByte b) ||
      nulBelow a b || nulBelow b a)

/-- Two strings differ first where `ztrcmp` compares right, or not at all. -/
def ordersRight (signedChar : Bool) (s1 s2 : Bytes) : Bool :=
  (firstDifference s1 s2).all fun p ↦ ordersFirst signedChar p.1 p.2

theorem signOf_eq_iff {a b c d : ℤ} :
    signOf a b = signOf c d ↔ (a = b ↔ c = d) ∧ (a < b ↔ c < d) := by
  unfold signOf
  grind

theorem charValue_eq (c : UInt8) :
    charValue signedChar c = if signedChar = true ∧ 0x80 ≤ c.toNat then (c.toNat : ℤ) - 256
      else c.toNat := by
  simp [charValue]

theorem ordersFirst_end (d : UInt8) :
    ordersFirst signedChar none (some d) = true ↔
      (signedChar = true → 0 < d.toNat ∧ d.toNat < 0x80) := by
  cases signedChar <;>
    simp [ordersFirst, endOrAscii, highByte, nulBelow, flipSwaps, UInt8.lt_iff_toNat_lt]

theorem ordersFirst_comm (a b : Option UInt8) :
    ordersFirst signedChar a b = ordersFirst signedChar b a := by
  simp only [ordersFirst]
  grind

theorem ordersFirst_bytes (c d : UInt8) :
    ordersFirst signedChar (some c) (some d) = true ↔
      ¬(0x83 ≤ c.toNat ∧ c.toNat ≤ 0x9F ∧ 0xA0 ≤ d.toNat ∧ d.toNat ≤ 0xA2) ∧
      ¬(0x83 ≤ d.toNat ∧ d.toNat ≤ 0x9F ∧ 0xA0 ≤ c.toNat ∧ c.toNat ≤ 0xA2) ∧
      (signedChar = true →
        (0 < c.toNat ∧ c.toNat < 0x80 ∧ 0 < d.toNat ∧ d.toNat < 0x80) ∨
        (0x80 ≤ c.toNat ∧ 0x80 ≤ d.toNat) ∨
        (c.toNat = 0 ∧ (0 < d.toNat ∧ d.toNat < 0x80 ∨ 0xA3 ≤ d.toNat)) ∨
        (d.toNat = 0 ∧ (0 < c.toNat ∧ c.toNat < 0x80 ∨ 0xA3 ≤ c.toNat))) := by
  have hzero : ∀ e : UInt8, e = 0 ↔ e.toNat = 0 := fun e ↦ UInt8.toNat_inj.symm
  cases signedChar <;>
    simp [ordersFirst, endOrAscii, highByte, nulBelow, flipSwaps, UInt8.lt_iff_toNat_lt,
      UInt8.le_iff_toNat_le, hzero] <;>
    omega

theorem firstSign_end (d : UInt8) :
    firstSign signedChar none (some d) = signOf (bytePlace none) (bytePlace (some d)) ↔
      ordersFirst signedChar none (some d) = true := by
  have hlt := d.toNat_lt
  have hmeta := imeta_iff d
  change signOf (headValue signedChar none) (headValue signedChar (some d)) = _ ↔ _
  rw [signOf_eq_iff, ordersFirst_end]
  simp only [headValue, bytePlace, charValue_eq, metaByte]
  cases signedChar <;> cases hd : imeta d <;> rw [hd] at hmeta <;> simp at hmeta ⊢ <;> omega

theorem signOf_swap (x y : ℤ) : signOf x y = -signOf y x := by
  unfold signOf
  grind

theorem firstSign_swap (a b : Option UInt8) :
    firstSign signedChar a b = -firstSign signedChar b a := by
  cases a with
  | none => cases b <;> exact signOf_swap _ _
  | some c =>
    cases b with
    | none => exact signOf_swap _ _
    | some d =>
      rw [firstSign, firstSign, Bool.and_comm]
      split
      · exact signOf_swap _ _
      · exact signOf_swap _ _

theorem firstSign_bytes {c d : UInt8} (h : c ≠ d) :
    firstSign signedChar (some c) (some d) = signOf (bytePlace (some c)) (bytePlace (some d)) ↔
      ordersFirst signedChar (some c) (some d) = true := by
  have hne : c.toNat ≠ d.toNat := fun heq ↦ h (UInt8.toNat_inj.mp heq)
  have hc := c.toNat_lt
  have hd := d.toNat_lt
  have hmetac := imeta_iff c
  have hmetad := imeta_iff d
  rw [ordersFirst_bytes, firstSign]
  simp only [headValue, bytePlace, charValue_eq, metaByte]
  cases hc' : imeta c with
  | true =>
    rw [hc'] at hmetac
    cases hd' : imeta d with
    | true =>
      rw [flip_toNat c hc', flip_toNat d hd', Bool.and_self, if_pos rfl, signOf_eq_iff]
      cases signedChar <;> simp at hmetac hmetad ⊢ <;> grind
    | false =>
      rw [hd'] at hmetad
      rw [Bool.and_false, if_neg Bool.false_ne_true, signOf_eq_iff]
      cases signedChar <;> simp at hmetac hmetad ⊢ <;> omega
  | false =>
    rw [hc'] at hmetac
    rw [Bool.false_and, if_neg Bool.false_ne_true, signOf_eq_iff]
    cases hd' : imeta d <;> rw [hd'] at hmetad <;> cases signedChar <;>
      simp at hmetac hmetad ⊢ <;> omega

/-- The values that are compared are in the order of the bytes. -/
theorem firstSign_iff {a b : Option UInt8} (h : a ≠ b) :
    firstSign signedChar a b = signOf (bytePlace a) (bytePlace b) ↔
      ordersFirst signedChar a b = true := by
  cases a with
  | none =>
    cases b with
    | none => exact absurd rfl h
    | some d => exact firstSign_end signedChar d
  | some c =>
    cases b with
    | none =>
      rw [firstSign_swap, signOf_swap, neg_inj, ordersFirst_comm]
      exact firstSign_end signedChar c
    | some d => exact firstSign_bytes signedChar fun heq ↦ h (congrArg some heq)

theorem firstDifference_ne {s1 s2 : Bytes} {a b : Option UInt8}
    (h : firstDifference s1 s2 = some (a, b)) : a ≠ b := by
  induction s1 generalizing s2 with
  | nil =>
    cases s2 with
    | nil => cases h
    | cons d s2 =>
      cases h
      simp
  | cons c s1 ih =>
    cases s2 with
    | nil =>
      cases h
      simp
    | cons d s2 =>
      rw [firstDifference] at h
      split at h
      · exact ih h
      · next hne =>
        cases h
        exact fun heq ↦ hne (Option.some.inj heq)

/-- `ztrcmp` returns the sign of the comparison of the unmetafied strings exactly where their first
difference is compared right. -/
theorem ztrcmp_iff (signedChar : Bool) (s1 s2 rest1 rest2 : Bytes) :
    ztrcmp signedChar (metafied s1 ++ 0 :: rest1) (metafied s2 ++ 0 :: rest2) =
        some (orderSign (compare s1 s2)) ↔
      ordersRight signedChar s1 s2 = true := by
  rw [ztrcmp_metafied, orderSign_compare, ordersRight]
  cases hfirst : firstDifference s1 s2 with
  | none => simp
  | some p =>
    rw [Option.some_inj, Option.all_some]
    exact firstSign_iff signedChar (firstDifference_ne hfirst)

/-- A byte that is encoded by subtraction is compared below one that is encoded by addition. -/
theorem ztrcmp_swapped :
    ztrcmp true (metafied [0x9F] ++ [0]) (metafied [0xA0] ++ [0]) ≠
        some (orderSign (compare ([0x9F] : Bytes) [0xA0])) ∧
      ztrcmp false (metafied [0x9F] ++ [0]) (metafied [0xA0] ++ [0]) ≠
        some (orderSign (compare ([0x9F] : Bytes) [0xA0])) := by
  constructor <;> decide

end Bsh.Shell
