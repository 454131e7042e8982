import Mathlib.Tactic.Ring
import Mathlib.Tactic.Linarith
import Mathlib.Tactic.Positivity
import Bsh.Shell.BraceScan

/-!
# Ranges of numbers in braces

Where the numbers in braces fit into the types of the source, `zstrtol` reads them as they are, and
`hasbraces` and `xpandbraces` agree with the manual about the range.
-/

namespace Bsh.Shell

open Bsh.Library List

/-! ## Integers -/

/-- The text of an integer. -/
inductive IntegerText : ℤ → Bytes → Prop where
  | plain {digits : Bytes} (hne : digits ≠ []) (hdigits : ∀ c ∈ digits, idigit c = true) :
    IntegerText (digitsNumber digits) digits
  | signed {c : UInt8} {digits : Bytes} (hc : isDash c = true) (hne : digits ≠ [])
    (hdigits : ∀ c ∈ digits, idigit c = true) :
    IntegerText (-(digitsNumber digits : ℤ)) (c :: digits)

variable {digits inside s : Bytes} {f : NumberForm} {n : ℤ} (rest : Bytes)

theorem integerAt_eq_some {text rest : Bytes} (h : integerAt text = some (n, rest)) :
    ∃ s, text = s ++ rest ∧ IntegerText n s := by
  have hdigits (t : Bytes) : ∀ c ∈ t.takeWhile idigit, idigit c = true :=
    fun c hc ↦ mem_takeWhile_imp hc
  unfold integerAt at h
  by_cases hdash : text.head?.any isDash = true
  · simp only [hdash, if_true] at h
    by_cases hempty : (text.tail.takeWhile idigit).isEmpty = true
    · rw [if_pos hempty] at h
      cases h
    · rw [if_neg hempty] at h
      cases text with
      | nil => cases hdash
      | cons c text =>
        cases h
        refine ⟨c :: text.takeWhile idigit, ?_, .signed hdash ?_ (hdigits text)⟩
        · exact congrArg (c :: ·) List.takeWhile_append_dropWhile.symm
        · simpa using hempty
  · simp only [hdash, Bool.false_eq_true, if_false] at h
    by_cases hempty : (text.takeWhile idigit).isEmpty = true
    · rw [if_pos hempty] at h
      cases h
    · rw [if_neg hempty] at h
      cases h
      refine ⟨_, List.takeWhile_append_dropWhile.symm, .plain ?_ (hdigits text)⟩
      simpa using hempty

theorem idigit_head (hne : digits ≠ []) (hdigits : ∀ c ∈ digits, idigit c = true) :
    ∃ c t, digits = c :: t ∧ idigit c = true := by
  cases digits with
  | nil => exact absurd rfl hne
  | cons c t => exact ⟨c, t, rfl, hdigits c mem_cons_self⟩

set_option maxRecDepth 4000 in
theorem not_digit_of_dash : ∀ c, isDash c = true →
    idigit c = false ∧ inblank c = false ∧ c ≠ char '0' ∧ c ≠ char '.' :=
  Bytes.forall_byte (by decide)

theorem dropWhile_digits {rest : Bytes} (hdigits : ∀ c ∈ digits, idigit c = true)
    (hrest : rest.head?.any idigit = false) : (digits ++ rest).dropWhile idigit = rest := by
  rw [dropWhile_append_of_pos hdigits]
  cases rest with
  | nil => rfl
  | cons c rest => exact dropWhile_cons_of_neg (Bool.eq_false_iff.mp hrest)

theorem zstrtol_digits (hdigits : ∀ c ∈ digits, idigit c = true) {rest : Bytes}
    (hrest : rest.head?.any idigit = false) (neg : Bool)
    (hfits : fitsZlong (if neg then -digitsNumber digits else digitsNumber digits) = true)
    (hblank : s.dropWhile inblank = s) (hneg : s.head?.any isDash = neg)
    (htail : (if neg || headIs '+' s then s.tail else s) = digits ++ rest) :
    zstrtol s 10 =
      some (BitVec.ofInt 64 (if neg then -digitsNumber digits else digitsNumber digits), rest) := by
  have hbounds : digitsNumber digits < 2 ^ 63 ∨ neg = true ∧ digitsNumber digits = 2 ^ 63 := by
    unfold fitsZlong at hfits
    rw [Bool.and_eq_true, decide_eq_true_eq, decide_eq_true_eq] at hfits
    cases neg with
    | false =>
      simp only [Bool.false_eq_true, if_false] at hfits
      exact Or.inl (by omega)
    | true =>
      have hle : digitsNumber digits ≤ 2 ^ 63 := by omega
      rcases hle.lt_or_eq with hlt | heq
      · exact Or.inl hlt
      · exact Or.inr ⟨rfl, heq⟩
  have hsmall : digitsFrom 0 digits < 2 ^ 64 := by
    change digitsNumber digits < 2 ^ 64
    rcases hbounds with hlt | ⟨-, heq⟩ <;> omega
  have hloop := zstrtolDigits_digits hdigits hsmall hrest
  have hvalue : digitsFrom 0 digits = digitsNumber digits := rfl
  have hzero : BitVec.ofNat 64 0 = (0 : Zlong) := rfl
  rw [hvalue, hzero] at hloop
  unfold zstrtol zstrtolUnderscore
  simp only [hblank, hneg, htail]
  have hbase (t : Bytes) : (if (10 : ℕ) = 0 then announcedBase t else (10, t)) = (10, t) := rfl
  have hrange : ¬ ((10 : ℕ) < 2 ∨ 36 < 10) := by norm_num
  simp only [hbase, hrange, if_false, hloop]
  have hkeep : ((BitVec.ofNat 64 (digitsNumber digits)).msb &&
      (!neg || decide (BitVec.ofNat 64 (digitsNumber digits) ≠ BitVec.intMin 64))) = false := by
    rcases hbounds with hlt | ⟨rfl, heq⟩
    · rw [BitVec.msb_eq_decide, BitVec.toNat_ofNat, Nat.mod_eq_of_lt (by omega)]
      rw [decide_eq_false (by omega), Bool.false_and]
    · rw [heq]
      decide
  simp only [Bool.not_false, Bool.true_and, hkeep, Bool.false_eq_true, if_false]
  cases neg with
  | false => simp
  | true =>
    rw [if_pos rfl, if_pos rfl, BitVec.ofInt_neg]
    simp

section IntegerText

variable {n : ℤ} {s rest : Bytes} (h : IntegerText n s)
include h

theorem skipNumber_integer (hrest : rest.head?.any idigit = false) :
    skipNumber (s ++ rest) = rest := by
  unfold skipNumber
  cases h with
  | plain hne hdigits =>
    obtain ⟨c, t, rfl, hc⟩ := idigit_head hne hdigits
    have hdash : (c :: t ++ rest).head?.any isDash = false := (not_dash_of_digit c hc).1
    rw [if_neg (by rw [hdash]; exact Bool.false_ne_true)]
    exact dropWhile_digits hdigits hrest
  | @signed c digits hc hne hdigits =>
    have hif : (c :: (digits ++ rest)).head?.any isDash = true := hc
    rw [cons_append, if_pos hif]
    exact dropWhile_digits hdigits hrest

theorem zstrtol_integer (hfits : fitsZlong n = true) (hrest : rest.head?.any idigit = false) :
    zstrtol (s ++ rest) 10 = some (BitVec.ofInt 64 n, rest) := by
  cases h with
  | plain hne hdigits =>
    obtain ⟨c, t, ht, hc⟩ := idigit_head hne hdigits
    obtain ⟨hdash, hblank, hplus, -⟩ := not_dash_of_digit c hc
    refine zstrtol_digits hdigits hrest false hfits ?_ ?_ ?_
    · rw [ht, cons_append, dropWhile_cons_of_neg (by simp [hblank])]
    · rw [ht]
      exact hdash
    · rw [ht, if_neg]
      simp [headIs, hplus]
  | @signed c digits hc hne hdigits =>
    obtain ⟨-, hblank, -, -⟩ := not_digit_of_dash c hc
    refine zstrtol_digits hdigits hrest true hfits ?_ hc rfl
    rw [cons_append, dropWhile_cons_of_neg (by simp [hblank])]

theorem getLast_integer : s.getLast?.any idigit = true := by
  have hlast {digits : Bytes} (hne : digits ≠ []) (hdigits : ∀ c ∈ digits, idigit c = true) :
      digits.getLast?.any idigit = true := by
    rw [List.getLast?_eq_some_getLast hne]
    exact hdigits _ (getLast_mem hne)
  cases h with
  | plain hne hdigits => exact hlast hne hdigits
  | signed hc hne hdigits =>
    rw [List.getLast?_cons_of_ne_nil hne]
    exact hlast hne hdigits

theorem leadingZero_integer : leadingZero (s ++ rest) = leadingZero s := by
  cases h with
  | plain hne hdigits =>
    obtain ⟨c, t, rfl, hc⟩ := idigit_head hne hdigits
    have hdash := (not_dash_of_digit c hc).1
    simp [leadingZero, headIs, hdash]
  | signed hc hne hdigits =>
    obtain ⟨c, t, rfl, -⟩ := idigit_head hne hdigits
    simp [leadingZero, headIs]

end IntegerText

/-! ## The test of `hasbraces` -/

theorem afterDots_dots : afterDots (char '.' :: char '.' :: rest) = some rest := rfl

/-- The text of a range of numbers. -/
inductive NumberText : NumberForm → Bytes → Prop where
  | two {n1 n2 : ℤ} {s1 s2 : Bytes} (h1 : IntegerText n1 s1) (h2 : IntegerText n2 s2) :
    NumberText
      ⟨n1, n2, 1, if leadingZero s1 then s1.length else if leadingZero s2 then s2.length else 0⟩
      (s1 ++ char '.' :: char '.' :: s2)
  | three {n1 n2 n3 : ℤ} {s1 s2 s3 : Bytes} (h1 : IntegerText n1 s1) (h2 : IntegerText n2 s2)
    (h3 : IntegerText n3 s3) (hne : n3 ≠ 0) :
    NumberText
      ⟨n1, n2, n3, if leadingZero s1 then s1.length else if leadingZero s2 then s2.length
        else if leadingZero s3 then s3.length else 0⟩
      (s1 ++ char '.' :: char '.' :: (s2 ++ char '.' :: char '.' :: s3))

theorem before_append (s rest : Bytes) : before (s ++ rest) rest = s := by
  unfold before
  rw [length_append, Nat.add_sub_cancel, take_left]

theorem numberForm_eq_some (h : numberForm inside = some f) :
    NumberText f inside := by
  unfold numberForm at h
  split at h
  · cases h
  next n1 rest1 hn1 =>
  obtain ⟨s1, rfl, h1⟩ := integerAt_eq_some hn1
  split at h
  · cases h
  next text2 hdots2 =>
  obtain rfl := afterDots_eq_some hdots2
  split at h
  · cases h
  next n2 rest2 hn2 =>
  obtain ⟨s2, rfl, h2⟩ := integerAt_eq_some hn2
  split at h
  · next hend =>
    subst hend
    cases h
    have hzero : leadingZero [] = false := rfl
    unfold formWidth
    rw [before_append, before_append, leadingZero_integer h1, leadingZero_integer h2, hzero,
      append_nil]
    exact .two h1 h2
  · split at h
    · cases h
    next text3 hdots3 =>
    obtain rfl := afterDots_eq_some hdots3
    split at h
    · cases h
    next n3 rest3 hn3 =>
    obtain ⟨s3, rfl, h3⟩ := integerAt_eq_some hn3
    split at h
    · next hend =>
      obtain ⟨rfl, hne⟩ := hend
      cases h
      unfold formWidth
      rw [before_append, before_append, leadingZero_integer h1, leadingZero_integer h2,
        leadingZero_integer h3, append_nil]
      exact .three h1 h2 h3 hne
    · cases h

theorem digit_dots : (char '.' :: rest).head?.any idigit = false := rfl

theorem digit_outbrace : (outbraceToken :: rest).head?.any idigit = false := rfl

theorem getLast_append_integer (h : IntegerText n s) (front : Bytes) :
    (front ++ s).getLast?.any idigit = true := by
  have hlast := getLast_integer h
  cases hs : s.getLast? with
  | none =>
    rw [hs] at hlast
    cases hlast
  | some c =>
    rw [List.getLast?_append, hs, Option.some_or]
    rwa [hs] at hlast

/-- `hasbraces` takes every documented range of numbers. -/
theorem braceNumbers_text (h : NumberText f inside) (back : Bytes) :
    (braceNumbers (inside ++ outbraceToken :: back)).1 = true := by
  have hlast {n : ℤ} {s : Bytes} (hs : IntegerText n s) (front : Bytes) :
      ((front ++ s ++ outbraceToken :: back).head?.any idigit ||
        (before (front ++ s ++ outbraceToken :: back) (outbraceToken :: back)).getLast?.any
          idigit) = true := by
    rw [before_append, getLast_append_integer hs, Bool.or_true]
  unfold braceNumbers
  cases h with
  | @two n1 n2 s1 s2 h1 h2 =>
    have hall := hlast h2 (s1 ++ [char '.', char '.'])
    simp only [append_assoc, cons_append, nil_append] at hall ⊢
    rw [skipNumber_integer h1 (digit_dots _), afterDots_dots]
    dsimp only
    rw [skipNumber_integer h2 (digit_outbrace back), if_pos ⟨rfl, hall⟩]
  | @three n1 n2 n3 s1 s2 s3 h1 h2 h3 _ =>
    have hall := hlast h3 (s1 ++ char '.' :: char '.' :: (s2 ++ [char '.', char '.']))
    simp only [append_assoc, cons_append, nil_append] at hall ⊢
    rw [skipNumber_integer h1 (digit_dots _), afterDots_dots]
    dsimp only
    rw [skipNumber_integer h2 (digit_dots _), if_neg (by simp [char, outbraceToken]), afterDots_dots]
    dsimp only
    rw [skipNumber_integer h3 (digit_outbrace back)]
    exact decide_eq_true ⟨rfl, hall⟩

/-! ## The values of a range -/

/-- The lowest number of a range. -/
def NumberForm.lowest (f : NumberForm) : ℤ :=
  if f.n1 ≤ f.n2 then f.n1
  else f.n1 - ((f.n1 - f.n2).toNat / f.n3.natAbs : ℕ) * f.n3.natAbs

/-- The numbers fit into a `zlong` and an `int`, and so does what the loop over them computes. -/
structure NumberForm.Fits (f : NumberForm) : Prop where
  n1 : fitsZlong f.n1 = true
  n2 : fitsZlong f.n2 = true
  n3 : f.n3.natAbs < 2 ^ 31
  difference : f.n1 ≤ f.n2 → 1 < f.n3.natAbs → fitsZlong (f.n2 - f.n1) = true
  below : fitsZlong (f.lowest - f.n3.natAbs) = true

theorem numbersDown_eq {rstart rincr : ℤ} (hrincr : 0 < rincr) (count : ℕ) {rend : ℤ}
    (hlast : rstart ≤ rend - count * rincr) (hstop : rend - (count + 1) * rincr < rstart)
    (hrend : rend < 2 ^ 63) (hfits : -2 ^ 63 ≤ rend - (count + 1) * rincr) {turns : ℕ}
    (hturns : count + 1 < turns) :
    numbersDown rstart rincr turns rend =
      some ((List.range (count + 1)).map fun (k : ℕ) ↦ rend - k * rincr) := by
  induction count generalizing rend turns with
  | zero =>
    obtain ⟨turns, rfl⟩ : ∃ n, turns = n + 2 := ⟨turns - 2, by omega⟩
    push_cast at hlast hstop hfits
    have hnext : fitsZlong (rend - rincr) = true := by
      unfold fitsZlong
      rw [Bool.and_eq_true, decide_eq_true_eq, decide_eq_true_eq]
      constructor <;> linarith
    rw [numbersDown, if_neg (by linarith), if_pos hnext, numbersDown, if_pos (by linarith)]
    simp
  | succ count ih =>
    obtain ⟨turns, rfl⟩ : ∃ n, turns = n + 1 := ⟨turns - 1, by omega⟩
    push_cast at hlast hstop hfits
    have hcount : (0 : ℤ) ≤ count * rincr := by positivity
    have hnext : fitsZlong (rend - rincr) = true := by
      unfold fitsZlong
      rw [Bool.and_eq_true, decide_eq_true_eq, decide_eq_true_eq]
      constructor <;> linarith
    rw [numbersDown, if_neg (by linarith), if_pos hnext,
      ih (by linarith) (by linarith) (by linarith) (by linarith) (by omega), Option.map_some,
      range_succ_eq_map (n := count + 1), map_cons, map_map]
    refine congrArg some (List.cons_eq_cons.mpr ⟨by simp, map_congr_left fun k _ ↦ ?_⟩)
    simp only [Function.comp_apply, Nat.succ_eq_add_one]
    push_cast
    ring

theorem reverse_descending (n d : ℤ) (count : ℕ) :
    ((List.range (count + 1)).map fun (k : ℕ) ↦ n + count * d - k * d).reverse =
      (List.range (count + 1)).map fun (k : ℕ) ↦ n + k * d := by
  have hreverse : (List.range (count + 1)).reverse = (List.range (count + 1)).map (count - ·) := by
    refine ext_getElem (by simp) fun k _ _ ↦ ?_
    simp
  rw [← map_reverse, hreverse, map_map]
  refine map_congr_left fun k hk ↦ ?_
  have hle : k ≤ count := Nat.lt_succ_iff.mp (List.mem_range.mp hk)
  rw [Function.comp_apply, Nat.cast_sub hle]
  ring

theorem steps_eq {low high : ℤ} (hle : low ≤ high) {d : ℕ} (hd : 0 < d) :
    ∃ count : ℕ, (high - low).toNat / d = count ∧ count ≤ (high - low).toNat ∧
      low + count * d ≤ high ∧ high < low + (count + 1) * d ∧
        high - (high - low) % d = low + count * d := by
  have htoNat : ((high - low).toNat : ℤ) = high - low := by omega
  have hdiv : (high - low) / d = ((high - low).toNat / d : ℕ) := by
    rw [← htoNat, Int.natCast_div]
    rfl
  have hmod := Int.emod_add_mul_ediv (high - low) d
  have hnonneg := Int.emod_nonneg (high - low) (b := (d : ℤ)) (by omega)
  have hlt := Int.emod_lt_of_pos (high - low) (b := (d : ℤ)) (by omega)
  rw [hdiv] at hmod
  refine ⟨_, rfl, Nat.div_le_self _ _, by linarith, by linarith, by linarith⟩

/-- The loop of `xpandbraces` computes the documented numbers. -/
theorem numberValues_eq (hfits : f.Fits) (hne : f.n3 ≠ 0) :
    numberValues f.n1 f.n2 f.n3 = some f.numbers := by
  have hn1 := hfits.n1
  have hn2 := hfits.n2
  have hdifference := hfits.difference
  have hbelow := hfits.below
  unfold fitsZlong at hn1 hn2 hbelow
  rw [Bool.and_eq_true, decide_eq_true_eq, decide_eq_true_eq] at hn1 hn2 hbelow
  have hstep : (if f.n3 < 0 then (-f.n3, true) else (f.n3, false)) =
      ((f.n3.natAbs : ℤ), decide (f.n3 < 0)) := by
    split
    · next h => rw [decide_eq_true h, Int.ofNat_natAbs_of_nonpos h.le]
    · next h => rw [decide_eq_false h, Int.natAbs_of_nonneg (not_lt.mp h)]
  have hd : 0 < f.n3.natAbs := by omega
  unfold NumberForm.lowest at hbelow
  unfold numberValues NumberForm.numbers
  rw [hstep]
  dsimp only
  generalize hdname : f.n3.natAbs = d at hd hdifference hbelow ⊢
  by_cases hle : f.n1 ≤ f.n2
  · obtain ⟨count, hcount, hsteps, hmax, hnext, haligned⟩ := steps_eq hle hd
    rw [if_pos hle] at hbelow
    rw [if_neg (not_lt.mpr hle), if_pos hle, hcount]
    have hnone : (decide (1 < (d : ℤ)) && !fitsZlong (f.n2 - f.n1)) = false := by
      by_cases h : 1 < d
      · rw [hdifference hle h, Bool.not_true, Bool.and_false]
      · rw [decide_eq_false (by omega), Bool.false_and]
    have hend : (if decide (1 < (d : ℤ)) = true then f.n2 - (f.n2 - f.n1) % d else f.n2) =
        f.n1 + count * d := by
      split
      · exact haligned
      · next h =>
        obtain rfl : d = 1 := by
          have hnot : ¬ (1 < (d : ℤ)) := by simpa using h
          omega
        omega
    have hle' : (count : ℤ) ≤ count * d := by
      exact_mod_cast Nat.le_mul_of_pos_right count hd
    rw [if_neg (by rw [hnone]; exact Bool.false_ne_true), hend,
      numbersDown_eq (by omega) count (by linarith) (by linarith) (by linarith)
        (by linarith) (by omega), Option.map_some, reverse_descending]
    by_cases hrev : f.n3 < 0
    · rw [if_pos hrev, if_pos (decide_eq_true hrev), ← reverse_descending, reverse_reverse]
    · rw [if_neg hrev, if_neg (by simp [hrev])]
  · have hlt := not_le.mp hle
    obtain ⟨count, hcount, hsteps, hmax, hnext, -⟩ := steps_eq hlt.le hd
    rw [if_neg hle, hcount] at hbelow
    rw [if_pos hlt, if_neg hle, hcount]
    dsimp only
    rw [Bool.false_and, if_neg Bool.false_ne_true, if_neg Bool.false_ne_true,
      numbersDown_eq (by omega) count (by linarith) (by linarith) (by linarith)
        (by linarith) (by omega), Option.map_some]
    by_cases hrev : f.n3 < 0
    · rw [if_pos hrev, if_neg (by simp [hrev])]
    · rw [if_neg hrev, if_pos (by simp [hrev])]

/-! ## The range of `xpandbraces` -/

theorem integer_plain (h : IntegerText n s) :
    ∀ c ∈ s, (c ≠ inbraceToken ∧ c ≠ outbraceToken ∧ c ≠ commaToken) ∧ c ≠ char '.' := by
  have hdigit {c : UInt8} (hc : idigit c = true) := And.intro (unbraced_digit c hc)
    (not_dash_of_digit c hc).2.2.2
  cases h with
  | plain hne hdigits => exact fun c hc ↦ hdigit (hdigits c hc)
  | signed hdash hne hdigits =>
    rintro c hc
    rcases List.mem_cons.mp hc with rfl | hc
    · exact ⟨unbraced_dash c hdash, (not_digit_of_dash c hdash).2.2.2⟩
    · exact hdigit (hdigits c hc)

theorem countForms_plain
    (hs : ∀ c ∈ s, (c ≠ inbraceToken ∧ c ≠ outbraceToken ∧ c ≠ commaToken) ∧ c ≠ char '.')
    (rest : Bytes) : countForms 0 (s ++ rest) = countForms 0 rest := by
  induction s with
  | nil => rfl
  | cons c s ih =>
    obtain ⟨⟨hopening, hclosing, hcomma⟩, hdot⟩ := hs c mem_cons_self
    have hrest := ih fun d hd ↦ hs d (mem_cons_of_mem c hd)
    rw [← hrest, cons_append]
    cases s ++ rest with
    | nil => simp [countForms, hcomma]
    | cons d t =>
      rw [countForms, if_neg hopening, if_neg hclosing, if_pos rfl, if_neg hcomma,
        if_neg fun h ↦ hdot h.1]

theorem countForms_dots :
    countForms 0 (char '.' :: char '.' :: rest) =
      ((countForms 0 rest).1, (countForms 0 rest).2 + 1) := by
  rw [countForms, if_neg (by decide), if_neg (by decide), if_pos rfl, if_neg (by decide),
    if_pos ⟨rfl, rfl⟩]

theorem countForms_integer (h : IntegerText n s) : countForms 0 s = (0, 0) := by
  have hplain := countForms_plain (integer_plain h) []
  rw [append_nil] at hplain
  exact hplain

theorem toInt_of_fits (h : fitsZlong n = true) : (BitVec.ofInt 64 n).toInt = n := by
  unfold fitsZlong at h
  rw [Bool.and_eq_true, decide_eq_true_eq, decide_eq_true_eq] at h
  rw [BitVec.toInt_ofInt]
  exact Int.bmod_eq_of_le (by omega) (by omega)

theorem integer_ne_nil (h : IntegerText n s) : s.length ≠ 0 := by
  cases h with
  | plain hne _ => exact fun hlength ↦ hne (List.length_eq_zero_iff.mp hlength)
  | signed _ _ _ => exact Nat.succ_ne_zero _

theorem length_append_ne (h : IntegerText n s) (rest : Bytes) :
    rest.length ≠ (s ++ rest).length := by
  have hne := integer_ne_nil h
  rw [length_append]
  omega

/-- `xpandbraces` reads a documented range of numbers as it is. -/
theorem numberRange_text (h : NumberText f inside)
    (hfits : f.Fits) (back : Bytes) :
    numberRange (countForms 0 inside).2 (inside ++ outbraceToken :: back) (outbraceToken :: back) =
      some (some (f.numbers.map (zeroPadded f.width))) := by
  have hn1 := hfits.n1
  have hn2 := hfits.n2
  have hn3 := hfits.n3
  cases h with
  | @two n1 n2 s1 s2 h1 h2 =>
    have hvalues := numberValues_eq hfits (one_ne_zero)
    have htext : s1 ++ char '.' :: char '.' :: s2 ++ outbraceToken :: back =
        s1 ++ char '.' :: char '.' :: (s2 ++ outbraceToken :: back) := by simp
    have hzero : leadingZero [] = false := rfl
    unfold numberRange
    rw [htext, zstrtol_integer h1 hn1 (digit_dots _)]
    dsimp only
    rw [if_neg (length_append_ne h1 _), afterDots_dots]
    dsimp only
    rw [zstrtol_integer h2 hn2 (digit_outbrace back)]
    dsimp only
    rw [if_neg (length_append_ne h2 _), if_pos rfl]
    dsimp only
    rw [if_neg (by decide), toInt_of_fits hn1, toInt_of_fits hn2, hvalues, Option.map_some,
      before_append, before_append, leadingZero_integer h1, leadingZero_integer h2, hzero]
    rfl
  | @three n1 n2 n3 s1 s2 s3 h1 h2 h3 hne =>
    have hvalues := numberValues_eq hfits hne
    dsimp only at hn1 hn2 hn3 hvalues
    have htext : s1 ++ char '.' :: char '.' :: (s2 ++ char '.' :: char '.' :: s3) ++
          outbraceToken :: back =
        s1 ++ char '.' :: char '.' ::
          (s2 ++ char '.' :: char '.' :: (s3 ++ outbraceToken :: back)) := by simp
    have hdotdot : (countForms 0
        (s1 ++ char '.' :: char '.' :: (s2 ++ char '.' :: char '.' :: s3))).2 = 2 := by
      rw [countForms_plain (integer_plain h1), countForms_dots, countForms_plain (integer_plain h2),
        countForms_dots, countForms_integer h3]
    have hn3' : fitsZlong n3 = true := by
      unfold fitsZlong
      rw [Bool.and_eq_true, decide_eq_true_eq, decide_eq_true_eq]
      omega
    have hint : ((BitVec.ofInt 64 n3).setWidth 32).toInt = n3 := by
      rw [BitVec.toInt_setWidth, BitVec.toNat_ofInt, Int.bmod_def]
      split <;> omega
    have hlength : (char '.' :: char '.' :: (s3 ++ outbraceToken :: back)).length ≠
        (outbraceToken :: back).length := by
      simp
      omega
    unfold numberRange
    rw [htext, hdotdot, zstrtol_integer h1 hn1 (digit_dots _)]
    dsimp only
    rw [if_neg (length_append_ne h1 _), afterDots_dots]
    dsimp only
    rw [zstrtol_integer h2 hn2 (digit_dots _)]
    dsimp only
    rw [if_neg (length_append_ne h2 _), if_neg hlength, if_pos rfl, afterDots_dots]
    dsimp only
    rw [zstrtol_integer h3 hn3' (digit_outbrace back)]
    dsimp only
    rw [hint, if_pos ⟨rfl, hne⟩]
    dsimp only
    rw [if_neg (by omega), toInt_of_fits hn1, toInt_of_fits hn2, hvalues, Option.map_some,
      before_append, before_append, before_append, leadingZero_integer h1, leadingZero_integer h2,
      leadingZero_integer h3]

end Bsh.Shell
