import Bsh.Shell.BraceExpand
import Bsh.Shell.SortOrder

/-!
# Ranges of numbers as they are written

A range of numbers in braces with its texts, and what `xpandbraces` makes of it for any 64-bit ends:
the increment is whatever `zstrtol` leaves in an `int`, and the arithmetic of the loop may overflow.
A range of two digits is one of characters for the source.
-/

namespace Bsh.Shell

open Bsh.Library List

/-! ## Texts -/

/-- A number with its text. -/
structure WrittenNumber where
  value : ℤ
  text : Bytes
  spells : IntegerText value text

/-- The texts between the braces; an increment is not zero. -/
structure WrittenRange where
  start : WrittenNumber
  stop : WrittenNumber
  step : Option {n : WrittenNumber // n.value ≠ 0}

namespace WrittenRange

/-- The text of the increment, with the dots in front of it. -/
def stepText (r : WrittenRange) : Bytes :=
  match r.step with
  | none => []
  | some n => char '.' :: char '.' :: n.1.text

/-- What stands between the braces. -/
def text (r : WrittenRange) : Bytes :=
  r.start.text ++ char '.' :: char '.' :: (r.stop.text ++ r.stepText)

/-- The width of the first number that begins with a zero. -/
def width (r : WrittenRange) : ℕ :=
  if leadingZero r.start.text then r.start.text.length
  else if leadingZero r.stop.text then r.stop.text.length
  else
    match r.step with
    | none => 0
    | some n => if leadingZero n.1.text then n.1.text.length else 0

/-- The range as the manual has it. -/
def form (r : WrittenRange) : NumberForm where
  n1 := r.start.value
  n2 := r.stop.value
  n3 := match r.step with
    | none => 1
    | some n => n.1.value
  width := r.width

/-- The increment as the source has it: what `zstrtol` reads, as an `int`. -/
def increment (r : WrittenRange) : ℤ :=
  match r.step with
  | none => 1
  | some n => ((zstrtol n.1.text 10).getD (0, [])).1.setWidth 32 |>.toInt

/-- The range that the source has read. -/
def asRead (r : WrittenRange) : NumberForm := { r.form with n3 := r.increment }

theorem form_n3_ne_zero (r : WrittenRange) : r.form.n3 ≠ 0 := by
  unfold form
  split
  · exact one_ne_zero
  · next n _ => exact n.2

end WrittenRange

/-! ## Reading the numbers -/

/-- What the loop of `zstrtol` makes of digits does not depend on what follows them. -/
theorem zstrtolDigits_text {digits rest : Bytes} (hdigits : ∀ c ∈ digits, idigit c = true)
    (hrest : rest.head?.any idigit = false) (value : Zlong) (trunc : Bool) :
    zstrtolDigits 10 false (digits ++ rest) value trunc =
      ((zstrtolDigits 10 false digits value trunc).1,
        (zstrtolDigits 10 false digits value trunc).2.1, rest) := by
  induction digits generalizing value trunc with
  | nil =>
    cases rest with
    | nil => rfl
    | cons c rest =>
      have hnil : zstrtolDigits 10 false [] value trunc = (value, trunc, []) := rfl
      rw [nil_append, hnil, zstrtolDigits, if_neg (by simp), digitOf_other c hrest]
  | cons c digits ih =>
    obtain ⟨hdigit, -⟩ := digitOf_digit c (hdigits c mem_cons_self)
    have hnext := ih fun d hd ↦ hdigits d (mem_cons_of_mem c hd)
    rw [cons_append, zstrtolDigits, zstrtolDigits, if_neg (by simp), if_neg (by simp), hdigit]
    dsimp only
    split
    · exact hnext _ _
    · exact hnext _ _

theorem zstrtol_any {n : ℤ} {s rest : Bytes} (h : IntegerText n s)
    (hrest : rest.head?.any idigit = false) :
    zstrtol (s ++ rest) 10 = some (((zstrtol s 10).getD (0, [])).1, rest) := by
  have hbase (t : Bytes) : (if (10 : ℕ) = 0 then announcedBase t else (10, t)) = (10, t) := rfl
  have hrange : ¬ ((10 : ℕ) < 2 ∨ 36 < 10) := by norm_num
  cases h with
  | @plain digits hne hdigits =>
    obtain ⟨c, t, rfl, hc⟩ := idigit_head hne hdigits
    obtain ⟨hdash, hblank, hplus, -⟩ := not_dash_of_digit c hc
    have hstart (u : Bytes) : (c :: t ++ u).dropWhile inblank = c :: t ++ u := by
      rw [cons_append, dropWhile_cons_of_neg (by simp [hblank])]
    have hsign (u : Bytes) : (c :: t ++ u).head?.any isDash = false := hdash
    have hhead (u : Bytes) : headIs '+' (c :: t ++ u) = false := by simp [headIs, hplus]
    have hself := hstart []
    have hself' := hsign []
    have hself'' := hhead []
    rw [append_nil] at hself hself' hself''
    unfold zstrtol zstrtolUnderscore
    simp only [hstart, hsign, hhead, hself, hself', hself'', hbase, hrange, if_false,
      Bool.or_self, Bool.false_eq_true, zstrtolDigits_text hdigits hrest, Option.getD_some]
  | @signed c digits hc hne hdigits =>
    obtain ⟨-, hblank, -, -⟩ := not_digit_of_dash c hc
    have hstart (u : Bytes) : (c :: u).dropWhile inblank = c :: u :=
      dropWhile_cons_of_neg (by simp [hblank])
    have hsign (u : Bytes) : (c :: u).head?.any isDash = true := hc
    unfold zstrtol zstrtolUnderscore
    simp only [cons_append, hstart, hsign, Bool.true_or, if_true, tail_cons, hbase,
      hrange, if_false, zstrtolDigits_text hdigits hrest, Option.getD_some]

/-- An increment that fits into a `zlong` loses all but its low 32 bits. -/
theorem WrittenRange.increment_eq {r : WrittenRange} {n : {n : WrittenNumber // n.value ≠ 0}}
    (hstep : r.step = some n) (hfits : fitsZlong n.1.value = true) :
    r.increment = n.1.value.bmod (2 ^ 32) := by
  have hread := @zstrtol_integer _ _ [] n.1.spells hfits rfl
  rw [append_nil] at hread
  unfold increment
  rw [hstep]
  dsimp only
  rw [hread, Option.getD_some, BitVec.toInt_setWidth, BitVec.toNat_ofInt]
  have hmod : ((n.1.value % ↑(2 ^ 64 : ℕ)).toNat : ℤ) = n.1.value % 2 ^ 64 := by
    omega
  have hlow : n.1.value % 2 ^ 64 % (2 ^ 32 : ℕ) = n.1.value % (2 ^ 32 : ℕ) :=
    Int.emod_emod_of_dvd _ (by norm_num)
  rw [hmod, Int.bmod_def, Int.bmod_def, hlow]

variable (env : BraceEnv) (r : WrittenRange)

theorem countForms_written :
    (countForms 0 r.text).1 = 0 ∧ (countForms 0 r.text).2 = if r.step.isSome then 2 else 1 := by
  have hstop := countForms_plain (integer_plain r.stop.spells) r.stepText
  rw [WrittenRange.text, countForms_plain (integer_plain r.start.spells), countForms_dots, hstop]
  unfold WrittenRange.stepText
  cases r.step with
  | none => exact ⟨rfl, rfl⟩
  | some n =>
    rw [countForms_dots, countForms_integer n.1.spells]
    exact ⟨rfl, rfl⟩

/-- What the code for ranges of numbers does with any range whose ends fit. -/
theorem numberRange_written (hstart : fitsZlong r.start.value = true)
    (hstop : fitsZlong r.stop.value = true) (back : Bytes) :
    numberRange (countForms 0 r.text).2 (r.text ++ outbraceToken :: back) (outbraceToken :: back) =
      if r.increment = 0 then some none
      else if r.increment = -2 ^ 31 then none
      else (numberValues r.start.value r.stop.value r.increment).map fun values ↦
        some (values.map (zeroPadded r.width)) := by
  rw [(countForms_written r).2]
  obtain ⟨⟨a, sa, ha⟩, ⟨b, sb, hb⟩, step⟩ := r
  cases step with
  | none =>
    have htext : WrittenRange.text ⟨⟨a, sa, ha⟩, ⟨b, sb, hb⟩, none⟩ ++ outbraceToken :: back =
        sa ++ char '.' :: char '.' :: (sb ++ outbraceToken :: back) := by
      simp [WrittenRange.text, WrittenRange.stepText]
    have hzero : leadingZero [] = false := rfl
    have hincrement : WrittenRange.increment ⟨⟨a, sa, ha⟩, ⟨b, sb, hb⟩, none⟩ = 1 := rfl
    have hone : (1 : ℤ) ≠ 0 := one_ne_zero
    have hsmall : ¬ (1 : ℤ) = -2 ^ 31 := by norm_num
    rw [htext]
    unfold numberRange
    rw [zstrtol_integer ha hstart (digit_dots _)]
    dsimp only
    rw [if_neg (length_append_ne ha _), afterDots_dots]
    dsimp only
    rw [zstrtol_integer hb hstop (digit_outbrace back)]
    dsimp only
    rw [if_neg (length_append_ne hb _), if_pos rfl]
    dsimp only
    rw [if_neg hsmall, hincrement, if_neg hone, if_neg hsmall, toInt_of_fits hstart,
      toInt_of_fits hstop, before_append, before_append, leadingZero_integer ha,
      leadingZero_integer hb, hzero]
    rfl
  | some n =>
    obtain ⟨⟨k, sk, hk⟩, hne⟩ := n
    have htext : WrittenRange.text ⟨⟨a, sa, ha⟩, ⟨b, sb, hb⟩, some ⟨⟨k, sk, hk⟩, hne⟩⟩ ++
          outbraceToken :: back =
        sa ++ char '.' :: char '.' ::
          (sb ++ char '.' :: char '.' :: (sk ++ outbraceToken :: back)) := by
      simp [WrittenRange.text, WrittenRange.stepText]
    have hlength : (char '.' :: char '.' :: (sk ++ outbraceToken :: back)).length ≠
        (outbraceToken :: back).length := by
      simp
      omega
    have hdotdot : (if (some (⟨⟨k, sk, hk⟩, hne⟩ : {n : WrittenNumber // n.value ≠ 0})).isSome = true
        then 2 else 1) = 2 := rfl
    rw [htext]
    unfold numberRange
    rw [zstrtol_integer ha hstart (digit_dots _)]
    dsimp only
    rw [if_neg (length_append_ne ha _), afterDots_dots]
    dsimp only
    rw [zstrtol_integer hb hstop (digit_dots _)]
    dsimp only
    rw [if_neg (length_append_ne hb _), if_neg hlength, if_pos hdotdot, afterDots_dots]
    dsimp only
    rw [zstrtol_any hk (digit_outbrace back)]
    dsimp only
    have hincrement : WrittenRange.increment ⟨⟨a, sa, ha⟩, ⟨b, sb, hb⟩, some ⟨⟨k, sk, hk⟩, hne⟩⟩ =
      (((zstrtol sk 10).getD (0, [])).1.setWidth 32).toInt := rfl
    rw [hincrement]
    generalize (((zstrtol sk 10).getD (0, [])).1.setWidth 32).toInt = rincr
    by_cases hzero : rincr = 0
    · rw [if_neg fun h ↦ h.2 hzero, if_pos hzero]
    · rw [if_pos ⟨rfl, hzero⟩, if_neg hzero]
      dsimp only
      rw [toInt_of_fits hstart, toInt_of_fits hstop, before_append, before_append, before_append,
        leadingZero_integer ha, leadingZero_integer hb, leadingZero_integer hk]
      rfl

/-! ## Two digits -/

set_option maxRecDepth 4000 in
theorem plain_digit : ∀ c, idigit c = true → itok c = false ∧ c ≠ metaByte ∧ c ≤ 0x7F :=
  Bytes.forall_byte (by decide)

theorem braceChar_digit {c : UInt8} (hc : idigit c = true) (rest : Bytes) :
    braceChar env (c :: rest) = some (some c.toNat, some rest) := by
  obtain ⟨htok, hmeta, hascii⟩ := plain_digit c hc
  have hchar : mbMetacharlenconv env.charset env.multibyte c rest env.charset.initial =
      some (1, some c.toNat, env.charset.initial) := by
    unfold mbMetacharlenconv
    rw [if_pos (by rw [decide_eq_true hascii, Bool.or_true]), if_neg hmeta]
  rw [braceChar, if_neg (by rw [htok]; exact Bool.false_ne_true), hchar]
  rfl

theorem braceChar_dash {c : UInt8} (hc : isDash c = true) (rest : Bytes) :
    ∃ wc, braceChar env (c :: rest) = some (some wc, some rest) := by
  have hdash (more : Bytes) : mbMetacharlenconv env.charset env.multibyte (char '-') more
      env.charset.initial = some (1, some (char '-').toNat, env.charset.initial) := by
    unfold mbMetacharlenconv
    rw [if_pos (by rw [decide_eq_true (by decide), Bool.or_true]), if_neg (by decide)]
  unfold isDash at hc
  rw [Bool.or_eq_true, decide_eq_true_eq, decide_eq_true_eq] at hc
  rcases hc with rfl | rfl
  · refine ⟨(char '-').toNat, ?_⟩
    rw [braceChar, if_neg (by decide), hdash]
    rfl
  · have htoken : ztokens.getD (dashToken.toNat - poundToken.toNat) 0 = char '-' := by decide
    refine ⟨(char '-').toNat, ?_⟩
    rw [braceChar, if_pos (by decide), htoken, hdash]
    rfl

/-- A range of numbers is none of characters, unless both ends are single digits. -/
theorem bracechardots_written (back : Bytes) :
    bracechardots env (r.text ++ outbraceToken :: back) = some none ∨
      ∃ c d, idigit c = true ∧ idigit d = true ∧ r.start.text = [c] ∧ r.stop.text = [d] ∧
        r.step = none ∧
        bracechardots env (r.text ++ outbraceToken :: back) = some (some (c.toNat, d.toNat)) := by
  obtain ⟨⟨a, sa, ha⟩, ⟨b, sb, hb⟩, step⟩ := r
  have htext : WrittenRange.text ⟨⟨a, sa, ha⟩, ⟨b, sb, hb⟩, step⟩ ++ outbraceToken :: back =
      sa ++ char '.' :: char '.' :: (sb ++ (WrittenRange.stepText ⟨⟨a, sa, ha⟩, ⟨b, sb, hb⟩, step⟩ ++
        outbraceToken :: back)) := by
    simp [WrittenRange.text]
  rw [htext]
  generalize hmore : WrittenRange.stepText _ ++
    outbraceToken :: back = more
  have hdots {c : UInt8} (hc : idigit c = true) (t : Bytes) : afterDots (c :: t) = none := by
    cases t with
    | nil => rfl
    | cons d t => rw [afterDots, if_neg fun h ↦ (not_dash_of_digit c hc).2.2.2 h.1]
  have hbehind {c : UInt8} (hc : idigit c = true) (t : Bytes) :
      (c :: t).head? ≠ some outbraceToken := by
    rw [List.head?_cons, Ne, Option.some.injEq]
    exact (unbraced_digit c hc).2.1
  cases ha with
  | @signed c digits hc hne hdigits =>
    obtain ⟨e, t, rfl, he⟩ := idigit_head hne hdigits
    obtain ⟨wc, hwc⟩ := braceChar_dash env hc _
    refine .inl ?_
    unfold bracechardots
    rw [cons_append, List.head?_cons, if_neg (by simp [(unbraced_dash c hc).1]), hwc]
    dsimp only
    rw [cons_append, hdots he]
  | @plain digits hne hdigits =>
    obtain ⟨c, t, rfl, hc⟩ := idigit_head hne hdigits
    have hopening : ¬ (c :: t ++ char '.' :: char '.' :: (sb ++ more)).head? =
        some inbraceToken := by simp [(unbraced_digit c hc).1]
    unfold bracechardots
    rw [if_neg hopening, cons_append, braceChar_digit env hc]
    dsimp only
    cases t with
    | cons e t =>
      rw [cons_append, hdots (hdigits e (by simp))]
      exact .inl rfl
    | nil =>
      rw [nil_append, afterDots_dots]
      dsimp only
      cases hb with
      | @signed d digits' hd hne' hdigits' =>
        obtain ⟨e, t, rfl, he⟩ := idigit_head hne' hdigits'
        obtain ⟨wc, hwc⟩ := braceChar_dash env hd (e :: t ++ more)
        refine .inl ?_
        rw [cons_append, if_neg (by simp [(unbraced_dash d hd).1]), hwc]
        dsimp only
        rw [cons_append, if_neg (hbehind he _)]
      | @plain digits' hne' hdigits' =>
        obtain ⟨d, u, rfl, hd⟩ := idigit_head hne' hdigits'
        rw [cons_append, if_neg (by simp [(unbraced_digit d hd).1]), braceChar_digit env hd]
        dsimp only
        cases u with
        | cons e u =>
          rw [cons_append, if_neg (hbehind (hdigits' e (by simp)) _)]
          exact .inl rfl
        | nil =>
          rw [nil_append, ← hmore]
          cases step with
          | none => exact .inr ⟨c, d, hc, hd, rfl, rfl, rfl, if_pos rfl⟩
          | some n => exact .inl (if_neg (by simp [WrittenRange.stepText, char, outbraceToken]))

end Bsh.Shell

/-!
# Ranges of numbers at the limits of their types

Where the loop of `xpandbraces` over the numbers has no result, which increments give the same numbers,
and how long the texts of these numbers are.
-/

namespace Bsh.Shell

open Bsh.Library List

/-! ## The loop -/

/-- The loop fails where the last difference is too low, however many turns it has. -/
theorem numbersDown_overflow {rstart rincr : ℤ} (hrincr : 0 < rincr) (count : ℕ) {rend : ℤ}
    (hlast : rstart ≤ rend - count * rincr) (hover : rend - (count + 1) * rincr < -2 ^ 63)
    (turns : ℕ) : numbersDown rstart rincr turns rend = none := by
  induction count generalizing rend turns with
  | zero =>
    cases turns with
    | zero => rfl
    | succ turns =>
      push_cast at hlast hover
      have hnot : ¬ fitsZlong (rend - rincr) = true := by
        unfold fitsZlong
        rw [Bool.and_eq_true, decide_eq_true_eq, decide_eq_true_eq]
        intro h
        linarith [h.1]
      rw [numbersDown, if_neg (by linarith), if_neg hnot]
  | succ count ih =>
    cases turns with
    | zero => rfl
    | succ turns =>
      push_cast at hlast hover
      have hcount : (0 : ℤ) ≤ count * rincr := by positivity
      rw [numbersDown, if_neg (by linarith), ih (by linarith) (by linarith) turns]
      exact ite_self none

/-- The result of the loop of `xpandbraces` is the documented one, if there is one. -/
theorem numberValues_eq_none {f : NumberForm} (hn1 : fitsZlong f.n1 = true)
    (hn2 : fitsZlong f.n2 = true) (hn3 : f.n3.natAbs < 2 ^ 31) (hne : f.n3 ≠ 0) (hnot : ¬ f.Fits) :
    numberValues f.n1 f.n2 f.n3 = none := by
  have hstep : (if f.n3 < 0 then (-f.n3, true) else (f.n3, false)) =
      ((f.n3.natAbs : ℤ), decide (f.n3 < 0)) := by
    split
    · next h => rw [decide_eq_true h, Int.ofNat_natAbs_of_nonpos h.le]
    · next h => rw [decide_eq_false h, Int.natAbs_of_nonneg (not_lt.mp h)]
  have hd : 0 < f.n3.natAbs := by omega
  have hlow : ¬ (f.n1 ≤ f.n2 ∧ 1 < f.n3.natAbs ∧ fitsZlong (f.n2 - f.n1) = false) →
      fitsZlong (f.lowest - f.n3.natAbs) = false := by
    intro hdifference
    by_contra hbelow
    refine hnot ⟨hn1, hn2, hn3, fun hle hlt ↦ ?_, by simpa using hbelow⟩
    by_contra hfits
    exact hdifference ⟨hle, hlt, by simpa using hfits⟩
  unfold fitsZlong at hn1 hn2
  rw [Bool.and_eq_true, decide_eq_true_eq, decide_eq_true_eq] at hn1 hn2
  unfold NumberForm.lowest at hlow
  unfold numberValues
  rw [hstep]
  dsimp only
  generalize f.n3.natAbs = d at hd hn3 hlow ⊢
  by_cases hle : f.n1 ≤ f.n2
  · obtain ⟨count, hcount, -, hmax, hnext, haligned⟩ := steps_eq hle hd
    rw [if_neg (not_lt.mpr hle)]
    dsimp only
    by_cases hdifference : 1 < d ∧ fitsZlong (f.n2 - f.n1) = false
    · rw [hdifference.2, decide_eq_true (by exact_mod_cast hdifference.1)]
      rfl
    · have hbelow := hlow fun h ↦ hdifference h.2
      have hnone : ¬ (decide (1 < (d : ℤ)) && !fitsZlong (f.n2 - f.n1)) = true := by
        rw [Bool.and_eq_true, decide_eq_true_eq, Bool.not_eq_true']
        exact fun h ↦ hdifference ⟨by exact_mod_cast h.1, h.2⟩
      have hend : (if decide (1 < (d : ℤ)) = true then f.n2 - (f.n2 - f.n1) % d else f.n2) =
          f.n1 + count * d := by
        split
        · exact haligned
        · next h =>
          obtain rfl : d = 1 := by
            have hone : ¬ (1 < (d : ℤ)) := by simpa using h
            omega
          omega
      unfold fitsZlong at hbelow
      rw [Bool.and_eq_false_iff, decide_eq_false_iff_not, decide_eq_false_iff_not] at hbelow
      have hover : f.n1 - d < -2 ^ 63 := by omega
      rw [if_neg hnone, hend, numbersDown_overflow (by omega) count (by linarith) (by linarith)]
      rfl
  · have hlt := not_le.mp hle
    obtain ⟨count, hcount, -, hmax, hnext, -⟩ := steps_eq hlt.le hd
    have hbelow := hlow fun h ↦ hle h.1
    rw [if_neg hle, hcount] at hbelow
    unfold fitsZlong at hbelow
    rw [Bool.and_eq_false_iff, decide_eq_false_iff_not, decide_eq_false_iff_not] at hbelow
    have hover : f.n1 - count * d - d < -2 ^ 63 := by
      rcases hbelow with h | h
      · linarith
      · exact absurd (by linarith : f.n1 - count * d - d < 2 ^ 63) h
    rw [if_pos hlt]
    rw [Bool.false_and, if_neg Bool.false_ne_true, if_neg Bool.false_ne_true,
      numbersDown_overflow (by omega) count (by linarith) (by linarith)]
    rfl

/-! ## Two increments -/

/-- The distance between the ends. -/
def NumberForm.distance (f : NumberForm) : ℕ := (f.n2 - f.n1).natAbs

/-- The step towards the other end. -/
def NumberForm.towards (f : NumberForm) : ℤ := if f.n1 ≤ f.n2 then f.n3.natAbs else -f.n3.natAbs

/-- The first numbers of a sequence. -/
def stepsFrom (n e : ℤ) (count : ℕ) : List ℤ := (List.range (count + 1)).map fun (k : ℕ) ↦ n + k * e

theorem numbers_eq_stepsFrom (f : NumberForm) :
    f.numbers =
      if f.n3 < 0 then (stepsFrom f.n1 f.towards (f.distance / f.n3.natAbs)).reverse
      else stepsFrom f.n1 f.towards (f.distance / f.n3.natAbs) := by
  unfold NumberForm.numbers NumberForm.towards NumberForm.distance stepsFrom
  by_cases hle : f.n1 ≤ f.n2
  · have hdistance : (f.n2 - f.n1).toNat = (f.n2 - f.n1).natAbs := by omega
    rw [if_pos hle, if_pos hle, hdistance]
  · have hdistance : (f.n1 - f.n2).toNat = (f.n2 - f.n1).natAbs := by omega
    have hmap (k : ℕ) : f.n1 - k * f.n3.natAbs = f.n1 + k * -(f.n3.natAbs : ℤ) := by ring
    rw [if_neg hle, if_neg hle, hdistance]
    simp only [hmap]

theorem head_stepsFrom (n e : ℤ) (count : ℕ) : (stepsFrom n e count).head? = some n := by
  rw [stepsFrom, range_succ_eq_map, map_cons, List.head?_cons]
  simp

theorem last_stepsFrom (n e : ℤ) (count : ℕ) :
    (stepsFrom n e count).reverse.head? = some (n + count * e) := by
  rw [stepsFrom, range_succ, map_append, reverse_append]
  rfl

theorem second_stepsFrom (n e : ℤ) {count : ℕ} (hcount : count ≠ 0) :
    (stepsFrom n e count)[1]? = some (n + e) := by
  have hlt : 1 < count + 1 := by omega
  rw [stepsFrom, List.getElem?_map, List.getElem?_range hlt]
  simp

/-- Two increments give the same numbers when they are equal, or when both go beyond the other end at
once. -/
theorem numbers_eq_iff {f g : NumberForm} (hn1 : f.n1 = g.n1) (hn2 : f.n2 = g.n2) (hf : f.n3 ≠ 0)
    (hg : g.n3 ≠ 0) :
    f.numbers = g.numbers ↔
      f.n3 = g.n3 ∨ f.distance < f.n3.natAbs ∧ f.distance < g.n3.natAbs := by
  have hdistance : f.distance = g.distance := by
    rw [NumberForm.distance, NumberForm.distance, hn1, hn2]
  rw [numbers_eq_stepsFrom, numbers_eq_stepsFrom, ← hdistance]
  constructor
  · intro h
    have hlength : f.distance / f.n3.natAbs = f.distance / g.n3.natAbs := by
      have hlen := congrArg List.length h
      have hreverse (c : Prop) [Decidable c] (l : List ℤ) :
          (if c then l.reverse else l).length = l.length := by
        split
        · exact length_reverse
        · rfl
      rw [hreverse, hreverse, stepsFrom, stepsFrom, length_map, length_map,
        length_range, length_range] at hlen
      omega
    by_cases hshort : f.distance / f.n3.natAbs = 0
    · right
      have hzero : f.distance / g.n3.natAbs = 0 := hlength ▸ hshort
      rw [Nat.div_eq_zero_iff_lt (by omega)] at hshort hzero
      exact ⟨hshort, hzero⟩
    · rw [← hlength] at h
      have hsame (hsteps : stepsFrom f.n1 f.towards (f.distance / f.n3.natAbs) =
          stepsFrom g.n1 g.towards (f.distance / f.n3.natAbs)) : f.n3.natAbs = g.n3.natAbs := by
        have hsecond := congrArg (·[1]?) hsteps
        rw [second_stepsFrom _ _ hshort, second_stepsFrom _ _ hshort, Option.some.injEq] at hsecond
        unfold NumberForm.towards at hsecond
        split at hsecond <;> omega
      have hnone (e : ℤ) (he : e ≠ 0) (n : ℤ) : n + (f.distance / f.n3.natAbs : ℕ) * e ≠ n := by
        intro hn
        have hproduct : ((f.distance / f.n3.natAbs : ℕ) : ℤ) * e = 0 := by linarith
        rcases mul_eq_zero.mp hproduct with hcount | he'
        · exact hshort (by exact_mod_cast hcount)
        · exact he he'
      have htowards {x : NumberForm} (hx : x.n3 ≠ 0) : x.towards ≠ 0 := by
        unfold NumberForm.towards
        split <;> omega
      by_cases hfneg : f.n3 < 0
      · by_cases hgneg : g.n3 < 0
        · rw [if_pos hfneg, if_pos hgneg] at h
          have habs := hsame (reverse_injective h)
          omega
        · rw [if_pos hfneg, if_neg hgneg] at h
          have hhead := congrArg List.head? h
          rw [last_stepsFrom, head_stepsFrom, Option.some.injEq, hn1] at hhead
          exact absurd hhead (hnone _ (htowards hf) _)
      · by_cases hgneg : g.n3 < 0
        · rw [if_neg hfneg, if_pos hgneg] at h
          have hhead := congrArg List.head? h
          rw [last_stepsFrom, head_stepsFrom, Option.some.injEq, hn1] at hhead
          exact absurd hhead.symm (hnone _ (htowards hg) _)
        · rw [if_neg hfneg, if_neg hgneg] at h
          have habs := hsame h
          omega
  · rintro (heq | ⟨hfar, hfar'⟩)
    · unfold NumberForm.towards
      rw [hn1, hn2, heq]
    · have hone (c : Prop) [Decidable c] (e : ℤ) :
          (if c then (stepsFrom f.n1 e 0).reverse else stepsFrom f.n1 e 0) = [f.n1] := by
        have hsteps : stepsFrom f.n1 e 0 = [f.n1] := by simp [stepsFrom]
        rw [hsteps]
        exact ite_self _
      rw [Nat.div_eq_of_lt hfar, Nat.div_eq_of_lt hfar', hone, ← hn1, hone]

/-! ## The texts of the numbers -/

theorem digitsNumber_zeros (count : ℕ) (digits : Bytes) :
    digitsNumber (List.replicate count (char '0') ++ digits) = digitsNumber digits := by
  induction count with
  | zero => rfl
  | succ count ih => exact ih

theorem digitsNumber_decimal (n : ℕ) : digitsNumber (Decimal.decimal n) = n := digitsFrom_decimal n

theorem decimal_ne_nil (n : ℕ) : Decimal.decimal n ≠ [] := fun h ↦
  Decimal.decimalCodes_ne_nil n (List.map_eq_nil_iff.mp h)

theorem integerText_zeroPadded (width : ℕ) (n : ℤ) : IntegerText n (zeroPadded width n) := by
  have hdigits (count : ℕ) : ∀ c ∈ List.replicate count (char '0') ++ Decimal.decimal n.natAbs,
      idigit c = true := by
    intro c hc
    rcases List.mem_append.mp hc with hc | hc
    · rw [eq_of_mem_replicate hc]
      rfl
    · exact idigit_of_mem_decimal hc
  have hne (count : ℕ) : List.replicate count (char '0') ++ Decimal.decimal n.natAbs ≠ [] :=
    append_ne_nil_of_right_ne_nil _ (decimal_ne_nil _)
  have hvalue (count : ℕ) :
      digitsNumber (List.replicate count (char '0') ++ Decimal.decimal n.natAbs) = n.natAbs := by
    rw [digitsNumber_zeros, digitsNumber_decimal]
  unfold zeroPadded
  split
  · next hneg =>
    have h := IntegerText.signed (c := char '-') rfl (hne (width - 1 -
      (Decimal.decimal n.natAbs).length)) (hdigits _)
    rw [hvalue] at h
    rwa [show -(n.natAbs : ℤ) = n by omega] at h
  · next hpos =>
    have h := IntegerText.plain (hne (width - (Decimal.decimal n.natAbs).length)) (hdigits _)
    rw [hvalue] at h
    rwa [show (n.natAbs : ℤ) = n by omega] at h

theorem IntegerText.unique {n m : ℤ} {s : Bytes} (hn : IntegerText n s) (hm : IntegerText m s) :
    n = m := by
  cases hn with
  | plain hne hdigits =>
    cases hm with
    | plain _ _ => rfl
    | signed hc _ _ =>
      rw [(not_dash_of_digit _ (hdigits _ mem_cons_self)).1] at hc
      cases hc
  | signed hc hne hdigits =>
    cases hm with
    | plain _ hdigits' =>
      rw [(not_dash_of_digit _ (hdigits' _ mem_cons_self)).1] at hc
      cases hc
    | signed _ _ _ => rfl

theorem zeroPadded_injective (width : ℕ) : Function.Injective (zeroPadded width) := fun n m h ↦ by
  have hn := integerText_zeroPadded width n
  rw [h] at hn
  exact hn.unique (integerText_zeroPadded width m)

theorem length_decimal_le {n count : ℕ} (hcount : 0 < count) (hn : n < 10 ^ count) :
    (Decimal.decimal n).length ≤ count := by
  rw [Decimal.decimal, Decimal.codeBytes, length_map, Decimal.decimalCodes]
  split
  · exact hcount
  · rw [length_map, length_reverse]
    exact (Nat.digits_length_le_iff (by norm_num) n).mpr hn

theorem digitsNumber_lt {digits : Bytes} (hdigits : ∀ c ∈ digits, idigit c = true) :
    digitsNumber digits < 10 ^ digits.length := by
  have h := (digitsFrom_bounds 0 hdigits).2
  rw [Nat.zero_add, Nat.one_mul] at h
  exact h

theorem length_zeroPadded_le {n m : ℤ} {s : Bytes} (h : IntegerText m s)
    (hbetween : 0 ≤ n ∧ n ≤ m ∨ m ≤ n ∧ n < 0) (width : ℕ) :
    (zeroPadded width n).length ≤ max width s.length := by
  cases h with
  | plain hne hdigits =>
    have hlt := digitsNumber_lt hdigits
    have hpos := length_pos_of_ne_nil hne
    have hlen : (Decimal.decimal n.natAbs).length ≤ s.length := length_decimal_le hpos (by omega)
    unfold zeroPadded
    rw [if_neg (by omega), length_append, List.length_replicate]
    omega
  | @signed c digits hc hne hdigits =>
    have hlt := digitsNumber_lt hdigits
    have hpos := length_pos_of_ne_nil hne
    have hlen : (Decimal.decimal n.natAbs).length ≤ digits.length :=
      length_decimal_le hpos (by omega)
    unfold zeroPadded
    split
    · rw [length_cons, length_cons, length_append, List.length_replicate]
      omega
    · rw [length_cons, length_append, List.length_replicate]
      omega

theorem numbers_between {f : NumberForm} (hne : f.n3 ≠ 0) {n : ℤ} (hn : n ∈ f.numbers) :
    f.n1 ≤ n ∧ n ≤ f.n2 ∨ f.n2 ≤ n ∧ n ≤ f.n1 := by
  have hsteps : n ∈ stepsFrom f.n1 f.towards (f.distance / f.n3.natAbs) := by
    rw [numbers_eq_stepsFrom] at hn
    split at hn
    · exact List.mem_reverse.mp hn
    · exact hn
  obtain ⟨k, hk, rfl⟩ := List.mem_map.mp hsteps
  have hle : k * f.n3.natAbs ≤ f.distance :=
    (Nat.mul_le_mul_right _ (Nat.lt_succ_iff.mp (List.mem_range.mp hk))).trans
      (Nat.div_mul_le_self _ _)
  have hle' : (k : ℤ) * f.n3.natAbs ≤ f.distance := by exact_mod_cast hle
  have hnonneg : (0 : ℤ) ≤ k * f.n3.natAbs := by positivity
  unfold NumberForm.distance at hle'
  unfold NumberForm.towards
  split
  · left
    constructor
    · linarith
    · have habs : ((f.n2 - f.n1).natAbs : ℤ) = f.n2 - f.n1 := by omega
      linarith
  · right
    have habs : ((f.n2 - f.n1).natAbs : ℤ) = f.n1 - f.n2 := by omega
    constructor <;> linarith

end Bsh.Shell
