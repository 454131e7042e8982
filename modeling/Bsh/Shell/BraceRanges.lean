import Bsh.Shell.BraceLimits
import Bsh.Shell.BraceRun

/-!
# The expansion of ranges of numbers

`xpandbraces` expands a range of numbers as documented, in words that fit into copies of the word it
started with, exactly when the increment survives in an `int`, or is beyond the other end of the range
before and after, and no difference that the loop computes leaves a `zlong`.
-/

namespace Bsh.Shell

open Bsh.Library

/-- `dupstring(str3)`, with its NUL. -/
def rangeBuffer (word : Bytes) : ℕ := word.length + 1

/-- Digits are shown as they are. -/
def BraceEnv.ShowsDigits (env : BraceEnv) : Prop := ∀ c, idigit c = true → env.nicechar c.toNat = [c]

namespace WrittenRange

/-- A word whose first braces hold the range. -/
def word (r : WrittenRange) (front back : Bytes) : Bytes :=
  front ++ inbraceToken :: (r.text ++ outbraceToken :: back)

/-- The words of the manual. -/
def words (r : WrittenRange) (front back : Bytes) : List Bytes :=
  r.form.numbers.map fun n ↦ front ++ zeroPadded r.width n ++ back

/-- The range expands to the words of the manual, and each fits into its buffer. -/
def ExpandsRight (env : BraceEnv) (r : WrittenRange) (front back : Bytes) : Prop :=
  xpandbraces env (r.word front back) = some (r.words front back) ∧
    ∀ word ∈ r.words front back, word.length + 1 ≤ rangeBuffer (r.word front back)

/-- The increment has survived, or both that of the text and that of the source go beyond the other
end at once. -/
def KeepsStep (r : WrittenRange) : Prop :=
  r.increment = r.form.n3 ∨
    r.form.distance < r.increment.natAbs ∧ r.form.distance < r.form.n3.natAbs

variable {env : BraceEnv} {r : WrittenRange} {front back : Bytes}

/-! ## The words -/

theorem integer_unbraced {n : ℤ} {s : Bytes} (h : IntegerText n s) : Unbraced s := fun c hc ↦
  (integer_plain h c hc).1

theorem unbraced_stepText (r : WrittenRange) : Unbraced r.stepText := by
  unfold stepText
  split
  · exact fun c hc ↦ absurd hc List.not_mem_nil
  · next n _ => exact unbraced_dots.append (integer_unbraced n.1.spells)

theorem unbraced_text (r : WrittenRange) : Unbraced r.text :=
  (integer_unbraced r.start.spells).append
    (unbraced_dots.append ((integer_unbraced r.stop.spells).append (unbraced_stepText r)))

theorem commaParts_unbraced {text : Bytes} (h : Unbraced text) : commaParts 0 text = [text] := by
  induction text with
  | nil => rfl
  | cons c text ih =>
    obtain ⟨hopening, hclosing, hcomma⟩ := h c List.mem_cons_self
    rw [commaParts, if_neg fun hc ↦ hcomma hc.2, if_neg hopening, if_neg hclosing]
    dsimp only
    rw [ih fun d hd ↦ h d (List.mem_cons_of_mem c hd)]

theorem length_texts (r : WrittenRange) :
    r.start.text.length ≤ r.text.length ∧ r.stop.text.length ≤ r.text.length ∧
      r.width ≤ r.text.length := by
  have htext : r.text.length =
      r.start.text.length + 2 + r.stop.text.length + r.stepText.length := by
    rw [text, List.length_append, List.length_cons, List.length_cons, List.length_append]
    omega
  have hwidth : r.width ≤ r.text.length := by
    unfold width
    split
    · omega
    · split
      · omega
      · cases hstep : r.step with
        | none => exact Nat.zero_le _
        | some n =>
          have hlen : r.stepText.length = n.1.text.length + 2 := by
            rw [stepText, hstep]
            rfl
          dsimp only
          split <;> omega
  exact ⟨by omega, by omega, hwidth⟩

theorem words_fit (r : WrittenRange) (front back : Bytes) :
    ∀ word ∈ r.words front back, word.length + 1 ≤ rangeBuffer (r.word front back) := by
  intro word hword
  obtain ⟨n, hn, rfl⟩ := List.mem_map.mp hword
  obtain ⟨hstart, hstop, hwidth⟩ := length_texts r
  have hlen : (zeroPadded r.width n).length ≤ r.text.length := by
    have hends := numbers_between r.form_n3_ne_zero hn
    have hbetween : (0 ≤ n ∧ n ≤ r.start.value ∨ r.start.value ≤ n ∧ n < 0) ∨
        (0 ≤ n ∧ n ≤ r.stop.value ∨ r.stop.value ≤ n ∧ n < 0) := by
      change r.start.value ≤ n ∧ n ≤ r.stop.value ∨ r.stop.value ≤ n ∧ n ≤ r.start.value at hends
      omega
    rcases hbetween with h | h
    · exact (length_zeroPadded_le r.start.spells h r.width).trans (max_le hwidth hstart)
    · exact (length_zeroPadded_le r.stop.spells h r.width).trans (max_le hwidth hstop)
  rw [rangeBuffer, WrittenRange.word]
  simp only [List.length_append, List.length_cons]
  omega

/-! ## What `xpandbraces` does -/

theorem increment_bounds (r : WrittenRange) : -2 ^ 31 ≤ r.increment ∧ r.increment < 2 ^ 31 := by
  unfold increment
  split
  · norm_num
  · exact ⟨BitVec.le_toInt _, BitVec.toInt_lt⟩

theorem xpandbraces_numbers (hfront : inbraceToken ∉ front)
    (hstart : fitsZlong r.start.value = true) (hstop : fitsZlong r.stop.value = true)
    (hchars : bracechardots env (r.text ++ outbraceToken :: back) = some none) :
    xpandbraces env (r.word front back) =
      if r.increment = 0 then some [front ++ r.text ++ back]
      else if r.increment = -2 ^ 31 then none
      else (numberValues r.start.value r.stop.value r.increment).map fun values ↦
        values.map fun n ↦ front ++ zeroPadded r.width n ++ back := by
  obtain ⟨htake, hdrop⟩ := takeWhile_open hfront _
  have hclose : braces.close 0 (r.text ++ outbraceToken :: back) = some (r.text, back) :=
    braces.close_closed (unbraced_text r).to_balanced back
  obtain ⟨hcomma, hdotdot⟩ := countForms_written r
  have hdots : (countForms 0 r.text).2 ≠ 0 := by
    rw [hdotdot]
    split <;> decide
  unfold xpandbraces word
  rw [htake, hdrop]
  dsimp only
  rw [hclose]
  dsimp only
  rw [if_pos ⟨hcomma, hdots⟩, hchars]
  rw [numberRange_written r hstart hstop, commaParts_unbraced (unbraced_text r), List.map_singleton]
  by_cases hzero : r.increment = 0
  · rw [if_pos hzero, if_pos hzero]
  · rw [if_neg hzero, if_neg hzero]
    by_cases hmin : r.increment = -2 ^ 31
    · rw [if_pos hmin, if_pos hmin]
    · rw [if_neg hmin, if_neg hmin]
      cases numberValues r.start.value r.stop.value r.increment with
      | none => rfl
      | some values =>
        dsimp only [Option.map_some]
        rw [List.map_map]
        rfl

theorem zeroPadded_digit {wc width : ℕ} (hlow : 48 ≤ wc) (hhigh : wc ≤ 57) (hwidth : width ≤ 1) :
    zeroPadded width ((wc : ℤ) - 48) = [UInt8.ofNat wc] := by
  have habs : ((wc : ℤ) - 48).natAbs = wc - 48 := by omega
  have hdecimal : Decimal.decimal (wc - 48) = [UInt8.ofNat wc] := by
    rw [Decimal.decimal, Decimal.decimalCodes]
    split
    · next hzero =>
      obtain rfl : wc = 48 := by omega
      rfl
    · next hne =>
      rw [Nat.digits_of_lt 10 (wc - 48) hne (by omega)]
      have hcode : Decimal.digitCode (wc - 48) = wc := by
        rw [Decimal.digitCode]
        omega
      rw [List.reverse_singleton, List.map_singleton, hcode]
      rfl
  unfold zeroPadded
  rw [if_neg (by omega), habs, hdecimal, List.length_singleton, Nat.sub_eq_zero_of_le hwidth]
  rfl

theorem numbers_digits {f : NumberForm} {c d : ℕ} (h1 : f.n1 = (c : ℤ) - 48)
    (h2 : f.n2 = (d : ℤ) - 48) (h3 : f.n3 = 1) :
    f.numbers = (charactersFromTo c d).map fun (wc : ℕ) ↦ (wc : ℤ) - 48 := by
  have hnot : ¬ (1 : ℤ) < 0 := by norm_num
  have hone : (1 : ℤ).natAbs = 1 := rfl
  unfold NumberForm.numbers charactersFromTo
  rw [h1, h2, h3, hone]
  rw [if_neg hnot]
  simp only [Nat.div_one]
  by_cases hle : c ≤ d
  · have hcount : ((d : ℤ) - 48 - (c - 48)).toNat = d - c := by omega
    rw [if_pos (by omega), if_pos hle, List.map_map, hcount]
    refine List.map_congr_left fun k _ ↦ ?_
    rw [Function.comp_apply]
    push_cast
    ring
  · have hcount : ((c : ℤ) - 48 - (d - 48)).toNat = c - d := by omega
    rw [if_neg (by omega), if_neg hle, List.map_map, hcount]
    refine List.map_congr_left fun k hk ↦ ?_
    have hk' := List.mem_range.mp hk
    rw [Function.comp_apply, Nat.cast_sub (by omega)]
    ring

theorem mem_charactersFromTo {c d wc : ℕ} (h : wc ∈ charactersFromTo c d) :
    min c d ≤ wc ∧ wc ≤ max c d := by
  unfold charactersFromTo at h
  split at h
  · obtain ⟨k, hk, rfl⟩ := List.mem_map.mp h
    have hk' := List.mem_range.mp hk
    omega
  · obtain ⟨k, hk, rfl⟩ := List.mem_map.mp h
    have hk' := List.mem_range.mp hk
    omega

theorem value_digit {n : ℤ} {c : UInt8} (h : IntegerText n [c]) (hc : idigit c = true) :
    n = (c.toNat : ℤ) - 48 := by
  have hdigits : ∀ x ∈ [c], idigit x = true := fun x hx ↦ by rwa [List.mem_singleton.mp hx]
  have hplain := IntegerText.plain (List.cons_ne_nil c []) hdigits
  have hbounds := idigit_iff.mp hc
  have hvalue : digitsNumber [c] = c.toNat - 48 := by
    change 0 * 10 + (c.toNat - 48) = c.toNat - 48
    omega
  rw [h.unique hplain]
  omega

theorem xpandbraces_digits (hdigits : env.ShowsDigits) (hfront : inbraceToken ∉ front)
    {c d : UInt8} (hc : idigit c = true) (hd : idigit d = true) (hstart : r.start.text = [c])
    (hstop : r.stop.text = [d]) (hstep : r.step = none)
    (hchars : bracechardots env (r.text ++ outbraceToken :: back) =
      some (some (c.toNat, d.toNat))) :
    xpandbraces env (r.word front back) = some (r.words front back) := by
  obtain ⟨htake, hdrop⟩ := takeWhile_open hfront _
  have hclose : braces.close 0 (r.text ++ outbraceToken :: back) = some (r.text, back) :=
    braces.close_closed (unbraced_text r).to_balanced back
  obtain ⟨hcomma, hdotdot⟩ := countForms_written r
  have hdots : (countForms 0 r.text).2 ≠ 0 := by
    rw [hdotdot]
    split <;> decide
  have hboundsc := idigit_iff.mp hc
  have hboundsd := idigit_iff.mp hd
  have hwidth : r.width ≤ 1 := by
    unfold width
    rw [hstart, hstop, hstep]
    split
    · exact le_rfl
    · split
      · exact le_rfl
      · exact Nat.zero_le _
  have hnumbers : r.form.numbers =
      (charactersFromTo c.toNat d.toNat).map fun (wc : ℕ) ↦ (wc : ℤ) - 48 := by
    refine numbers_digits ?_ ?_ ?_
    · exact value_digit (hstart ▸ r.start.spells) hc
    · exact value_digit (hstop ▸ r.stop.spells) hd
    · unfold form
      rw [hstep]
  have hshown : ∀ wc ∈ charactersFromTo c.toNat d.toNat,
      front ++ env.nicechar wc ++ back = front ++ zeroPadded r.width ((wc : ℤ) - 48) ++ back := by
    intro wc hwc
    have hrange := mem_charactersFromTo hwc
    have hnat : (UInt8.ofNat wc).toNat = wc := by
      rw [UInt8.toNat_ofNat']
      omega
    have hdigit : idigit (UInt8.ofNat wc) = true := by
      rw [idigit_iff, hnat]
      omega
    have hnice := hdigits _ hdigit
    rw [hnat] at hnice
    rw [hnice, zeroPadded_digit (by omega) (by omega) hwidth]
  unfold xpandbraces word
  rw [htake, hdrop]
  dsimp only
  rw [hclose]
  dsimp only
  rw [if_pos ⟨hcomma, hdots⟩, hchars]
  dsimp only
  rw [words, hnumbers, List.map_map, ← charactersFromTo_eq]
  exact congrArg some (List.map_congr_left hshown)

/-! ## When a range expands as documented -/

theorem asRead_numbers_eq_iff (hne : r.increment ≠ 0) :
    r.asRead.numbers = r.form.numbers ↔ r.KeepsStep :=
  numbers_eq_iff rfl rfl hne r.form_n3_ne_zero

theorem words_injective (front back : Bytes) (width : ℕ) :
    Function.Injective fun n ↦ front ++ zeroPadded width n ++ back := fun _ _ h ↦
  zeroPadded_injective width (List.append_cancel_left (List.append_cancel_right h))

/-- The braces are not taken away as they are: no number contains the dots of the range. -/
theorem words_ne_text (r : WrittenRange) (front back : Bytes) :
    [front ++ r.text ++ back] ≠ r.words front back := by
  intro h
  have hmem : front ++ r.text ++ back ∈ r.words front back := by
    rw [← h]
    exact List.mem_cons_self
  obtain ⟨n, -, hn⟩ := List.mem_map.mp hmem
  have htext : zeroPadded r.width n = r.text :=
    List.append_cancel_left (List.append_cancel_right hn)
  have hdot : char '.' ∈ zeroPadded r.width n := by
    rw [htext, text]
    simp
  exact (integer_plain (integerText_zeroPadded r.width n) _ hdot).2 rfl

/-- A range of numbers with ends in a `zlong` expands to the documented words, each within its buffer,
exactly when the `int` that is read as increment steps like the one in the text, and the arithmetic of
the loop on the range as it is read does not overflow. -/
theorem expandsRight_iff (env : BraceEnv) (hdigits : env.ShowsDigits) (r : WrittenRange)
    (hstart : fitsZlong r.start.value = true) (hstop : fitsZlong r.stop.value = true)
    (front back : Bytes) (hfront : inbraceToken ∉ front) :
    r.ExpandsRight env front back ↔ r.KeepsStep ∧ r.asRead.Fits := by
  have hbuffer : r.ExpandsRight env front back ↔
      xpandbraces env (r.word front back) = some (r.words front back) :=
    and_iff_left (words_fit r front back)
  rw [hbuffer]
  obtain hchars | ⟨c, d, hc, hd, hsc, hsd, hstep, hchars⟩ := bracechardots_written env r back
  · rw [xpandbraces_numbers hfront hstart hstop hchars]
    by_cases hzero : r.increment = 0
    · rw [if_pos hzero, Option.some.injEq]
      refine iff_of_false (words_ne_text r front back) fun h ↦ ?_
      rcases h.1 with hkept | ⟨hfar, -⟩
      · exact r.form_n3_ne_zero (hkept ▸ hzero)
      · rw [hzero] at hfar
        exact Nat.not_lt_zero _ hfar
    · rw [if_neg hzero]
      by_cases hmin : r.increment = -2 ^ 31
      · rw [if_pos hmin]
        refine iff_of_false nofun fun h ↦ ?_
        have hlt : r.increment.natAbs < 2 ^ 31 := h.2.n3
        omega
      · rw [if_neg hmin]
        have hsmall : r.asRead.n3.natAbs < 2 ^ 31 := by
          obtain ⟨hlow, hhigh⟩ := increment_bounds r
          change r.increment.natAbs < 2 ^ 31
          omega
        by_cases hfits : r.asRead.Fits
        · have hvalues : numberValues r.start.value r.stop.value r.increment =
              some r.asRead.numbers := numberValues_eq hfits hzero
          rw [hvalues, Option.map_some, Option.some.injEq, words,
            (List.map_injective_iff.mpr (words_injective front back r.width)).eq_iff,
            asRead_numbers_eq_iff hzero]
          exact (and_iff_left hfits).symm
        · have hvalues : numberValues r.start.value r.stop.value r.increment = none :=
            numberValues_eq_none hstart hstop hsmall hzero hfits
          rw [hvalues]
          exact iff_of_false nofun fun h ↦ hfits h.2
  · have hincrement : r.increment = 1 := by
      unfold increment
      rw [hstep]
    have hone : r.form.n3 = 1 := by
      unfold form
      rw [hstep]
    refine iff_of_true (xpandbraces_digits hdigits hfront hc hd hsc hsd hstep hchars)
      ⟨.inl (hincrement.trans hone.symm), hstart, hstop, ?_, ?_, ?_⟩
    · change r.increment.natAbs < 2 ^ 31
      rw [hincrement]
      norm_num
    · intro _ hlt
      change 1 < r.increment.natAbs at hlt
      rw [hincrement] at hlt
      exact absurd hlt (by decide)
    · have hboundsc := idigit_iff.mp hc
      have hboundsd := idigit_iff.mp hd
      have ha : r.start.value = (c.toNat : ℤ) - 48 := value_digit (hsc ▸ r.start.spells) hc
      have hb : r.stop.value = (d.toNat : ℤ) - 48 := value_digit (hsd ▸ r.stop.spells) hd
      have hlowest : 0 ≤ r.asRead.lowest ∧ r.asRead.lowest ≤ 9 := by
        change 0 ≤ (if r.start.value ≤ r.stop.value then r.start.value
          else r.start.value - ((r.start.value - r.stop.value).toNat / r.increment.natAbs : ℕ) *
            r.increment.natAbs) ∧ (if r.start.value ≤ r.stop.value then r.start.value
          else r.start.value - ((r.start.value - r.stop.value).toNat / r.increment.natAbs : ℕ) *
            r.increment.natAbs) ≤ 9
        rw [hincrement, Int.natAbs_one, Nat.div_one]
        split <;> omega
      have hnext : r.asRead.n3.natAbs = 1 := by
        change r.increment.natAbs = 1
        rw [hincrement]
        rfl
      unfold fitsZlong
      rw [Bool.and_eq_true, decide_eq_true_eq, decide_eq_true_eq]
      omega

end WrittenRange

/-! ## Three ranges -/

theorem showsDigits_portable : BraceEnv.portable.ShowsDigits := by
  intro c hc
  have hbounds := idigit_iff.mp hc
  have hnice : BraceEnv.portable.nicechar c.toNat = [UInt8.ofNat c.toNat] := if_pos (by omega)
  rw [hnice, UInt8.ofNat_toNat]

/-- A number without a sign. -/
def plainNumber (digits : Bytes) (hne : digits ≠ []) (hdigits : ∀ c ∈ digits, idigit c = true) :
    WrittenNumber :=
  ⟨digitsNumber digits, digits, .plain hne hdigits⟩

/-- A number with a sign. -/
def negativeNumber (digits : Bytes) (hne : digits ≠ []) (hdigits : ∀ c ∈ digits, idigit c = true) :
    WrittenNumber :=
  ⟨-(digitsNumber digits : ℤ), char '-' :: digits, .signed rfl hne hdigits⟩

/-- The range `8..10`. -/
def eightToTen : WrittenRange :=
  ⟨plainNumber (Bytes.ascii "8") (by decide) (by decide),
    plainNumber (Bytes.ascii "10") (by decide) (by decide), none⟩

theorem expandsRight_iff_eightToTen : eightToTen.ExpandsRight .portable [char 'a'] [] := by
  have hfits : eightToTen.asRead.Fits := by
    refine ⟨by decide, by decide, by decide, fun _ h ↦ absurd h (by decide), by decide⟩
  exact (WrittenRange.expandsRight_iff .portable showsDigits_portable eightToTen (by decide)
    (by decide) [char 'a'] [] (by decide)).mpr ⟨.inl rfl, hfits⟩

/-- The range `-9223372036854775808..-9223372036854775807`. -/
def lowestTwo : WrittenRange :=
  ⟨negativeNumber (Bytes.ascii "9223372036854775808") (by decide) (by decide),
    negativeNumber (Bytes.ascii "9223372036854775807") (by decide) (by decide), none⟩

/-- The range `1..3..4294967296`. -/
def wideStep : WrittenRange :=
  ⟨plainNumber (Bytes.ascii "1") (by decide) (by decide),
    plainNumber (Bytes.ascii "3") (by decide) (by decide),
    some ⟨plainNumber (Bytes.ascii "4294967296") (by decide) (by decide), by decide⟩⟩

/-- The loop over the first of them steps below the lowest number, and the increment of the second is
zero as an `int`. -/
theorem not_expandsRight :
    ¬ lowestTwo.ExpandsRight .portable [] [] ∧ ¬ wideStep.ExpandsRight .portable [] [] := by
  have hlong {r : WrittenRange} (h : r.start.text.length ≠ 1 ∨ r.step.isSome = true) :
      bracechardots .portable (r.text ++ outbraceToken :: []) = some none := by
    refine (bracechardots_written .portable r []).resolve_right ?_
    rintro ⟨c, d, -, -, hstart, -, hstep, -⟩
    rcases h with h | h
    · exact h (congrArg List.length hstart)
    · rw [hstep] at h
      cases h
  constructor
  · rintro ⟨hwords, -⟩
    cases hwords
  · have hzero : wideStep.increment = 0 := by
      decide
    rintro ⟨hwords, -⟩
    rw [WrittenRange.xpandbraces_numbers (by decide) (by decide) (by decide)
      (hlong (.inr rfl)), if_pos hzero, Option.some.injEq] at hwords
    exact WrittenRange.words_ne_text wideStep [] [] hwords

end Bsh.Shell
