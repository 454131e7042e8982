import Bsh.Library.Accumulator
import Bsh.Shell.Numbers

/-!
# Numbers that are too large

`zstrtol_underscore` warns of a number that does not fit and keeps the digits that do;
`zstrtoul_underscore` refuses it.  Both notice an overflow by a product that is smaller than the
accumulator, which it need not be: in base 10 the product of 25 and eighteen zeros wraps to a larger
number.  What they make of a digit string is decided by the values of its prefixes modulo `2 ^ 64`.
-/

namespace Bsh.Shell

open Bsh.Library Bytes Accumulator List

/-! ## `zstrtol_underscore` with its warning -/

/-- The loop over the digits, with the text that `trunc` points to. -/
def zstrtolLoop (base : ℕ) (underscore : Bool) :
    Bytes → Zlong → Option Bytes → Zlong × Option Bytes × Bytes
  | [], value, trunc => (value, trunc, [])
  | c :: s, value, trunc =>
    if underscore ∧ c = char '_' then zstrtolLoop base underscore s value trunc
    else
      match digitOf base c with
      | none => (value, trunc, c :: s)
      | some digit =>
        let newcalc := value * BitVec.ofNat 64 base + BitVec.ofNat 64 digit
        if trunc.isSome then zstrtolLoop base underscore s value trunc
        else if newcalc < value then zstrtolLoop base underscore s value (some (c :: s))
        else zstrtolLoop base underscore s newcalc none

/-- What `zstrtol_underscore` returns, the numbers in its warning, and the text behind. -/
structure ZstrtolResult where
  value : Zlong
  warning : Option (ℕ × Bytes)
  rest : Bytes
  deriving DecidableEq

/-- `zstrtol_underscore`; there is no result for an invalid base. -/
def zstrtolWarned (s : Bytes) (base : ℕ) (underscore : Bool) : Option ZstrtolResult :=
  let s := s.dropWhile inblank
  let neg := s.head?.any isDash
  let s := if neg || headIs '+' s then s.tail else s
  let (base, inp) := if base = 0 then announcedBase s else (base, s)
  if base < 2 ∨ 36 < base then none
  else
    let (value, trunc, rest) := zstrtolLoop base underscore inp 0 none
    let signed (value : Zlong) := if neg then -value else value
    if trunc.isNone && value.msb && (!neg || value ≠ BitVec.intMin 64) then
      -- `trunc = s - 1`.
      some ⟨signed (value / BitVec.ofNat 64 base), some (inp.length - rest.length - 1, inp), rest⟩
    else some ⟨signed value, trunc.map fun t ↦ (inp.length - t.length, inp), rest⟩

theorem zstrtolLoop_eq (base : ℕ) (underscore : Bool) (s : Bytes) (value : Zlong)
    (trunc : Option Bytes) :
    zstrtolDigits base underscore s value trunc.isSome =
      ((zstrtolLoop base underscore s value trunc).1,
        (zstrtolLoop base underscore s value trunc).2.1.isSome,
        (zstrtolLoop base underscore s value trunc).2.2) := by
  induction s generalizing value trunc with
  | nil => rfl
  | cons c s ih =>
    rw [zstrtolDigits, zstrtolLoop]
    split
    · exact ih value trunc
    · cases digitOf base c with
      | none => rfl
      | some digit =>
        cases trunc with
        | some t => exact ih value (some t)
        | none =>
          simp only [Option.isSome_none, Bool.false_eq_true, false_or, if_false]
          split
          · exact ih value (some (c :: s))
          · exact ih _ none

/-- Without the warning it is the function that is modelled before. -/
theorem zstrtolWarned_eq (s : Bytes) (base : ℕ) (underscore : Bool) :
    (zstrtolWarned s base underscore).map (fun r ↦ (r.value, r.rest)) =
      zstrtolUnderscore s base underscore := by
  unfold zstrtolWarned zstrtolUnderscore
  dsimp only
  generalize (s.dropWhile inblank).head?.any isDash = neg
  generalize (if neg || headIs '+' _ then (s.dropWhile inblank).tail
    else s.dropWhile inblank) = t
  obtain ⟨b, inp, hb⟩ : ∃ b inp, (if base = 0 then announcedBase t else (base, t)) = (b, inp) :=
    ⟨_, _, rfl⟩
  rw [hb]
  have hloop := zstrtolLoop_eq b underscore inp 0 none
  rw [Option.isSome_none] at hloop
  rw [hloop]
  obtain ⟨value, trunc, rest, hread⟩ : ∃ value trunc rest,
      zstrtolLoop b underscore inp 0 none = (value, trunc, rest) := ⟨_, _, _, rfl⟩
  rw [hread]
  split
  · rfl
  · cases trunc with
    | some t => rfl
    | none =>
      by_cases hlong : (value.msb && (!neg || value ≠ BitVec.intMin 64)) = true
      · simp only [Option.isNone_none, Option.isSome_none, Bool.not_false, Bool.true_and, hlong,
          if_true]
        rfl
      · simp only [Option.isNone_none, Option.isSome_none, Bool.not_false, Bool.true_and,
          if_neg hlong]
        rfl

/-! ## Digit strings -/

/-- The number of values of a `zulong`. -/
def zulongSize : ℕ := 2 ^ 64

theorem toNat_ofNat_zulong (n : ℕ) : (BitVec.ofNat 64 n).toNat = n % zulongSize :=
  BitVec.toNat_ofNat n 64

/-- A string of digits of a base, with underscores in between where they are allowed. -/
inductive DigitText (base : ℕ) (underscore : Bool) : Bytes → List ℕ → Prop where
  | nil : DigitText base underscore [] []
  | digit {c : UInt8} {s : Bytes} {d : ℕ} {ds : List ℕ} (h : digitOf base c = some d)
      (hs : DigitText base underscore s ds) : DigitText base underscore (c :: s) (d :: ds)
  | underscore {s : Bytes} {ds : List ℕ} (h : underscore = true)
      (hs : DigitText base underscore s ds) : DigitText base underscore (char '_' :: s) ds

/-- No digit and no underscore follows. -/
def EndsDigits (base : ℕ) (underscore : Bool) (rest : Bytes) : Prop :=
  ∀ c ∈ rest.head?, ¬ (underscore = true ∧ c = char '_') ∧ digitOf base c = none

/-- An optional sign. -/
inductive SignText : Bytes → Bool → Prop where
  | none : SignText [] false
  | minus {c : UInt8} (h : isDash c = true) : SignText [c] true
  | plus : SignText [char '+'] false

/-- A digit is below the base, and none of the characters that have another meaning. -/
theorem digitOf_spec {base : ℕ} (hbase : base ≤ 36) {c : UInt8} {d : ℕ}
    (h : digitOf base c = some d) :
    d < base ∧ 48 ≤ c.toNat ∧ c.toNat ≤ 122 ∧ c.toNat ≠ 95 := by
  have h0 : (char '0').toNat = 48 := rfl
  have h9 : (char '9').toNat = 57 := rfl
  have ha : (char 'a').toNat = 97 := rfl
  have hA : (char 'A').toNat = 65 := rfl
  unfold digitOf at h
  simp only [idigit, Bool.and_eq_true, decide_eq_true_eq, UInt8.le_iff_toNat_le, h0, h9, ha, hA]
    at h
  split_ifs at h <;> simp only [Option.some.injEq] at h <;> omega

theorem digitText_filterMap {base : ℕ} (us : Bool) {s : Bytes}
    (h : ∀ c ∈ s, (digitOf base c).isSome = true) :
    DigitText base us s (s.filterMap (digitOf base)) := by
  induction s with
  | nil => exact .nil
  | cons c s ih =>
    obtain ⟨d, hd⟩ := Option.isSome_iff_exists.mp (h c mem_cons_self)
    rw [filterMap_cons, hd]
    exact .digit hd (ih fun c hc ↦ h c (mem_cons_of_mem _ hc))

theorem DigitText.lt_base {base : ℕ} (hbase : base ≤ 36) {us : Bool} {s : Bytes} {ds : List ℕ}
    (h : DigitText base us s ds) : ∀ d ∈ ds, d < base := by
  induction h with
  | nil => exact fun d hd ↦ nomatch hd
  | digit hdigit _ ih =>
    intro d hd
    obtain rfl | hd := List.mem_cons.mp hd
    · exact (digitOf_spec hbase hdigit).1
    · exact ih d hd
  | underscore _ _ ih => exact ih

/-! ## The loop -/

section Loop

variable {base : ℕ} {us : Bool}

theorem newcalc_eq (base acc d : ℕ) :
    BitVec.ofNat 64 acc * BitVec.ofNat 64 base + BitVec.ofNat 64 d =
      BitVec.ofNat 64 ((base * acc + d) % zulongSize) := by
  apply BitVec.eq_of_toNat_eq
  rw [← BitVec.ofNat_mul, ← BitVec.ofNat_add, toNat_ofNat_zulong, toNat_ofNat_zulong,
    Nat.mod_mod, Nat.mul_comm]

theorem newcalc_lt_iff {acc : ℕ} (hacc : acc < zulongSize) {next : ℕ} :
    BitVec.ofNat 64 (next % zulongSize) < BitVec.ofNat 64 acc ↔ next % zulongSize < acc := by
  rw [BitVec.lt_def, toNat_ofNat_zulong, toNat_ofNat_zulong, Nat.mod_mod, Nat.mod_eq_of_lt hacc]

theorem zstrtolLoop_ends {rest : Bytes} (h : EndsDigits base us rest) (value : Zlong)
    (trunc : Option Bytes) : zstrtolLoop base us rest value trunc = (value, trunc, rest) := by
  cases rest with
  | nil => rfl
  | cons c s =>
    obtain ⟨hunder, hdigit⟩ := h c rfl
    rw [zstrtolLoop, if_neg hunder, hdigit]

/-- The loop reads the digits into an accumulator that wraps. -/
theorem zstrtolLoop_read (hbase : base ≤ 36) {s : Bytes} {ds : List ℕ} (h : DigitText base us s ds)
    {rest : Bytes} (hrest : EndsDigits base us rest) {acc : ℕ} (hacc : acc < zulongSize)
    (trunc : Option Bytes) :
    ∃ trunc', zstrtolLoop base us (s ++ rest) (BitVec.ofNat 64 acc) trunc =
        (BitVec.ofNat 64 (read base zulongSize ds acc trunc.isSome).1, trunc', rest) ∧
      trunc'.isSome = (read base zulongSize ds acc trunc.isSome).2 := by
  induction h generalizing acc trunc with
  | nil => exact ⟨trunc, zstrtolLoop_ends hrest _ _, rfl⟩
  | @underscore s ds hunder _ ih =>
    rw [cons_append, zstrtolLoop, if_pos ⟨hunder, rfl⟩]
    exact ih hacc trunc
  | @digit c s d ds hdigit _ ih =>
    obtain ⟨-, -, -, hother⟩ := digitOf_spec hbase hdigit
    have hunder : ¬ (us = true ∧ c = char '_') := by
      rintro ⟨-, rfl⟩
      exact hother rfl
    rw [cons_append, zstrtolLoop, if_neg hunder, hdigit]
    cases trunc with
    | some t =>
      exact ih hacc (some t)
    | none =>
      have hmod : (base * acc + d) % zulongSize < zulongSize :=
        Nat.mod_lt _ (Nat.zero_lt_of_lt hacc)
      simp only [Option.isSome_none, Bool.false_eq_true, if_false, newcalc_eq, newcalc_lt_iff hacc]
      by_cases hfalls : (base * acc + d) % zulongSize < acc
      · have htrunc : read base zulongSize ds acc true = (acc, true) := read_trunc ds acc
        rw [if_pos hfalls, read_cons_of_lt hfalls, ← htrunc]
        exact ih hacc _
      · rw [if_neg hfalls, read_cons_of_le (not_lt.mp hfalls)]
        exact ih hmod none

end Loop

/-! ## The sign -/

/-- The largest absolute value of a `zlong` with the sign. -/
def zlongLimit (neg : Bool) : ℕ := if neg then 2 ^ 63 else 2 ^ 63 - 1

theorem fits_zulong {base : ℕ} (hlow : 2 ≤ base) (hhigh : base ≤ 36) (neg : Bool) :
    Fits base zulongSize (zlongLimit neg) := by
  have hlimit : 2 ^ 63 - 1 ≤ zlongLimit neg ∧ zlongLimit neg ≤ 2 ^ 63 := by
    cases neg
    · exact ⟨le_rfl, Nat.sub_le _ _⟩
    · exact ⟨Nat.sub_le _ _, le_rfl⟩
  have hsize : zulongSize = 2 * 2 ^ 63 := rfl
  constructor
  · exact hlow
  · calc
      base * base ≤ 36 * 36 := Nat.mul_le_mul hhigh hhigh
      _ ≤ zulongSize := by decide
  · omega
  · calc
      zulongSize = 2 * 2 ^ 63 := hsize
      _ ≤ 2 * (zlongLimit neg + 1) := by omega
      _ ≤ base * (zlongLimit neg + 1) := Nat.mul_le_mul_right _ hlow

/-- `neg ? -(zlong)calc : (zlong)calc`. -/
def signedZlong (neg : Bool) (calc' : ℕ) : Zlong :=
  if neg then -BitVec.ofNat 64 calc' else BitVec.ofNat 64 calc'

/-- The integer with a sign and an absolute value. -/
def signedInt (neg : Bool) (x : ℕ) : ℤ := if neg then -(x : ℤ) else x

theorem toInt_signedZlong {neg : Bool} {x : ℕ} (h : x ≤ zlongLimit neg) :
    (signedZlong neg x).toInt = signedInt neg x := by
  cases neg with
  | false =>
    have hx : x ≤ 2 ^ 63 - 1 := h
    calc
      (BitVec.ofNat 64 x).toInt = (BitVec.ofInt 64 (x : ℤ)).toInt := rfl
      _ = x := BitVec.toInt_ofInt_eq_self (by decide) (by omega) (by omega)
  | true =>
    have hx : x ≤ 2 ^ 63 := h
    calc
      (-BitVec.ofNat 64 x).toInt = (BitVec.ofInt 64 (-(x : ℤ))).toInt := by
        rw [BitVec.ofInt_neg]
        rfl
      _ = -(x : ℤ) := BitVec.toInt_ofInt_eq_self (by decide) (by omega) (by omega)

theorem signedZlong_injective {neg : Bool} {x y : ℕ} (hx : x < zulongSize) (hy : y < zulongSize)
    (h : signedZlong neg x = signedZlong neg y) : x = y := by
  have hword : BitVec.ofNat 64 x = BitVec.ofNat 64 y := by
    cases neg with
    | false => exact h
    | true => exact BitVec.neg_inj.mp h
  have hnat := congrArg BitVec.toNat hword
  rwa [toNat_ofNat_zulong, toNat_ofNat_zulong, Nat.mod_eq_of_lt hx, Nat.mod_eq_of_lt hy] at hnat

/-- The test for a number that is just too long for signed notation. -/
theorem tooLong_iff {neg : Bool} {x : ℕ} (hx : x < zulongSize) :
    ((BitVec.ofNat 64 x).msb && (!neg || BitVec.ofNat 64 x ≠ BitVec.intMin 64)) = true ↔
      zlongLimit neg < x := by
  have hmsb : (BitVec.ofNat 64 x).msb = true ↔ 2 ^ 63 ≤ x := by
    rw [BitVec.msb_eq_decide, decide_eq_true_eq, toNat_ofNat_zulong, Nat.mod_eq_of_lt hx]
  have hmin : BitVec.ofNat 64 x = BitVec.intMin 64 ↔ x = 2 ^ 63 := by
    rw [← BitVec.toNat_inj, toNat_ofNat_zulong, Nat.mod_eq_of_lt hx,
      BitVec.toNat_intMin_of_pos (by decide)]
  rw [Bool.and_eq_true, Bool.or_eq_true, decide_eq_true_eq, hmsb, ne_eq, hmin]
  cases neg with
  | false =>
    have hlimit : zlongLimit false = 2 ^ 63 - 1 := rfl
    rw [hlimit, Bool.not_false, eq_self, true_or, and_true]
    omega
  | true =>
    have hlimit : zlongLimit true = 2 ^ 63 := rfl
    rw [hlimit, Bool.not_true, Bool.false_eq_true, false_or]
    omega

theorem DigitText.head {base : ℕ} (hbase : base ≤ 36) {us : Bool} {s : Bytes} {ds : List ℕ}
    (h : DigitText base us s ds) {c : UInt8} (hc : c ∈ s.head?) :
    inblank c = false ∧ isDash c = false ∧ c ≠ char '+' := by
  have hrange : 48 ≤ c.toNat ∧ c.toNat ≤ 122 := by
    cases h with
    | nil => exact nomatch hc
    | digit hdigit _ =>
      cases hc
      obtain ⟨-, hlow, hhigh, -⟩ := digitOf_spec hbase hdigit
      exact ⟨hlow, hhigh⟩
    | underscore _ _ =>
      cases hc
      decide
  have hne {other : UInt8} (hother : other.toNat < 48 ∨ 122 < other.toNat) : c ≠ other := by
    rintro rfl
    omega
  unfold inblank isDash
  refine ⟨?_, ?_, hne (.inl (by decide))⟩
  · simp [hne (.inl (by decide) : (char ' ').toNat < 48 ∨ _),
      hne (.inl (by decide) : (char '\t').toNat < 48 ∨ _),
      hne (.inl (by decide) : (char '\n').toNat < 48 ∨ _)]
  · simp [hne (.inl (by decide) : (char '-').toNat < 48 ∨ _),
      hne (.inr (by decide) : _ ∨ 122 < dashToken.toNat)]

theorem signText_spec {sign : Bytes} {neg : Bool} (h : SignText sign neg) {body : Bytes}
    (hbody : ∀ c ∈ body.head?, inblank c = false ∧ isDash c = false ∧ c ≠ char '+') :
    (sign ++ body).dropWhile inblank = sign ++ body ∧
      (sign ++ body).head?.any isDash = neg ∧
      (if neg || headIs '+' (sign ++ body) then (sign ++ body).tail else sign ++ body) = body := by
  cases h with
  | none =>
    cases body with
    | nil => exact ⟨rfl, rfl, rfl⟩
    | cons c s =>
      obtain ⟨hblank, hdash, hplus⟩ := hbody c rfl
      refine ⟨dropWhile_cons_of_neg (by simp [hblank]), hdash, if_neg ?_⟩
      simpa [headIs] using hplus
  | @minus c hc =>
    have hblank : inblank c = false := by
      unfold isDash at hc
      rw [Bool.or_eq_true, decide_eq_true_eq, decide_eq_true_eq] at hc
      obtain rfl | rfl := hc
      · rfl
      · rfl
    exact ⟨dropWhile_cons_of_neg (by simp [hblank]), hc, rfl⟩
  | plus => exact ⟨rfl, rfl, rfl⟩

/-! ## What is returned -/

section Zstrtol

variable {base : ℕ} {us neg : Bool} {sign text rest : Bytes} {ds : List ℕ}

/-- All digits are consumed; the number is that of the longest prefix that fits, and there is a
warning exactly if that is not the number of all digits. -/
def ZstrtolRight (base : ℕ) (neg : Bool) (ds : List ℕ) (rest : Bytes)
    (result : Option ZstrtolResult) : Prop :=
  ∃ r x, result = some r ∧ r.rest = rest ∧ r.value.toInt = signedInt neg x ∧
    LongestWithin base (zlongLimit neg) ds x ∧
    (r.warning.isSome ↔ zlongLimit neg < value base ds)

theorem zstrtolWarned_read (hlow : 2 ≤ base) (hhigh : base ≤ 36) (hsign : SignText sign neg)
    (htext : DigitText base us text ds) (hrest : EndsDigits base us rest)
    (hsome : text ≠ [] ∨ rest = []) :
    ∃ warning, zstrtolWarned (sign ++ (text ++ rest)) base us =
        some ⟨signedZlong neg (finish base (zlongLimit neg) (read base zulongSize ds 0 false)).1,
          warning, rest⟩ ∧
      warning.isSome = (finish base (zlongLimit neg) (read base zulongSize ds 0 false)).2 := by
  have hhead : ∀ c ∈ (text ++ rest).head?, inblank c = false ∧ isDash c = false ∧ c ≠ char '+' := by
    intro c hc
    apply htext.head hhigh
    cases text with
    | nil =>
      obtain hne | rfl := hsome
      · exact absurd rfl hne
      · exact nomatch hc
    | cons c' s => exact hc
  obtain ⟨hblank, hneg, hbody⟩ := signText_spec hsign hhead
  have hzero : 0 < zulongSize := Nat.two_pow_pos 64
  obtain ⟨trunc, hloop, htrunc⟩ := zstrtolLoop_read hhigh htext hrest hzero none
  have hlt : (read base zulongSize ds 0 false).1 < zulongSize := read_lt ds hzero
  rw [Option.isSome_none] at hloop htrunc
  change zstrtolLoop base us (text ++ rest) 0 none = _ at hloop
  unfold zstrtolWarned
  dsimp only
  rw [hblank, hneg, hbody, if_neg (by omega : ¬ base = 0)]
  rw [if_neg (by omega), hloop]
  generalize read base zulongSize ds 0 false = r at htrunc hlt ⊢
  obtain ⟨acc, noticed⟩ := r
  cases trunc with
  | some t =>
    have hnoticed : noticed = true := htrunc.symm
    subst hnoticed
    exact ⟨some _, rfl, rfl⟩
  | none =>
    have hnoticed : noticed = false := htrunc.symm
    subst hnoticed
    have htoo := @tooLong_iff neg _ hlt
    by_cases hlarge : zlongLimit neg < acc
    · have hdiv : BitVec.ofNat 64 acc / BitVec.ofNat 64 base = BitVec.ofNat 64 (acc / base) := by
        apply BitVec.eq_of_toNat_eq
        rw [BitVec.toNat_udiv, toNat_ofNat_zulong, toNat_ofNat_zulong, toNat_ofNat_zulong,
          Nat.mod_eq_of_lt hlt, Nat.mod_eq_of_lt (hhigh.trans_lt (by decide)),
          Nat.mod_eq_of_lt ((Nat.div_le_self _ _).trans_lt hlt)]
      have hfinish : finish base (zlongLimit neg) (acc, false) = (acc / base, true) :=
        if_pos (by simpa using hlarge)
      rw [Option.isNone_none, Bool.true_and, if_pos (htoo.mpr hlarge), hdiv, hfinish]
      exact ⟨_, rfl, rfl⟩
    · have hfinish : finish base (zlongLimit neg) (acc, false) = (acc, false) :=
        if_neg (by simpa using hlarge)
      rw [Option.isNone_none, Bool.true_and, if_neg (hlarge ∘ htoo.mp), hfinish]
      exact ⟨_, rfl, rfl⟩

theorem zstrtolRight_iff (hlow : 2 ≤ base) (hhigh : base ≤ 36) (hsign : SignText sign neg)
    (htext : DigitText base us text ds) (hrest : EndsDigits base us rest)
    (hsome : text ≠ [] ∨ rest = []) :
    ZstrtolRight base neg ds rest (zstrtolWarned (sign ++ (text ++ rest)) base us) ↔
      Noticed base zulongSize (zlongLimit neg) ds := by
  have hfits := fits_zulong hlow hhigh neg
  have hzero : 0 < zulongSize := Nat.two_pow_pos 64
  rw [← readsRight_iff_noticed hfits (htext.lt_base hhigh)]
  obtain ⟨warning, hresult, hwarning⟩ :=
    zstrtolWarned_read hlow hhigh hsign htext hrest hsome
  have hlt : (finish base (zlongLimit neg) (read base zulongSize ds 0 false)).1 < zulongSize :=
    (finish_le _).trans_lt (read_lt ds hzero)
  rw [hresult, ReadsRight]
  generalize finish base (zlongLimit neg) _ = r at *
  constructor
  · rintro ⟨_, x, hsome, -, hvalue, hlongest, hiff⟩
    cases hsome
    have hx : x ≤ zlongLimit neg := by
      obtain ⟨_, _, _, hle, _⟩ := hlongest
      exact hle
    have hword : signedZlong neg r.1 = signedZlong neg x :=
      BitVec.eq_of_toInt_eq (hvalue.trans (toInt_signedZlong hx).symm)
    have hroom := hfits.room
    rw [signedZlong_injective hlt (by omega) hword, ← hwarning]
    exact ⟨hlongest, hiff⟩
  · rintro ⟨hlongest, hiff⟩
    have hx : r.1 ≤ zlongLimit neg := by
      obtain ⟨_, _, _, hle, _⟩ := hlongest
      exact hle
    refine ⟨_, r.1, rfl, rfl, toInt_signedZlong hx, hlongest, ?_⟩
    rw [← hiff, ← hwarning]

end Zstrtol

/-! ## `zstrtoul_underscore` -/

/-- The loop over the digits; there is no result once an overflow is noticed. -/
def zstrtoulLoop (base : ℕ) : Bytes → Zlong → Option (Zlong × Bytes)
  | [], value => some (value, [])
  | c :: s, value =>
    if c = char '_' then zstrtoulLoop base s value
    else
      match digitOf base c with
      | none => some (value, c :: s)
      | some digit =>
        let newcalc := value * BitVec.ofNat 64 base + BitVec.ofNat 64 digit
        if newcalc < value then none else zstrtoulLoop base s newcalc

/-- `zstrtoul_underscore`. -/
def zstrtoulUnderscore (octalZeroes : Bool) (s : Bytes) : Option Zlong :=
  let s := if headIs '+' s then s.tail else s
  let (base, s) :=
    if headIs '0' s then
      if headIs 'x' s.tail || headIs 'X' s.tail then (16, s.tail.tail)
      else if headIs 'b' s.tail || headIs 'B' s.tail then (2, s.tail.tail)
      else (if octalZeroes then 8 else 10, s.tail)
    else (10, s)
  match zstrtoulLoop base s 0 with
  | some (value, []) => some value
  | _ => none

/-- A text that announces its base, and the text of the digits. -/
inductive UnsignedText (octalZeroes : Bool) : Bytes → ℕ → Bytes → Prop where
  | decimal {s : Bytes} (h : headIs '0' s = false) : UnsignedText octalZeroes s 10 s
  | hexadecimal {c : UInt8} {s : Bytes} (h : c = char 'x' ∨ c = char 'X') :
      UnsignedText octalZeroes (char '0' :: c :: s) 16 s
  | binary {c : UInt8} {s : Bytes} (h : c = char 'b' ∨ c = char 'B') :
      UnsignedText octalZeroes (char '0' :: c :: s) 2 s
  | zero {s : Bytes} (hx : (headIs 'x' s || headIs 'X' s) = false)
      (hb : (headIs 'b' s || headIs 'B' s) = false) :
      UnsignedText octalZeroes (char '0' :: s) (if octalZeroes then 8 else 10) s

section Zstrtoul

variable {octalZeroes : Bool} {base : ℕ} {input text : Bytes} {ds : List ℕ}

/-- The number is returned exactly if it fits. -/
def ZstrtoulRight (base : ℕ) (ds : List ℕ) (result : Option Zlong) : Prop :=
  result = if value base ds < zulongSize then some (BitVec.ofNat 64 (value base ds)) else none

/-- The value of the digits fits, or one of its prefixes is smaller, modulo the size, than the
prefix before. -/
def NoticedUnsigned (base : ℕ) (ds : List ℕ) : Prop :=
  value base ds < zulongSize ∨
    ∃ k < ds.length, value base (ds.take (k + 1)) % zulongSize < value base (ds.take k) % zulongSize

theorem zstrtoulLoop_read (hbase : base ≤ 36) (h : DigitText base true text ds) {acc : ℕ}
    (hacc : acc < zulongSize) :
    zstrtoulLoop base text (BitVec.ofNat 64 acc) =
      if (read base zulongSize ds acc false).2 then none
      else some (BitVec.ofNat 64 (read base zulongSize ds acc false).1, []) := by
  induction h generalizing acc with
  | nil => rfl
  | underscore _ _ ih =>
    exact ih hacc
  | @digit c s d ds hdigit _ ih =>
    obtain ⟨-, -, -, hother⟩ := digitOf_spec hbase hdigit
    have hunder : c ≠ char '_' := by
      rintro rfl
      exact hother rfl
    have hmod : (base * acc + d) % zulongSize < zulongSize :=
      Nat.mod_lt _ (Nat.zero_lt_of_lt hacc)
    rw [zstrtoulLoop, if_neg hunder, hdigit]
    simp only [newcalc_eq, newcalc_lt_iff hacc]
    by_cases hfalls : (base * acc + d) % zulongSize < acc
    · rw [if_pos hfalls, read_cons_of_lt hfalls]
      rfl
    · rw [if_neg hfalls, read_cons_of_le (not_lt.mp hfalls)]
      exact ih hmod

/-- The base is announced and the digits are read. -/
theorem zstrtoulUnderscore_eq (h : UnsignedText octalZeroes input base text)
    (htext : DigitText base true text ds) (plus : Bool) :
    zstrtoulUnderscore octalZeroes ((if plus then [char '+'] else []) ++ input) =
      match zstrtoulLoop base text 0 with
      | some (value, []) => some value
      | _ => none := by
  have hplus : headIs '+' input = false := by
    cases h with
    | decimal _ =>
      cases input with
      | nil => rfl
      | cons c s =>
        have hne := (htext.head (by decide) rfl).2.2
        simpa [headIs] using hne
    | hexadecimal _ => rfl
    | binary _ => rfl
    | zero _ _ => rfl
  have hinput : (if headIs '+' ((if plus then [char '+'] else []) ++ input) then
      ((if plus then [char '+'] else []) ++ input).tail
      else (if plus then [char '+'] else []) ++ input) = input := by
    cases plus with
    | true => rfl
    | false =>
      rw [if_neg (by decide : ¬ false = true), nil_append, hplus]
      rfl
  unfold zstrtoulUnderscore
  rw [hinput]
  dsimp only
  cases h with
  | decimal h =>
    rw [h]
    rfl
  | hexadecimal h =>
    obtain rfl | rfl := h
    · rfl
    · rfl
  | binary h =>
    obtain rfl | rfl := h
    · rfl
    · rfl
  | zero hx hb =>
    have hzero : headIs '0' (char '0' :: text) = true := rfl
    rw [hzero, if_pos rfl, tail_cons, hx, hb]
    rfl

theorem zstrtoulRight_iff (h : UnsignedText octalZeroes input base text)
    (htext : DigitText base true text ds) (plus : Bool) :
    ZstrtoulRight base ds
        (zstrtoulUnderscore octalZeroes ((if plus then [char '+'] else []) ++ input)) ↔
      NoticedUnsigned base ds := by
  have hzero : 0 < zulongSize := Nat.two_pow_pos 64
  have hbase : 2 ≤ base ∧ base ≤ 36 := by
    cases h with
    | decimal _ => decide
    | hexadecimal _ => decide
    | binary _ => decide
    | zero _ _ => cases octalZeroes <;> decide
  have hloop : zstrtoulLoop base text 0 = _ := zstrtoulLoop_read hbase.2 htext hzero
  have hnoticed := read_snd_iff (b := base) (N := zulongSize) ds 0
  rw [Nat.zero_mod] at hnoticed
  rw [zstrtoulUnderscore_eq h htext plus, hloop, ZstrtoulRight, NoticedUnsigned]
  by_cases hvalue : value base ds < zulongSize
  · have hread : read base zulongSize ds 0 false = (value base ds, false) := by
      have happend := read_append (hbase.1.trans' (by decide)) [] hvalue
      rwa [append_nil] at happend
    rw [hread, if_pos hvalue]
    exact iff_of_true rfl (.inl hvalue)
  · rw [if_neg hvalue, or_iff_right hvalue, ← hnoticed]
    cases (read base zulongSize ds 0 false).2 with
    | true => exact iff_of_true rfl rfl
    | false => exact iff_of_false (fun h ↦ by cases h) Bool.false_ne_true

end Zstrtoul

/-! ## Both readers -/

/-- What the readers make of a number is what it should be for exactly the digits whose prefixes,
modulo the size, tell that they are too many. -/
theorem zstrtol_zstrtoul_iff {base : ℕ} {us neg : Bool} {sign text rest : Bytes} {ds : List ℕ}
    (hlow : 2 ≤ base) (hhigh : base ≤ 36) (hsign : SignText sign neg)
    (htext : DigitText base us text ds) (hrest : EndsDigits base us rest)
    (hsome : text ≠ [] ∨ rest = []) {octalZeroes : Bool} {base' : ℕ} {input text' : Bytes}
    {ds' : List ℕ} (hinput : UnsignedText octalZeroes input base' text')
    (htext' : DigitText base' true text' ds') (plus : Bool) :
    (ZstrtolRight base neg ds rest (zstrtolWarned (sign ++ (text ++ rest)) base us) ↔
      Noticed base zulongSize (zlongLimit neg) ds) ∧
    (ZstrtoulRight base' ds'
        (zstrtoulUnderscore octalZeroes ((if plus then [char '+'] else []) ++ input)) ↔
      NoticedUnsigned base' ds') :=
  ⟨zstrtolRight_iff hlow hhigh hsign htext hrest hsome, zstrtoulRight_iff hinput htext' plus⟩

/-- `-ff` in base 16 and `0x1f`. -/
theorem zstrtol_zstrtoul_small :
    (ZstrtolRight 16 true [15, 15] [] (zstrtolWarned (ascii "-ff") 16 false) ↔
      Noticed 16 zulongSize (zlongLimit true) [15, 15]) ∧
    (ZstrtoulRight 16 [1, 15] (zstrtoulUnderscore false (ascii "0x1f")) ↔
      NoticedUnsigned 16 [1, 15]) :=
  @zstrtol_zstrtoul_iff _ _ _ [char '-'] (ascii "ff") [] _ (by decide) (by decide) (.minus rfl)
    (digitText_filterMap false (by decide)) (fun c hc ↦ nomatch hc) (.inr rfl) _ _ _ _ _
    (.hexadecimal (.inl rfl)) (digitText_filterMap true (by decide)) false

/-- The digits of 25 times a power of ten. -/
def wrappingDigits : Bytes := ascii "25000000000000000000"

/-- They wrap to a larger number, which is returned without a warning. -/
theorem zstrtol_wraps :
    DigitText 10 false wrappingDigits (wrappingDigits.filterMap (digitOf 10)) ∧
    (zstrtolWarned wrappingDigits 10 false).map (fun r ↦ (r.value.toNat, r.warning.isSome)) =
      some (6553255926290448384, false) ∧
    ¬ ZstrtolRight 10 false (wrappingDigits.filterMap (digitOf 10)) []
        (zstrtolWarned wrappingDigits 10 false) ∧
    ¬ ZstrtoulRight 10 (wrappingDigits.filterMap (digitOf 10))
        (zstrtoulUnderscore false wrappingDigits) := by
  have hresult : (zstrtolWarned wrappingDigits 10 false).map
      (fun r ↦ (r.value.toNat, r.warning.isSome)) = some (6553255926290448384, false) := by rfl
  refine ⟨digitText_filterMap false (by decide), hresult, ?_, ?_⟩
  · rintro ⟨r, x, hr, -, -, -, hiff⟩
    rw [hr, Option.map_some, Option.some_inj] at hresult
    have hwarning : r.warning.isSome = false := (Prod.mk.inj hresult).2
    have hlarge : zlongLimit false < value 10 (wrappingDigits.filterMap (digitOf 10)) := by decide
    rw [hiff.mpr hlarge] at hwarning
    exact absurd hwarning (by decide)
  · intro hright
    have hfound : (zstrtoulUnderscore false wrappingDigits).isSome = true := by rfl
    rw [hright] at hfound
    exact absurd hfound (by decide)

end Bsh.Shell
