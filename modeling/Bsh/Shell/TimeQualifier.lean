import Mathlib.Data.Rat.Floor
import Mathlib.Tactic.NormNum
import Bsh.Shell.Numbers

/-!
# Time qualifiers of glob patterns

The qualifiers `a`, `m` and `c` compare the age of a file with a number of units.  The manual says
that the age is taken in whole units, so that times strictly between five and six hours are five
hours.  The parser turns the number into seconds instead, to make fractions of units work, and the
test compares seconds.  The two agree unless the age is a number of whole units and a fraction, and
the whole units are the number of the qualifier.

Floating point is taken as exact rationals.  A conversion to an integer that does not fit is
undefined in C and may give anything.
-/

namespace Bsh.Shell

open Bsh.Library List

/-! ## The parser -/

/-- `TT_SECONDS` and the other units. -/
inductive TimeUnit where
  | seconds
  | minutes
  | hours
  | days
  | weeks
  | months
deriving DecidableEq

/-- `unit_secs`. -/
def TimeUnit.unitSecs : TimeUnit → ℕ
  | seconds => 1
  | minutes => 60
  | hours => 3600
  | days => 86400
  | weeks => 604800
  | months => 2592000

/-- Which time is tested: `g_amc`. -/
inductive FileTime where
  | access
  | modification
  | change
deriving DecidableEq

/-- The times of a file. -/
structure FileTimes where
  atime : ℤ
  mtime : ℤ
  ctime : ℤ

def FileTimes.get (times : FileTimes) : FileTime → ℤ
  | .access => times.atime
  | .modification => times.mtime
  | .change => times.ctime

/-- The letter of the qualifier. -/
def fileTime (c : UInt8) : Option FileTime :=
  if c = char 'a' then some .access
  else if c = char 'm' then some .modification
  else if c = char 'c' then some .change
  else none

/-- The multiplier behind the letter. -/
def takeUnit : Bytes → TimeUnit × Bytes
  | [] => (.days, [])
  | c :: s =>
    if c = char 'h' then (.hours, s)
    else if c = char 'm' then (.minutes, s)
    else if c = char 'w' then (.weeks, s)
    else if c = char 'M' then (.months, s)
    else if c = char 's' then (.seconds, s)
    else if c = char 'd' then (.days, s)
    else (.days, c :: s)

/-- `g_range`: 1 for `+`, -1 for a dash, else 0. -/
def takeRange : Bytes → ℤ × Bytes
  | [] => (0, [])
  | c :: s => if c = char '+' then (1, s) else if isDash c then (-1, s) else (0, c :: s)

/-- `*s - '0'`. -/
def digitRat (c : UInt8) : ℚ := ((c.toNat - (char '0').toNat : ℕ) : ℚ)

/-- The loop of `qgetfloat` in front of the point. -/
def takeWhole : Bytes → ℚ → ℚ × Bytes
  | [], v => (v, [])
  | c :: s, v => if idigit c then takeWhole s (v * 10 + digitRat c) else (v, c :: s)

/-- The loop of `qgetfloat` behind the point. -/
def takeFraction : Bytes → ℚ → ℚ → ℚ × Bytes
  | [], v, _ => (v, [])
  | c :: s, v, frac =>
    if idigit c then takeFraction s (v + digitRat c * frac) (frac * (1 / 10)) else (v, c :: s)

/-- `qgetfloat`; the error is its message. -/
def qgetfloat (s : Bytes) : Except String (ℚ × Bytes) :=
  if s.head?.any idigit then
    match takeWhole s 0 with
    | (v, c :: rest) => .ok (if c = char '.' then takeFraction rest v (1 / 10) else (v, c :: rest))
    | (v, []) => .ok (v, [])
  else .error "number expected"

/-- `(off_t)`, with what it gives for a number that does not fit. -/
def toOff (undefined : ℚ → ℤ) (q : ℚ) : ℤ :=
  if -2 ^ 63 - 1 < q ∧ q < 2 ^ 63 then q.num.tdiv q.den else undefined q

/-- The fields of the `struct qual` of a time qualifier. -/
structure TimeQual where
  amc : FileTime
  range : ℤ
  units : TimeUnit
  data : ℤ

/-- The cases `a`, `m` and `c` of `zglob` up to the end of `getrange`. -/
def timeQualifier (undefined : ℚ → ℤ) (amc : FileTime) (s : Bytes) :
    Except String (TimeQual × Bytes) :=
  let (units, s) := takeUnit s
  let (range, s) := takeRange s
  match qgetfloat s with
  | .error text => .error text
  | .ok (fval, rest) =>
    .ok (⟨amc, range, .seconds, toOff undefined (fval * (units.unitSecs : ℚ))⟩, rest)

/-- `qualtime` with the settings of the qualifier. -/
def qualtime (q : TimeQual) (now : ℤ) (times : FileTimes) : Bool :=
  let diff := (now - times.get q.amc).tdiv q.units.unitSecs
  if q.range < 0 then diff < q.data else if 0 < q.range then q.data < diff else diff = q.data

end Bsh.Shell

/-!
# The age of a file

What a time qualifier reads from its text, and when the comparison of seconds gives what the manual
says about whole units.
-/

namespace Bsh.Shell

open Bsh.Library List

/-- A time qualifier behind its letter: the unit, the sign and the number, which may have a
fraction of zeros. -/
structure TimeText where
  unit : Option UInt8
  sign : Option UInt8
  digits : Bytes
  zeros : Option ℕ
  unit_mem : ∀ c ∈ unit, c ∈ Bytes.ascii "Mwhmsd"
  sign_mem : ∀ c ∈ sign, c = char '+' ∨ isDash c = true
  digits_ne_nil : digits ≠ []
  idigit_of_mem : ∀ c ∈ digits, idigit c = true

namespace TimeText

/-- The text of the qualifier. -/
def text (t : TimeText) : Bytes :=
  t.unit.toList ++ (t.sign.toList ++
    (t.digits ++ t.zeros.elim [] fun k ↦ char '.' :: List.replicate k (char '0')))

/-- The number ends in front of what follows. -/
def EndsBefore (t : TimeText) (rest : Bytes) : Prop :=
  rest.head?.any idigit = false ∧ (t.zeros = none → rest.head? ≠ some (char '.'))

theorem endsBefore_nil (t : TimeText) : t.EndsBefore [] :=
  ⟨rfl, fun _ h ↦ Option.some_ne_none _ h.symm⟩

/-- The number `n`. -/
def number (t : TimeText) : ℕ := digitsFrom 0 t.digits

/-- The unit: days when there is no letter. -/
def units (t : TimeText) : TimeUnit :=
  match t.unit with
  | none => .days
  | some c =>
    if c = char 'M' then .months
    else if c = char 'w' then .weeks
    else if c = char 'h' then .hours
    else if c = char 'm' then .minutes
    else if c = char 's' then .seconds
    else .days

/-- An age in whole units; any fractional part is ignored. -/
def wholeUnits (t : TimeText) (age : ℤ) : ℤ := age.tdiv t.units.unitSecs

/-- Compares as the sign says. -/
def Compares (t : TimeText) (a n : ℤ) : Prop :=
  match t.sign with
  | none => a = n
  | some c => if c = char '+' then n < a else a < n

/-- What the manual says. -/
def Accepts (t : TimeText) (age : ℤ) : Prop := t.Compares (t.wholeUnits age) t.number

/-- The test of the qualifier accepts what the manual says, whatever the conversion of a number
that is too large gives. -/
def AgreesWithManual (t : TimeText) (amc : FileTime) (now : ℤ) (times : FileTimes) : Prop :=
  ∀ (undefined : ℚ → ℤ) (rest : Bytes), t.EndsBefore rest →
    ∃ q, timeQualifier undefined amc (t.text ++ rest) = .ok (q, rest) ∧
      (qualtime q now times = true ↔ t.Accepts (now - times.get amc))

/-! ## Reading the text -/

variable (t : TimeText)

theorem digits_head (rest : Bytes) : (t.digits ++ rest).head?.any idigit = true := by
  obtain ⟨d, ds, hdigits⟩ := exists_cons_of_ne_nil t.digits_ne_nil
  rw [hdigits]
  exact t.idigit_of_mem d (hdigits ▸ mem_cons_self)

set_option maxRecDepth 4000 in
theorem digit_not_unit : ∀ c, idigit c = true ∨ c = char '+' ∨ isDash c = true →
    ∀ s, takeUnit (c :: s) = (.days, c :: s) := by
  have hplain : ∀ c, idigit c = true ∨ c = char '+' ∨ isDash c = true →
      c ≠ char 'h' ∧ c ≠ char 'm' ∧ c ≠ char 'w' ∧ c ≠ char 'M' ∧ c ≠ char 's' ∧ c ≠ char 'd' :=
    Bytes.forall_byte (by decide)
  intro c hc s
  obtain ⟨hh, hm, hw, hM, hs, hd⟩ := hplain c hc
  rw [takeUnit, if_neg hh, if_neg hm, if_neg hw, if_neg hM, if_neg hs, if_neg hd]

theorem takeUnit_text (rest : Bytes) :
    takeUnit (t.unit.toList ++ (t.sign.toList ++ (t.digits ++ rest))) =
      (t.units, t.sign.toList ++ (t.digits ++ rest)) := by
  rw [units]
  cases hunit : t.unit with
  | none =>
    cases hsign : t.sign with
    | none =>
      obtain ⟨d, ds, hdigits⟩ := exists_cons_of_ne_nil t.digits_ne_nil
      rw [hdigits, cons_append]
      exact digit_not_unit d (.inl (t.idigit_of_mem d (hdigits ▸ mem_cons_self))) _
    | some c => exact digit_not_unit c (.inr (t.sign_mem c hsign)) _
  | some c =>
    have hmem := t.unit_mem c hunit
    have hcases : c = char 'M' ∨ c = char 'w' ∨ c = char 'h' ∨ c = char 'm' ∨ c = char 's' ∨
        c = char 'd' := by
      simpa [Bytes.ascii, char] using hmem
    obtain rfl | rfl | rfl | rfl | rfl | rfl := hcases <;> rfl

set_option maxRecDepth 4000 in
theorem digit_not_sign : ∀ c, idigit c = true → c ≠ char '+' ∧ isDash c = false :=
  Bytes.forall_byte (by decide)

/-- `g_range`. -/
def range : ℤ :=
  match t.sign with
  | none => 0
  | some c => if c = char '+' then 1 else -1

theorem takeRange_text (rest : Bytes) :
    takeRange (t.sign.toList ++ (t.digits ++ rest)) = (t.range, t.digits ++ rest) := by
  rw [range]
  cases hsign : t.sign with
  | none =>
    rw [Option.toList_none, nil_append]
    obtain ⟨d, ds, hdigits⟩ := exists_cons_of_ne_nil t.digits_ne_nil
    rw [hdigits, cons_append]
    obtain ⟨hplus, hdash⟩ := digit_not_sign d (t.idigit_of_mem d (hdigits ▸ mem_cons_self))
    rw [takeRange, if_neg hplus, if_neg (by rw [hdash]; exact Bool.false_ne_true)]
  | some c =>
    rw [Option.toList_some, singleton_append, takeRange]
    dsimp only
    by_cases hplus : c = char '+'
    · rw [if_pos hplus, if_pos hplus]
    · rw [if_neg hplus, if_neg hplus, if_pos ((t.sign_mem c hsign).resolve_left hplus)]

theorem takeWhole_digits {digits : Bytes} (hdigits : ∀ c ∈ digits, idigit c = true) {rest : Bytes}
    (hrest : rest.head?.any idigit = false) (v : ℕ) :
    takeWhole (digits ++ rest) v = (((digitsFrom v digits : ℕ) : ℚ), rest) := by
  induction digits generalizing v with
  | nil =>
    rw [nil_append]
    cases rest with
    | nil => rfl
    | cons c rest =>
      have hc : idigit c = false := hrest
      rw [takeWhole, if_neg (by rw [hc]; exact Bool.false_ne_true)]
      rfl
  | cons c digits ih =>
    have hstep : (v : ℚ) * 10 + digitRat c = ((v * 10 + (c.toNat - (char '0').toNat) : ℕ) : ℚ) := by
      push_cast
      rfl
    rw [cons_append, takeWhole, if_pos (hdigits c mem_cons_self), hstep]
    exact ih (fun d hd ↦ hdigits d (mem_cons_of_mem _ hd)) _

theorem takeFraction_zeros (k : ℕ) {rest : Bytes} (hrest : rest.head?.any idigit = false)
    (v frac : ℚ) : takeFraction (List.replicate k (char '0') ++ rest) v frac = (v, rest) := by
  induction k generalizing frac with
  | zero =>
    rw [replicate_zero, nil_append]
    cases rest with
    | nil => rfl
    | cons c rest =>
      have hc : idigit c = false := hrest
      rw [takeFraction, if_neg (by rw [hc]; exact Bool.false_ne_true)]
  | succ k ih =>
    have hzero : digitRat (char '0') = 0 := rfl
    have hdigit : idigit (char '0') = true := by decide
    rw [replicate_succ, cons_append, takeFraction, if_pos hdigit, hzero, zero_mul,
      add_zero]
    exact ih _

theorem qgetfloat_text {rest : Bytes} (hrest : t.EndsBefore rest) :
    qgetfloat (t.digits ++ ((t.zeros.elim [] fun k ↦ char '.' :: List.replicate k (char '0')) ++
      rest)) = .ok ((t.number : ℚ), rest) := by
  obtain ⟨hdigit, hpoint⟩ := hrest
  have hnumber {behind : Bytes} (hbehind : behind.head?.any idigit = false) :
      takeWhole (t.digits ++ behind) 0 = ((t.number : ℚ), behind) := by
    have hwhole := takeWhole_digits t.idigit_of_mem hbehind 0
    rwa [Nat.cast_zero] at hwhole
  rw [qgetfloat, if_pos (t.digits_head _)]
  cases hzeros : t.zeros with
  | none =>
    rw [Option.elim_none, nil_append, hnumber hdigit]
    cases rest with
    | nil => rfl
    | cons c rest =>
      have hc : c ≠ char '.' := fun heq ↦ hpoint hzeros (congrArg some heq)
      dsimp only
      rw [if_neg hc]
  | some k =>
    have hhead : (char '.' :: (List.replicate k (char '0') ++ rest)).head?.any idigit = false := by
      rfl
    rw [Option.elim_some, cons_append, hnumber hhead]
    dsimp only
    rw [if_pos rfl, takeFraction_zeros k hdigit]

theorem timeQualifier_text (undefined : ℚ → ℤ) (amc : FileTime) {rest : Bytes}
    (hrest : t.EndsBefore rest) :
    timeQualifier undefined amc (t.text ++ rest) =
      .ok (⟨amc, t.range, .seconds,
        toOff undefined ((t.number * t.units.unitSecs : ℕ) : ℚ)⟩, rest) := by
  rw [text, append_assoc, append_assoc, append_assoc, timeQualifier,
    t.takeUnit_text]
  dsimp only
  rw [t.takeRange_text]
  rw [t.qgetfloat_text hrest, Nat.cast_mul]

/-! ## Seconds and whole units -/

theorem toOff_natCast (undefined : ℚ → ℤ) (x : ℕ) :
    toOff undefined (x : ℚ) = if x < 2 ^ 63 then (x : ℤ) else undefined x := by
  have hlow : (-2 ^ 63 - 1 : ℚ) < x := by
    linarith
  have hhigh : (x : ℚ) < 2 ^ 63 ↔ x < 2 ^ 63 := by exact_mod_cast Iff.rfl
  rw [toOff]
  by_cases hx : x < 2 ^ 63
  · rw [if_pos ⟨hlow, hhigh.mpr hx⟩, if_pos hx, Rat.num_natCast, Rat.den_natCast]
    exact Int.tdiv_one _
  · rw [if_neg fun h ↦ hx (hhigh.mp h.2), if_neg hx]

section Units

variable {d u n : ℤ} (hu : 0 < u)

include hu

theorem lt_mul_of_tdiv_lt (h : d.tdiv u < n) : d < n * u := by
  have hlt := Int.lt_tdiv_add_one_mul_self d hu
  have hle : (d.tdiv u + 1) * u ≤ n * u := Int.mul_le_mul_of_nonneg_right h hu.le
  exact hlt.trans_le hle

theorem mul_lt_of_lt_tdiv (h : n < d.tdiv u) : n * u < d := by
  have hneg : (-d).tdiv u < -n := by
    rw [Int.neg_tdiv]
    omega
  have hlt := lt_mul_of_tdiv_lt hu hneg
  rw [Int.neg_mul] at hlt
  omega

theorem tdiv_eq_of_eq (h : d = n * u) : d.tdiv u = n := by
  rw [h, Int.mul_tdiv_cancel _ hu.ne']

end Units

/-- Seconds are compared otherwise than whole units only where the whole units are the number. -/
theorem compares_seconds_iff (t : TimeText) (d n : ℤ) :
    (t.Compares d (n * t.units.unitSecs) ↔ t.Compares (t.wholeUnits d) n) ↔
      ¬ (t.wholeUnits d = n ∧
        match t.sign with
        | none => d ≠ n * t.units.unitSecs
        | some c => if c = char '+' then n * t.units.unitSecs < d else d < n * t.units.unitSecs) := by
  have hu : (0 : ℤ) < t.units.unitSecs := by
    cases t.units <;> decide
  have hbelow := @lt_mul_of_tdiv_lt d _ n hu
  have habove := @mul_lt_of_lt_tdiv d _ n hu
  have hequal := @tdiv_eq_of_eq d _ n hu
  rw [Compares, Compares, wholeUnits]
  cases t.sign with
  | none =>
    constructor
    · intro h hboth
      exact hboth.2 (h.mpr hboth.1)
    · intro h
      exact ⟨hequal, fun hq ↦ by_contra fun hne ↦ h ⟨hq, hne⟩⟩
  | some c =>
    by_cases hplus : c = char '+'
    · simp only [if_pos hplus]
      omega
    · simp only [if_neg hplus]
      omega

theorem qualtime_iff (amc : FileTime) (data now : ℤ) (times : FileTimes) :
    qualtime ⟨amc, t.range, .seconds, data⟩ now times = true ↔
      t.Compares (now - times.get amc) data := by
  have hone : (now - times.get amc).tdiv (TimeUnit.seconds.unitSecs : ℤ) = now - times.get amc :=
    Int.tdiv_one _
  rw [qualtime, hone, range, Compares]
  cases t.sign with
  | none => simp
  | some c =>
    by_cases hplus : c = char '+'
    · simp [if_pos hplus]
    · simp [if_neg hplus]

/-- A value on which the comparison turns out as one likes. -/
theorem exists_compares (a : ℤ) : ∃ n n', t.Compares a n ∧ ¬ t.Compares a n' := by
  unfold Compares
  cases t.sign with
  | none => exact ⟨a, a + 1, rfl, by omega⟩
  | some c =>
    by_cases hplus : c = char '+'
    · simp only [if_pos hplus]
      exact ⟨a - 1, a, by omega, by omega⟩
    · simp only [if_neg hplus]
      exact ⟨a + 1, a, by omega, by omega⟩

/-- The whole units of the age are the number of the qualifier, but the age has a fraction that
tips the comparison of seconds. -/
def FractionCounts (t : TimeText) (age : ℤ) : Prop :=
  t.wholeUnits age = t.number ∧
    match t.sign with
    | none => age ≠ t.number * t.units.unitSecs
    | some c =>
      if c = char '+' then t.number * t.units.unitSecs < age
      else age < t.number * t.units.unitSecs

/-- `h+5`. -/
def fiveHours : TimeText where
  unit := some (char 'h')
  sign := some (char '+')
  digits := Bytes.ascii "5"
  zeros := none
  unit_mem := by
    rintro c ⟨⟩
    exact mem_cons_of_mem _ (mem_cons_of_mem _ mem_cons_self)
  sign_mem := fun _ h ↦ .inl (Option.some.inj h).symm
  digits_ne_nil := cons_ne_nil (char '5') []
  idigit_of_mem := by decide

end TimeText

end Bsh.Shell
