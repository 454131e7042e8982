import Mathlib.Tactic.IntervalCases
import Bsh.Library.Decimal

/-!
# Characters and numbers of the shell

Character classes of `ztype.h` as far as they do not depend on options, and `zstrtol_underscore`,
which reads integers of any base in 64-bit arithmetic.
-/

namespace Bsh.Shell

open Bsh.Library List

/-- A character of the source. -/
def char (c : Char) : UInt8 := UInt8.ofNat c.toNat

/-- `*s == c`. -/
def headIs (c : Char) (s : Bytes) : Bool := s.head? = some (char c)

/-- The token `Dash`. -/
def dashToken : UInt8 := 0x9B

/-- `IS_DASH`. -/
def isDash (c : UInt8) : Bool := c = char '-' || c = dashToken

/-- `idigit`. -/
def idigit (c : UInt8) : Bool := char '0' ≤ c && c ≤ char '9'

theorem idigit_ofNat {code : ℕ} (h : Decimal.isDigitCode code = true) :
    idigit (UInt8.ofNat code) = true := by
  unfold Decimal.isDigitCode at h
  rw [Bool.and_eq_true, decide_eq_true_eq, decide_eq_true_eq] at h
  obtain ⟨hlow, hhigh⟩ := h
  interval_cases code <;> rfl

theorem idigit_of_mem_decimal {n : ℕ} {c : UInt8} (h : c ∈ Decimal.decimal n) : idigit c = true := by
  obtain ⟨code, hcode, rfl⟩ := List.mem_map.mp h
  exact idigit_ofNat (Decimal.isDigitCode_of_mem_decimalCodes hcode)

theorem idigit_of_mem_padded {width n : ℕ} {c : UInt8} (h : c ∈ Decimal.padded width n) :
    idigit c = true := by
  obtain ⟨code, hcode, rfl⟩ := List.mem_map.mp h
  exact idigit_ofNat (Decimal.isDigitCode_of_mem_paddedCodes hcode)

/-- `inblank`. -/
def inblank (c : UInt8) : Bool := c = char ' ' || c = char '\t' || c = char '\n'

/-- `zlong`, with the arithmetic of two's complement. -/
abbrev Zlong := BitVec 64

/-- The digit that a character is in a base. -/
def digitOf (base : ℕ) (c : UInt8) : Option ℕ :=
  if base ≤ 10 then
    if char '0' ≤ c ∧ c.toNat < (char '0').toNat + base then some (c.toNat - (char '0').toNat)
    else none
  else if idigit c then some (c.toNat - (char '0').toNat)
  else if char 'a' ≤ c ∧ c.toNat < (char 'a').toNat + base - 10 then some (c.toNat % 32 + 9)
  else if char 'A' ≤ c ∧ c.toNat < (char 'A').toNat + base - 10 then some (c.toNat % 32 + 9)
  else none

/-- The loop over the digits: what has been read, whether it had to be truncated, and the rest. -/
def zstrtolDigits (base : ℕ) (underscore : Bool) : Bytes → Zlong → Bool → Zlong × Bool × Bytes
  | [], value, trunc => (value, trunc, [])
  | c :: s, value, trunc =>
    if underscore ∧ c = char '_' then zstrtolDigits base underscore s value trunc
    else
      match digitOf base c with
      | none => (value, trunc, c :: s)
      | some digit =>
        let newcalc := value * BitVec.ofNat 64 base + BitVec.ofNat 64 digit
        if trunc ∨ newcalc < value then zstrtolDigits base underscore s value true
        else zstrtolDigits base underscore s newcalc false

/-- The base that a prefix announces, and what follows the prefix. -/
def announcedBase (s : Bytes) : ℕ × Bytes :=
  if headIs '0' s then
    if headIs 'x' s.tail || headIs 'X' s.tail then (16, s.tail.tail)
    else if headIs 'b' s.tail || headIs 'B' s.tail then (2, s.tail.tail)
    else (8, s.tail)
  else (10, s)

/-- `zstrtol_underscore`; there is no result for an invalid base. -/
def zstrtolUnderscore (s : Bytes) (base : ℕ) (underscore : Bool) : Option (Zlong × Bytes) :=
  let s := s.dropWhile inblank
  let neg := s.head?.any isDash
  let s := if neg || headIs '+' s then s.tail else s
  let (base, s) := if base = 0 then announcedBase s else (base, s)
  if base < 2 ∨ 36 < base then none
  else
    let (value, trunc, rest) := zstrtolDigits base underscore s 0 false
    -- A number that is just too long for signed notation loses its last digit.
    let value :=
      if !trunc && value.msb && (!neg || value ≠ BitVec.intMin 64) then
        value / BitVec.ofNat 64 base
      else value
    some (if neg then -value else value, rest)

/-- `zstrtol`. -/
def zstrtol (s : Bytes) (base : ℕ) : Option (Zlong × Bytes) := zstrtolUnderscore s base false

/-! ## Digits -/

set_option maxRecDepth 4000 in
theorem digitOf_digit : ∀ c, idigit c = true →
    digitOf 10 c = some (c.toNat - (char '0').toNat) ∧ c.toNat - (char '0').toNat < 10 :=
  Bytes.forall_byte (by decide)

set_option maxRecDepth 4000 in
theorem digitOf_other : ∀ c, idigit c = false → digitOf 10 c = none :=
  Bytes.forall_byte (by decide)

/-- The value of digits behind others. -/
def digitsFrom (value : ℕ) (digits : Bytes) : ℕ :=
  digits.foldl (fun value c ↦ value * 10 + (c.toNat - (char '0').toNat)) value

theorem le_digitsFrom (value : ℕ) (digits : Bytes) : value ≤ digitsFrom value digits := by
  induction digits generalizing value with
  | nil => exact le_rfl
  | cons c digits ih =>
    have hstep : value ≤ value * 10 + (c.toNat - (char '0').toNat) := by omega
    exact hstep.trans (ih _)

theorem digitsFrom_codeBytes {codes : List ℕ}
    (hcodes : ∀ code ∈ codes, Decimal.isDigitCode code = true) (value : ℕ) :
    digitsFrom value (Decimal.codeBytes codes) =
      codes.foldl (fun value code ↦ value * 10 + (code - 0x30)) value := by
  induction codes generalizing value with
  | nil => rfl
  | cons code codes ih =>
    have hcode := hcodes code mem_cons_self
    unfold Decimal.isDigitCode at hcode
    rw [Bool.and_eq_true, decide_eq_true_eq, decide_eq_true_eq] at hcode
    have hbyte : (UInt8.ofNat code).toNat = code := by
      rw [UInt8.toNat_ofNat']
      omega
    have hstep := ih (fun c hc ↦ hcodes c (mem_cons_of_mem _ hc)) (value * 10 + (code - 0x30))
    rw [foldl_cons, ← hstep]
    unfold digitsFrom Decimal.codeBytes
    rw [map_cons, foldl_cons, hbyte]
    rfl

theorem digitsFrom_decimal (n : ℕ) : digitsFrom 0 (Decimal.decimal n) = n :=
  (digitsFrom_codeBytes (fun _ ↦ Decimal.isDigitCode_of_mem_decimalCodes) 0).trans
    (Decimal.digitsValue_decimalCodes n)

theorem digitsFrom_padded (width n : ℕ) :
    digitsFrom 0 (Decimal.padded width n) = n % 10 ^ width :=
  (digitsFrom_codeBytes (fun _ ↦ Decimal.isDigitCode_of_mem_paddedCodes) 0).trans
    (Decimal.digitsValue_paddedCodes width n)

theorem zstrtolDigits_digits {digits : Bytes} (hdigits : ∀ c ∈ digits, idigit c = true) {value : ℕ}
    (hvalue : digitsFrom value digits < 2 ^ 64) {rest : Bytes}
    (hrest : rest.head?.any idigit = false) :
    zstrtolDigits 10 false (digits ++ rest) (BitVec.ofNat 64 value) false =
      (BitVec.ofNat 64 (digitsFrom value digits), false, rest) := by
  induction digits generalizing value with
  | nil =>
    cases rest with
    | nil => rfl
    | cons c rest =>
      rw [nil_append, zstrtolDigits, if_neg (by simp), digitOf_other c hrest]
      rfl
  | cons c digits ih =>
    obtain ⟨hdigit, hlt⟩ := digitOf_digit c (hdigits c mem_cons_self)
    have hfrom : digitsFrom value (c :: digits) =
        digitsFrom (value * 10 + (c.toNat - (char '0').toNat)) digits := rfl
    rw [hfrom] at hvalue ⊢
    generalize c.toNat - (char '0').toNat = d at hdigit hlt hvalue ⊢
    have hnext := (le_digitsFrom (value * 10 + d) digits).trans_lt hvalue
    have hcalc : BitVec.ofNat 64 value * BitVec.ofNat 64 10 + BitVec.ofNat 64 d =
        BitVec.ofNat 64 (value * 10 + d) := by
      rw [BitVec.ofNat_add, BitVec.ofNat_mul]
    have hnot : ¬ (BitVec.ofNat 64 (value * 10 + d) < BitVec.ofNat 64 value) := by
      rw [BitVec.lt_def, BitVec.toNat_ofNat, BitVec.toNat_ofNat, Nat.mod_eq_of_lt hnext,
        Nat.mod_eq_of_lt (by omega)]
      omega
    rw [cons_append, zstrtolDigits, if_neg (by simp), hdigit]
    simp only [hcalc, Bool.false_eq_true, false_or, if_neg hnot]
    exact ih (fun c hc ↦ hdigits c (mem_cons_of_mem _ hc)) hvalue

set_option maxRecDepth 4000 in
theorem not_dash_of_digit : ∀ c, idigit c = true →
    isDash c = false ∧ inblank c = false ∧ c ≠ char '+' ∧ c ≠ char '.' :=
  Bytes.forall_byte (by decide)

end Bsh.Shell
