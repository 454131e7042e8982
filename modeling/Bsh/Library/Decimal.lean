import Bsh.Library.Bytes
import Bsh.Library.Binary64
import Mathlib.Data.Nat.Digits.Defs

/-!
# Decimal notation

Decimal digits of natural numbers, with and without a fixed width, and the fixed-point notation of
`printf`'s `%.6f`.  `digitsValue` reads digits back; it inverts `decimal` and `padded`.  Digits are
read as character codes, so that the same lemmas serve byte strings and UTF-16 strings.
-/

namespace Bsh.Library.Decimal

open Binary64 List

/-- The character code of a decimal digit. -/
def digitCode (d : ℕ) : ℕ := 0x30 + d

def isDigitCode (code : ℕ) : Bool := 0x30 ≤ code && code ≤ 0x39

/-- The number a sequence of digit codes stands for. -/
def digitsValue (codes : List ℕ) : ℕ :=
  codes.foldl (fun value code ↦ value * 10 + (code - 0x30)) 0

/-- The digit codes of `n`, most significant first. -/
def decimalCodes (n : ℕ) : List ℕ :=
  if n = 0 then [0x30] else (Nat.digits 10 n).reverse.map digitCode

/-- The last `width` digit codes of `n`. -/
def paddedCodes : ℕ → ℕ → List ℕ
  | 0, _ => []
  | width + 1, n => paddedCodes width (n / 10) ++ [digitCode (n % 10)]

/-- The bytes of a list of character codes. -/
def codeBytes (codes : List ℕ) : Bytes := codes.map UInt8.ofNat

/-- `%llu` and `%d` of a natural number. -/
def decimal (n : ℕ) : Bytes := codeBytes (decimalCodes n)

/-- `%0*d`. -/
def padded (width n : ℕ) : Bytes := codeBytes (paddedCodes width n)

/-- `%.6f`: round to six decimals, ties to even. -/
def fixed6Codes (q : ℚ) : List ℕ :=
  let scaled := (roundEven (|q| * 10 ^ 6)).toNat
  let sign : List ℕ := if q < 0 then [0x2D] else []
  sign ++ decimalCodes (scaled / 10 ^ 6) ++ [0x2E] ++ paddedCodes 6 (scaled % 10 ^ 6)

def fixed6 (q : ℚ) : Bytes := codeBytes (fixed6Codes q)

/-! ## Reading digits back -/

theorem digitsValue_append_digit (codes : List ℕ) (d : ℕ) :
    digitsValue (codes ++ [digitCode d]) = digitsValue codes * 10 + d := by
  simp [digitsValue, digitCode]

theorem digitsValue_digits (digits : List ℕ) :
    digitsValue (digits.reverse.map digitCode) = Nat.ofDigits 10 digits := by
  induction digits with
  | nil => rfl
  | cons d digits ih =>
    rw [reverse_cons, map_append, map_singleton, digitsValue_append_digit, ih,
      Nat.ofDigits_cons]
    ring

@[simp]
theorem digitsValue_decimalCodes (n : ℕ) : digitsValue (decimalCodes n) = n := by
  by_cases hn : n = 0
  · subst hn
    rfl
  · rw [decimalCodes, if_neg hn, digitsValue_digits, Nat.ofDigits_digits]

@[simp]
theorem digitsValue_paddedCodes (width n : ℕ) :
    digitsValue (paddedCodes width n) = n % 10 ^ width := by
  induction width generalizing n with
  | zero => simp [paddedCodes, digitsValue, Nat.mod_one]
  | succ width ih =>
    rw [paddedCodes, digitsValue_append_digit, ih]
    have hsplit : 10 ^ (width + 1) = 10 * 10 ^ width := by ring
    rw [hsplit, Nat.mod_mul]
    ring

@[simp]
theorem paddedCodes_length (width n : ℕ) : (paddedCodes width n).length = width := by
  induction width generalizing n with
  | zero => rfl
  | succ width ih => simp [paddedCodes, ih]

theorem isDigitCode_digitCode {d : ℕ} (hd : d < 10) : isDigitCode (digitCode d) = true := by
  have hupper : 0x30 + d ≤ 0x39 := by omega
  simp [isDigitCode, digitCode, hupper]

theorem isDigitCode_of_mem_decimalCodes {n code : ℕ} (h : code ∈ decimalCodes n) :
    isDigitCode code = true := by
  unfold decimalCodes at h
  split at h
  · rw [List.mem_singleton.mp h]
    rfl
  · obtain ⟨d, hd, rfl⟩ := List.mem_map.mp h
    exact isDigitCode_digitCode (Nat.digits_lt_base (by norm_num) (List.mem_reverse.mp hd))

theorem isDigitCode_of_mem_paddedCodes {width n code : ℕ} (h : code ∈ paddedCodes width n) :
    isDigitCode code = true := by
  induction width generalizing n with
  | zero => simp [paddedCodes] at h
  | succ width ih =>
    rw [paddedCodes, mem_append] at h
    rcases h with h | h
    · exact ih h
    · rw [List.mem_singleton.mp h]
      exact isDigitCode_digitCode (Nat.mod_lt n (by norm_num))

theorem decimalCodes_ne_nil (n : ℕ) : decimalCodes n ≠ [] := by
  unfold decimalCodes
  split
  · simp
  · next hn => simpa [Nat.digits_eq_nil_iff_eq_zero] using hn

theorem decimalCodes_head (n : ℕ) :
    decimalCodes n = [0x30] ∨ ∃ d rest, 0 < d ∧ d < 10 ∧ decimalCodes n = digitCode d :: rest := by
  by_cases hn : n = 0
  · simp [decimalCodes, hn]
  · right
    have hne : Nat.digits 10 n ≠ [] := Nat.digits_ne_nil_iff_ne_zero.mpr hn
    refine ⟨(Nat.digits 10 n).getLast hne, (Nat.digits 10 n).dropLast.reverse.map digitCode,
      ?_, Nat.digits_lt_base (by norm_num) (getLast_mem hne), ?_⟩
    · exact Nat.pos_of_ne_zero (Nat.getLast_digit_ne_zero 10 hn)
    · rw [decimalCodes, if_neg hn]
      conv_lhs => rw [← dropLast_append_getLast hne]
      simp

/-! ## Fixed-point notation -/

/-- The number `%.6f` shows. -/
def fixed6Value (q : ℚ) : ℚ := roundEven (q * 10 ^ 6) / 10 ^ 6

end Bsh.Library.Decimal
