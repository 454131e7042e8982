import Bsh.Library.Json
import Mathlib.Tactic.IntervalCases

/-!
# `JSON.stringify` and the texts of numbers and strings

`stringify` is the well-formed `JSON.stringify`, in which a lone surrogate is escaped.  Reading a
decimal numeral back gives the number that it was written for.
-/

namespace Bsh.Library

open List

namespace Json

open Utf Decimal

/-! ## Numbers -/

/-- The exponent `n` with `10 ^ (n - 1) ≤ q < 10 ^ n`. -/
def decimalExponent (q : ℚ) : ℤ := Int.log 10 q + 1

/-- The nearest number with `k` significant digits, as digits and exponent. -/
def significant (q : ℚ) (k : ℕ) : ℕ × ℤ :=
  let n := decimalExponent q
  let s := (Binary64.roundEven (q / 10 ^ (n - k))).toNat
  if s = 10 ^ k then (10 ^ (k - 1), n + 1) else (s, n)

/-- The number of digits of the shortest decimal that is read as `q`. -/
def shortestLength (q : ℚ) : ℕ :=
  ((List.range 17).map (· + 1)).find? (fun k ↦
    let (s, n) := significant q k
    Binary64.round (s * 10 ^ (n - k)) == .finite q) |>.getD 17

/-- `Number::toString` of a positive number: `k` digits with the point after the `n`-th one. -/
def placePoint (digits : List ℕ) (k : ℕ) (n : ℤ) : List ℕ :=
  if k ≤ n ∧ n ≤ 21 then digits ++ List.replicate (n - k).toNat 0x30
  else if 0 < n ∧ n ≤ 21 then digits.take n.toNat ++ 0x2E :: digits.drop n.toNat
  else if -6 < n ∧ n ≤ 0 then 0x30 :: 0x2E :: List.replicate (-n).toNat 0x30 ++ digits
  else
    let exponent := (if n - 1 < 0 then [0x2D] else [0x2B]) ++ decimalCodes (n - 1).natAbs
    let mantissa := if k = 1 then digits else digits.take 1 ++ 0x2E :: digits.drop 1
    mantissa ++ 0x65 :: exponent

/-- The text of a nonnegative number; integers up to `2 ^ 53` are printed in full. -/
def magnitudeCodes (q : ℚ) : List ℕ :=
  if q.den = 1 ∧ q.num.natAbs ≤ 2 ^ 53 then decimalCodes q.num.natAbs
  else
    let k := shortestLength q
    let (s, n) := significant q k
    placePoint (decimalCodes s) k n

/-- The code units of a list of character codes. -/
def codeUnits (codes : List ℕ) : JsString := codes.map UInt16.ofNat

def numberText : Number → JsString
  | .infinite _ => nullName
  | .finite q => codeUnits ((if q < 0 then [0x2D] else []) ++ magnitudeCodes |q|)

/-! ## Strings -/

/-- A lower-case hexadecimal digit. -/
def hexUnit (d : ℕ) : UInt16 := UInt16.ofNat (if d < 10 then 0x30 + d else 0x61 + (d - 10))

/-- `\uXXXX`. -/
def unicodeEscape (c : UInt16) : JsString :=
  [0x5C, 0x75, hexUnit (c.toNat / 4096), hexUnit (c.toNat / 256 % 16),
    hexUnit (c.toNat / 16 % 16), hexUnit (c.toNat % 16)]

/-- The text of a code unit that is not part of a surrogate pair. -/
def escapeUnit (c : UInt16) : JsString :=
  if c = 0x22 ∨ c = 0x5C then [0x5C, c]
  else if c = 0x08 then [0x5C, 0x62]
  else if c = 0x09 then [0x5C, 0x74]
  else if c = 0x0A then [0x5C, 0x6E]
  else if c = 0x0C then [0x5C, 0x66]
  else if c = 0x0D then [0x5C, 0x72]
  else if c < 0x20 ∨ isHighSurrogate c ∨ isLowSurrogate c then unicodeEscape c
  else [c]

/-- The text of a string between its quotes. -/
def escapeUnits : JsString → JsString
  | [] => []
  | [c] => escapeUnit c
  | c :: d :: rest =>
    if isHighSurrogate c && isLowSurrogate d then c :: d :: escapeUnits rest
    else escapeUnit c ++ escapeUnits (d :: rest)

def stringText (s : JsString) : JsString := quotedText (escapeUnits s)

/-! ## Values -/

mutual

/-- `JSON.stringify`. -/
def stringify : Json → JsString
  | null => nullName
  | bool true => trueName
  | bool false => falseName
  | num n => numberText n
  | str s => stringText s
  | arr elements => 0x5B :: stringifyElements elements
  | obj members => 0x7B :: stringifyMembers members

def stringifyElements : List Json → JsString
  | [] => [0x5D]
  | [v] => stringify v ++ [0x5D]
  | v :: w :: rest => stringify v ++ 0x2C :: stringifyElements (w :: rest)

def stringifyMembers : List (JsString × Json) → JsString
  | [] => [0x7D]
  | [(key, v)] => stringText key ++ 0x3A :: stringify v ++ [0x7D]
  | (key, v) :: m :: rest =>
    stringText key ++ 0x3A :: stringify v ++ 0x2C :: stringifyMembers (m :: rest)

end

/-! ## Reading numerals -/

theorem spanDigits_append {digits rest : List ℕ} (hdigits : ∀ d ∈ digits, isDigitCode d = true)
    (hrest : ∀ c, rest.head? = some c → isDigitCode c = false) :
    spanDigits (digits ++ rest) = (digits, rest) := by
  rw [spanDigits, span_eq_takeWhile_dropWhile, takeWhile_append_of_pos hdigits,
    dropWhile_append_of_pos hdigits]
  cases rest with
  | nil => simp
  | cons c rest => simp [hrest c rfl]

theorem readInteger_decimalCodes (n : ℕ) {rest : List ℕ}
    (hrest : ∀ c, rest.head? = some c → isDigitCode c = false) :
    readInteger (decimalCodes n ++ rest) = some (n, rest) := by
  have hspan := spanDigits_append (fun d hd ↦ isDigitCode_of_mem_decimalCodes (n := n) hd) hrest
  have hvalue := digitsValue_decimalCodes n
  rcases decimalCodes_head n with h | ⟨d, digits, hd, hd', h⟩
  · rw [h] at hspan hvalue
    rw [readInteger, h, hspan]
    simp [hvalue]
  · rw [h] at hspan hvalue
    have hne : digitCode d ≠ 0x30 := by
      unfold digitCode
      omega
    rw [readInteger, h, hspan]
    simp [hvalue, hne]

theorem decimalCodes_head_ne (n : ℕ) {c : ℕ} (h : (decimalCodes n).head? = some c) :
    c ≠ 0x2D := by
  have hmem : c ∈ decimalCodes n := mem_of_mem_head? h
  have hdigit := isDigitCode_of_mem_decimalCodes hmem
  rintro rfl
  exact absurd hdigit (by decide)

theorem numberValue_of_unsigned {codes : List ℕ} (hne : codes ≠ [])
    (hhead : ∀ c, codes.head? = some c → c ≠ 0x2D) :
    numberValue codes = unsignedValue codes := by
  cases codes with
  | nil => exact absurd rfl hne
  | cons c codes => rw [numberValue, if_neg (hhead c rfl)]

theorem numberValue_decimalCodes (n : ℕ) : numberValue (decimalCodes n) = some (n : ℚ) := by
  rw [numberValue_of_unsigned (decimalCodes_ne_nil n) fun c hc ↦ decimalCodes_head_ne n hc]
  have hread : readInteger (decimalCodes n ++ []) = some (n, []) :=
    readInteger_decimalCodes n (by simp)
  rw [append_nil] at hread
  simp [unsignedValue, hread, readFraction, readExponent]

/-! ## Words that need no escapes -/

/-- A word that is its own literal. -/
def PlainWord (word : Bytes) : Prop :=
  ∀ b ∈ word, 0x20 ≤ b ∧ b < 0x80 ∧ b ≠ Bytes.quote ∧ b ≠ 0x5C

instance (word : Bytes) : Decidable (PlainWord word) :=
  inferInstanceAs (Decidable (∀ b ∈ word, 0x20 ≤ b ∧ b < 0x80 ∧ b ≠ Bytes.quote ∧ b ≠ 0x5C))

end Json

end Bsh.Library
