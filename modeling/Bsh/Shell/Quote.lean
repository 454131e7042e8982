import Bsh.Shell.Metafy
import Bsh.Shell.Numbers

/-!
# Quoting for `$'...'`

`quotestring` with `QT_DOLLARS`: printable characters stay as they are, apart from a backslash in
front of the special ones, and the bytes of all others become escapes.  What a character is depends
on the option `MULTIBYTE` and on the conversion of the C library, which is a parameter.
-/

namespace Bsh.Shell

open Bsh.Library

/-- `itok` and `inull`, from the entries that `inittyptab` makes. -/
def inull (c : UInt8) : Bool := snullToken ≤ c && c ≤ nulargToken

def itok (c : UInt8) : Bool := (poundToken ≤ c && c ≤ bangToken) || inull c

/-! ## Multibyte characters -/

/-- What `mbrtowc` says to one more byte. -/
inductive MbResult where
  | invalid
  | incomplete
  | char (wc : ℕ)

/-- A character set, as `mbrtowc` reads it byte by byte: bytes below 128 are characters of their own
and never part of a longer one. -/
structure Charset where
  State : Type
  initial : State
  mbrtowc : UInt8 → State → MbResult × State
  ascii_char : ∀ c st wc, c < 0x80 → (mbrtowc c st).1 = .char wc → wc = c.toNat
  ascii_complete : ∀ c st, c < 0x80 → (mbrtowc c st).1 ≠ .incomplete
  other_char : ∀ c st wc, 0x80 ≤ c → (mbrtowc c st).1 = .char wc → 0x80 ≤ wc
  ascii_tail : ∀ c d st, (mbrtowc c st).1 = .incomplete → d < 0x80 →
    (mbrtowc d (mbrtowc c st).2).1 = .invalid

/-- The character set of the C locale. -/
def Charset.portable : Charset where
  State := Unit
  initial := ()
  mbrtowc c _ := (if c < 0x80 then .char c.toNat else .invalid, ())
  ascii_char c st wc hc h := by
    rw [if_pos hc] at h
    cases h
    rfl
  ascii_complete c st hc := by
    rw [if_pos hc]
    rintro ⟨⟩
  other_char c st wc hc h := by
    rw [if_neg (UInt8.not_lt.mpr hc)] at h
    cases h
  ascii_tail c d st h := by
    split at h <;> cases h

/-- The loop of `mb_metacharlenconv_r`, with the number of bytes in front.  Without a valid
character there is no result; a `Meta` at the end of the string would be read past. -/
def mbConvert (charset : Charset) :
    Bytes → ℕ → charset.State → Option (Option (ℕ × ℕ × charset.State))
  | [], _, _ => some none
  | [c], used, st =>
    if c = metaByte then none
    else if imeta c then some none
    else
      match charset.mbrtowc c st with
      | (.char wc, st) => some (some (used + 1, wc, st))
      | _ => some none
  | c :: d :: rest, used, st =>
    if c = metaByte then
      match charset.mbrtowc (d ^^^ 32) st with
      | (.invalid, _) => some none
      | (.incomplete, st) => mbConvert charset rest (used + 2) st
      | (.char wc, st) => some (some (used + 2, wc, st))
    else if imeta c then some none
    else
      match charset.mbrtowc c st with
      | (.invalid, _) => some none
      | (.incomplete, st) => mbConvert charset (d :: rest) (used + 1) st
      | (.char wc, st) => some (some (used + 1, wc, st))

/-- The length of the character at the head of a string as a single byte. -/
def byteLength (c : UInt8) : ℕ := if c = metaByte then 2 else 1

/-- `mb_metacharlenconv_r`: the length, the character or `WEOF`, and the shift state. -/
def mbMetacharlenconvR (charset : Charset) (c : UInt8) (rest : Bytes) (st : charset.State) :
    Option (ℕ × Option ℕ × charset.State) :=
  if c ≤ 0x7F then some (1, some c.toNat, st)
  else
    match mbConvert charset (c :: rest) 0 st with
    | none => none
    | some (some (len, wc, st)) => some (len, some wc, st)
    | some none =>
      some (if c ≠ metaByte ∧ imeta c then 0 else byteLength c, none, charset.initial)

/-- `mb_metacharlenconv`. -/
def mbMetacharlenconv (charset : Charset) (multibyte : Bool) (c : UInt8) (rest : Bytes)
    (st : charset.State) : Option (ℕ × Option ℕ × charset.State) :=
  if !multibyte || c ≤ 0x7F then
    if c = metaByte then rest.head?.map fun d ↦ (2, some (d ^^^ 32).toNat, st)
    else some (1, some c.toNat, st)
  else if itok c then some (1, none, st)
  else mbMetacharlenconvR charset c rest st

/-! ## `quotestring` -/

/-- What quoting depends on: the character set, the options `MULTIBYTE` and `BANGHIST`, the history
character, and which characters are printable. -/
structure QuoteEnv where
  charset : Charset
  multibyte : Bool
  banghist : Bool
  bangchar : UInt8
  isPrint : ℕ → Bool

/-- The digit `'0' + n`. -/
def octalDigit (n : ℕ) : UInt8 := UInt8.ofNat ((char '0').toNat + n)

/-- A digit of an octal number. -/
def isOctal (c : UInt8) : Bool := char '0' ≤ c && c ≤ char '7'

/-- The escape for a byte, in front of a text. -/
def unprintable (c : UInt8) (next : Bytes) : Bytes :=
  if c = 0 then
    if next.head?.any isOctal then [char '\\', char '0', char '0', char '0']
    else [char '\\', char '0']
  else if c = 0x07 then [char '\\', char 'a']
  else if c = 0x08 then [char '\\', char 'b']
  else if c = 0x0C then [char '\\', char 'f']
  else if c = 0x0A then [char '\\', char 'n']
  else if c = 0x0D then [char '\\', char 'r']
  else if c = 0x09 then [char '\\', char 't']
  else if c = 0x0B then [char '\\', char 'v']
  else
    [char '\\', octalDigit (c.toNat / 64 % 8), octalDigit (c.toNat / 8 % 8),
      octalDigit (c.toNat % 8)]

/-- `addunprintable` of the first bytes of a string. -/
def addunprintable : Bytes → ℕ → Option Bytes
  | _, 0 => some []
  | [], _ + 1 => none
  | [c], len + 1 => if c = metaByte ∨ len ≠ 0 then none else some (unprintable c [])
  | c :: d :: rest, len + 1 =>
    if c = metaByte then
      (addunprintable rest (len - 1)).map (unprintable (d ^^^ 32) rest ++ ·)
    else (addunprintable (d :: rest) len).map (unprintable c (d :: rest) ++ ·)

/-- The backslash in front of a printable character. -/
def QuoteEnv.backslash (env : QuoteEnv) (wc : ℕ) : Bytes :=
  if wc = (char '\\').toNat ∨ wc = (char '\'').toNat then [char '\\']
  else if env.banghist && wc = env.bangchar.toNat then [char '\\']
  else []

/-- The text for the character of `len` bytes at the head of a string. -/
def quoteCharacter (env : QuoteEnv) (s : Bytes) (len : ℕ) : Option ℕ → Option Bytes
  | some wc =>
    if env.isPrint wc then some (env.backslash wc ++ s.take len) else addunprintable s len
  | none => addunprintable s len

/-- The loop of `quotestring` for `QT_DOLLARS`. -/
def quoteDollarsFrom (env : QuoteEnv) : ℕ → Bytes → env.charset.State → Option Bytes
  | 0, _, _ => none
  | _ + 1, [], _ => some []
  | turns + 1, c :: rest, st =>
    match mbMetacharlenconv env.charset env.multibyte c rest st with
    | none => none
    | some (len, cc, st) =>
      match quoteCharacter env (c :: rest) len cc with
      | none => none
      | some text => (quoteDollarsFrom env turns ((c :: rest).drop len) st).map (text ++ ·)

/-- `quotestring` with `QT_DOLLARS`. -/
def quotestringDollars (env : QuoteEnv) (s : Bytes) : Option Bytes :=
  quoteDollarsFrom env (s.length + 1) (if s.head?.any inull then s.tail else s)
    env.charset.initial

end Bsh.Shell
