import Bsh.Shell.KeyString

/-!
# Strings for printing

`quotedzputs` of `utils.c`: a string is printed as it is, in single quotes, or, with a character
that is not printable, as `$'...'` with the escapes of `nicechar_sel` and `wcs_nicechar_sel`.  The
conversions of the C library and what is printable are parameters, and characters are converted
without a shift state.
-/

namespace Bsh.Shell

open Bsh.Library

/-- What printing depends on: the character set in both directions, what is printable as a byte and
as a character, and the options. -/
structure NiceEnv where
  charset : Charset
  wcrtomb : ℕ → Option Bytes
  ascii_wcrtomb : ∀ c : UInt8, c < 0x80 → wcrtomb c.toNat = some [c]
  isPrint : UInt8 → Bool
  wcIsPrint : ℕ → Bool
  printEightBit : Bool
  rcQuotes : Bool
  cshJunkieQuotes : Bool
  /-- The history character, when it is special. -/
  bangchar : Option UInt8
  /-- Whether a comma is special. -/
  spComma : Bool

/-! ## Characters -/

/-- `\M-` and `\C-`. -/
def metaEscape : Bytes := [char '\\', char 'M', char '-']
def controlEscape : Bytes := [char '\\', char 'C', char '-']

/-- A control character below 128: the escape, and what stands behind it. -/
def controlParts (quotable : Bool) (c : UInt8) : Bytes × UInt8 :=
  if c = 0x7F then (if quotable then controlEscape else [char '^'], char '?')
  else if c = char '\n' then ([char '\\'], char 'n')
  else if c = char '\t' then ([char '\\'], char 't')
  else if c < 0x20 then (if quotable then controlEscape else [char '^'], c + 0x40)
  else ([], c)

/-- The escapes of `nicechar_sel` and the character behind them. -/
def nicecharParts (env : NiceEnv) (quotable : Bool) (c : UInt8) : Bytes × UInt8 :=
  if env.isPrint c then ([], c)
  else if c &&& 0x80 ≠ 0 then
    if env.printEightBit then ([], c)
    else
      let c := c &&& 0x7F
      if env.isPrint c then (metaEscape, c)
      else
        let (escape, c) := controlParts quotable c
        (metaEscape ++ escape, c)
  else controlParts quotable c

/-- `nicechar_sel`. -/
def nicecharSel (env : NiceEnv) (quotable : Bool) (c : UInt8) : Bytes :=
  let (escape, c) := nicecharParts env quotable c
  escape ++ metaCode.unit c

/-- `is_nicechar`. -/
def isNicechar (env : NiceEnv) (c : UInt8) : Bool :=
  if env.isPrint c then false
  else if c &&& 0x80 ≠ 0 then !env.printEightBit
  else c = 0x7F || c = char '\n' || c = char '\t' || c < 0x20

/-- A hexadecimal digit of `sprintf`. -/
def hexDigit (d : ℕ) : UInt8 :=
  if d < 10 then UInt8.ofNat ((char '0').toNat + d) else UInt8.ofNat ((char 'a').toNat + (d - 10))

/-- The last `n` hexadecimal digits. -/
def hexText : ℕ → ℕ → Bytes
  | 0, _ => []
  | n + 1, c => hexText n (c / 16) ++ [hexDigit (c % 16)]

/-- What `wcs_nicechar_sel` writes when the character is not converted. -/
def unconverted (env : NiceEnv) (quotable : Bool) (c : ℕ) : Bytes :=
  if 0x10000 ≤ c then [char '\\', char 'U'] ++ hexText 8 c
  else if 0x100 ≤ c then [char '\\', char 'u'] ++ hexText 4 c
  else nicecharSel env quotable (UInt8.ofNat c)

/-- `wcs_nicechar_sel`. -/
def wcsNicecharSel (env : NiceEnv) (quotable : Bool) (c : ℕ) : Bytes :=
  if env.wcIsPrint c || (0x80 ≤ c && env.printEightBit) then
    match env.wcrtomb c with
    | some mbstr => metafied mbstr
    | none => unconverted env quotable c
  else if c < 0x80 then
    let (escape, c) := controlParts quotable (UInt8.ofNat c)
    match env.wcrtomb c.toNat with
    | some mbstr => escape ++ metafied mbstr
    | none => unconverted env quotable c.toNat
  else unconverted env quotable c

/-- `is_wcs_nicechar`. -/
def isWcsNicechar (env : NiceEnv) (c : ℕ) : Bool :=
  if env.wcIsPrint c || (0x80 ≤ c && env.printEightBit) then false
  else if c = 0x7F || c = 0x0A || c = 0x09 || c < 0x20 then true
  else if 0x80 ≤ c then 0x100 ≤ c || isNicechar env (UInt8.ofNat c)
  else false

/-! ## Strings -/

/-- What `mbrtowc` says to a string. -/
inductive Conversion (State : Type) where
  | invalid
  | incomplete
  | char (cnt wc : ℕ) (st : State)

/-- `mbrtowc`, with the bytes that are read already. -/
def Charset.convert (charset : Charset) : ℕ → Bytes → charset.State → Conversion charset.State
  | _, [], _ => .incomplete
  | used, c :: rest, st =>
    match charset.mbrtowc c st with
    | (.invalid, _) => .invalid
    | (.incomplete, st) => charset.convert (used + 1) rest st
    | (.char wc, st) => .char (if wc = 0 then 1 else used + 1) wc st

/-- A byte that is no character, or a character with its bytes. -/
inductive NiceUnit where
  | byte (c : UInt8)
  | char (bytes : Bytes) (wc : ℕ)
  deriving DecidableEq

/-- The walk of `mb_niceformat` and of `is_mb_niceformat`. -/
def niceUnits (charset : Charset) : ℕ → Bool → Bytes → charset.State → List NiceUnit
  | 0, _, _, _ => []
  | _ + 1, _, [], _ => []
  | turns + 1, eol, c :: rest, st =>
    if eol then .byte c :: niceUnits charset turns eol rest charset.initial
    else
      match charset.convert 0 (c :: rest) st with
      | .invalid => .byte c :: niceUnits charset turns eol rest charset.initial
      | .incomplete => .byte c :: niceUnits charset turns true rest charset.initial
      | .char cnt wc st =>
        .char ((c :: rest).take cnt) wc :: niceUnits charset turns eol ((c :: rest).drop cnt) st

/-- The text of a unit with `NICEFLAG_QUOTE`. -/
def NiceUnit.text (env : NiceEnv) : NiceUnit → Bytes
  | .byte c => nicecharSel env true c
  | .char _ wc =>
    if wc = (Bsh.Shell.char '\'').toNat then [Bsh.Shell.char '\\', Bsh.Shell.char '\'']
    else if wc = (Bsh.Shell.char '\\').toNat then [Bsh.Shell.char '\\', Bsh.Shell.char '\\']
    else wcsNicecharSel env true wc

/-- `untokenize`. -/
def untokenize : Bytes → Bytes
  | [] => []
  | c :: s =>
    if itok c then
      (if c = nulargToken then [] else [ztokens.getD (c.toNat - poundToken.toNat) 0]) ++
        untokenize s
    else c :: untokenize s

set_option maxRecDepth 4000 in
theorem not_itok_flip : ∀ c : UInt8, imeta c = true → itok (c ^^^ 32) = false :=
  Bytes.forall_byte (by decide)

/-- The unmetafied string; there are no tokens in it. -/
def unmetafiedText : Bytes → Bytes
  | [] => []
  | [c] => [c]
  | c :: d :: s =>
    if c = metaByte then (d ^^^ 32) :: unmetafiedText s else c :: unmetafiedText (d :: s)

/-- The units of a metafied string. -/
def unitsOf (env : NiceEnv) (s : Bytes) : List NiceUnit :=
  let ums := unmetafiedText (untokenize s)
  niceUnits env.charset ums.length false ums env.charset.initial

/-- `is_mb_niceformat`. -/
def isMbNiceformat (env : NiceEnv) (s : Bytes) : Bool :=
  (unitsOf env s).any fun
    | .byte c => isNicechar env c
    | .char _ wc => isWcsNicechar env wc

/-! ## `quotedzputs` -/

/-- `SPECCHARS`. -/
def speccChars : Bytes := Bytes.ascii "#$^*()=|\x7b\x7d[]`<>?~;&\n\t \\'\""

/-- `ispecial`. -/
def ispecial (env : NiceEnv) (c : UInt8) : Bool :=
  speccChars.contains c || env.bangchar = some c || (env.spComma && c = char ',')

/-- `hasspecial`. -/
def hasspecial (env : NiceEnv) : Bytes → Bool
  | [] => false
  | [c] => ispecial env c
  | c :: d :: s =>
    if c = metaByte then ispecial env (d ^^^ 32) || hasspecial env s
    else ispecial env c || hasspecial env (d :: s)

/-- `zputs`: tokens are not printed. -/
def zputs : Bytes → Bytes
  | [] => []
  | [c] => if itok c then [] else [c]
  | c :: d :: s =>
    if c = metaByte then (d ^^^ 32) :: zputs s
    else if itok c then zputs (d :: s)
    else c :: zputs (d :: s)

/-- `mb_niceformat` with `NICEFLAG_QUOTE`, to a stream. -/
def mbNiceformat (env : NiceEnv) (s : Bytes) : Bytes :=
  (unitsOf env s).flatMap fun unit ↦ zputs (unit.text env)

/-- A character of the loops of `quotedzputs`. -/
def plainChar (c : UInt8) : UInt8 := if c = dashToken then char '-' else c

/-- The characters that the loops see. -/
def quotedChars : Bytes → Bytes
  | [] => []
  | [c] => [plainChar c]
  | c :: d :: s =>
    if c = metaByte then (d ^^^ 32) :: quotedChars s else plainChar c :: quotedChars (d :: s)

/-- A character other than a quote within quotes. -/
def junkQuoted (env : NiceEnv) (c : UInt8) : Bytes :=
  if c = char '\n' ∧ env.cshJunkieQuotes then [char '\\', c] else [c]

/-- Quotes within quotes. -/
def rcQuoted (env : NiceEnv) : Bytes → Bytes
  | [] => [char '\'']
  | c :: s =>
    (if c = char '\'' then [char '\'', c] else junkQuoted env c) ++ rcQuoted env s

/-- Quotes as in the Bourne shell, without empty quoted strings. -/
def bourneQuoted (env : NiceEnv) : Bool → Bytes → Bytes
  | inquote, [] => if inquote then [char '\''] else []
  | inquote, c :: s =>
    if c = char '\'' then
      (if inquote then [char '\''] else []) ++ [char '\\', c] ++ bourneQuoted env false s
    else (if inquote then [] else [char '\'']) ++ junkQuoted env c ++ bourneQuoted env true s

/-- `quotedzputs` to a stream. -/
def quotedzputs (env : NiceEnv) (s : Bytes) : Bytes :=
  if s = [] then [char '\'', char '\'']
  else if isMbNiceformat env s then
    [char '$', char '\''] ++ mbNiceformat env s ++ [char '\'']
  else if !hasspecial env s then zputs s
  else if env.rcQuotes then char '\'' :: rcQuoted env (quotedChars s)
  else bourneQuoted env false (quotedChars s)

/-! ## Bytes that are not `Meta` -/

theorem unmetafiedText_byte {c : UInt8} (hc : c ≠ metaByte) (s : Bytes) :
    unmetafiedText (c :: s) = c :: unmetafiedText s := by
  cases s with
  | nil => rfl
  | cons d s => rw [unmetafiedText, if_neg hc]

theorem zputs_byte {c : UInt8} (hc : c ≠ metaByte) (s : Bytes) :
    zputs (c :: s) = if itok c then zputs s else c :: zputs s := by
  cases s with
  | nil => rfl
  | cons d s => rw [zputs, if_neg hc]

theorem quotedChars_byte {c : UInt8} (hc : c ≠ metaByte) (s : Bytes) :
    quotedChars (c :: s) = plainChar c :: quotedChars s := by
  cases s with
  | nil => rfl
  | cons d s => rw [quotedChars, if_neg hc]

end Bsh.Shell
