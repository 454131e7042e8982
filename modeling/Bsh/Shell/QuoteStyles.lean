import Bsh.Shell.Brace
import Bsh.Shell.NiceFormat

/-!
# The other styles of `quotestring`

The loops of `quotestring` for all styles of quotes, on strings with tokens, and the size of the
buffer that it takes.  Text between backquotes, in substitutions and in arithmetic is copied as it
is.  There is no result when the terminating zero is copied as text and the string read behind it.
-/

namespace Bsh.Shell

open Bsh.Library

def stringToken : UInt8 := 0x85
def inparToken : UInt8 := 0x88
def inparmathToken : UInt8 := 0x89
def outparToken : UInt8 := 0x8A
def outparmathToken : UInt8 := 0x8B
def qstringToken : UInt8 := 0x8C
def inbrackToken : UInt8 := 0x91
def outbrackToken : UInt8 := 0x92
def tickToken : UInt8 := 0x93
def qtickToken : UInt8 := 0x99

/-- The `QT_` values. -/
inductive QuoteType where
  | none | backslash | single | double | dollars | backtick | singleOptional
  | backslashPattern | backslashShownull | quotedzputs
  deriving DecidableEq

/-- What all styles depend on, with whether the history character is special. -/
structure StyleEnv extends QuoteEnv where
  bangchar_ascii : bangchar < 0x80
  rcQuotes : Bool
  magicEqualSubst : Bool
  extendedGlob : Bool
  bangSpecial : Bool
  spComma : Bool

/-- `ispecial`. -/
def StyleEnv.ispecial (env : StyleEnv) (c : UInt8) : Bool :=
  speccChars.contains c || (env.bangSpecial && c = env.bangchar) || (env.spComma && c = char ',')

/-- `PATCHARS` and `ipattern`. -/
def patChars : Bytes := Bytes.ascii "#^*()|[]<>?~\\"

def ipattern (c : UInt8) : Bool := patChars.contains c

/-! ## The buffer -/

/-- Whether an empty string is shown. -/
def QuoteType.shownull (how : QuoteType) : Bool :=
  how = .backslashShownull || how = .singleOptional

/-- `alloclen`. -/
def QuoteType.alloclen (how : QuoteType) (s : Bytes) : ℕ :=
  (match how with
    | .backslash | .backslashShownull => s.length * 7 + 1
    | .backslashPattern => s.length * 2 + 1
    | .singleOptional => s.length * 4 + 3
    | _ => s.length * 4 + 1) +
    if s = [] ∧ how.shownull then 2 else 0

/-! ## Text that is copied -/

/-- The closing token of a substitution. -/
def closingToken (d : UInt8) : Option UInt8 :=
  if d = inparToken then some outparToken
  else if d = inbraceToken then some outbraceToken
  else if d = inbrackToken then some outbrackToken
  else none

/-- How much of a substitution is copied. -/
def substLength (beg close : UInt8) : ℕ → Bytes → ℕ
  | _, [] => 0
  | level, c :: s =>
    if c = close ∧ level = 0 then 1
    else
      1 + substLength beg close
        (if c = beg then level + 1 else if c = close then level - 1 else level) s

/-- How much is copied behind `Inparmath`. -/
def mathLength : ℕ → Bytes → Option ℕ
  | _, [] => none
  | inmath, c :: s =>
    if c = outparmathToken then
      if inmath = 1 then some 1 else (mathLength (inmath - 1) s).map (1 + ·)
    else (mathLength (if c = inparmathToken then inmath + 1 else inmath) s).map (1 + ·)

/-- A printable character, and how much of the string it takes. -/
def copyCharacter : Bytes → ℕ → Option (Bytes × ℕ)
  | _, 0 => some ([], 0)
  | [], _ + 1 => none
  | [c], len + 1 => if c = metaByte ∨ len ≠ 0 then none else some ([c], 1)
  | c :: d :: s, len + 1 =>
    if c = metaByte then
      (copyCharacter s (len - 1)).map fun (text, taken) ↦ (c :: d :: text, taken + 2)
    else (copyCharacter (d :: s) len).map fun (text, taken) ↦ (c :: text, taken + 1)

/-! ## The loop -/

/-- `quotesub`. -/
inductive QuoteSub where
  | inactive | pending | active
  deriving DecidableEq

/-- The text in front of `quotestart` and behind it, `quotesub`, and the shift state. -/
structure QuoteState (charset : Charset) where
  front : Bytes
  back : Bytes
  sub : QuoteSub
  shift : charset.State

namespace QuoteState

variable {charset : Charset}

def text (st : QuoteState charset) : Bytes := st.front ++ st.back

def put (st : QuoteState charset) (text : Bytes) : QuoteState charset :=
  { st with back := st.back ++ text }

end QuoteState

/-- Whether a character has to be quoted; `prev` is the byte in front of it. -/
def needsQuote (env : StyleEnv) (how : QuoteType) (prev : Option UInt8) (c : UInt8) : Bool :=
  env.ispecial c &&
    ((c ≠ char '=' && c ≠ char '~') || prev.isNone ||
      (env.magicEqualSubst && (prev = some (char '=') || prev = some (char ':'))) ||
      (c = char '~' && env.extendedGlob)) &&
    (how = .backslash || how = .singleOptional ||
      (env.banghist && c = env.bangchar && how ≠ .single) ||
      (how = .double &&
        (c = char '$' || c = char '`' || c = char '"' || c = char '\\')) ||
      (how = .single && c = char '\''))

/-- A special character with `QT_SINGLE_OPTIONAL`. -/
def quoteOptional (env : StyleEnv) (c : UInt8) (st : QuoteState env.charset) :
    QuoteState env.charset :=
  if st.sub = .pending then
    if c = char '\'' then { st with front := st.front ++ st.back ++ [char '\\', c], back := [] }
    else
      { st with front := st.front ++ [char '\''] ++ st.back ++ [c], back := [], sub := .active }
  else if c = char '\'' then
    if env.rcQuotes then st.put [char '\'', char '\'']
    else
      { st with
        front := st.front ++ st.back ++ [char '\'', char '\\', char '\''], back := []
        sub := .pending }
  else st.put [c]

/-- A newline, or a quote within single quotes. -/
def quoteBroken (env : StyleEnv) (c : UInt8) : Bytes :=
  if c = char '\n' then [char '$', char '\'', char '\\', char 'n', char '\'']
  else if env.rcQuotes then [char '\'', char '\'']
  else [char '\'', char '\\', c, char '\'']

/-- A character that is passed through, or shown as far as it is printable. -/
def passCharacter (env : StyleEnv) (how : QuoteType) (dobackslash : Bool) (c : UInt8) (rest : Bytes)
    (st : QuoteState env.charset) : Option (QuoteState env.charset × ℕ) :=
  let backslash := if dobackslash then [char '\\'] else []
  if itok c ∨ how ≠ .backslash then
    if c = inparmathToken then
      (mathLength 1 rest).map fun n ↦ (st.put (backslash ++ c :: rest.take n), 1 + n)
    else some (st.put (backslash ++ [c]), 1)
  else
    match mbMetacharlenconv env.charset env.multibyte c rest st.shift with
    | none => none
    | some (len, cc, shift) =>
      if cc.any env.isPrint then
        (copyCharacter (c :: rest) len).map fun (text, taken) ↦
          ({ st.put (backslash ++ text) with shift }, taken)
      else
        (addunprintable (c :: rest) len).map fun text ↦
          ({ st.put ([char '$', char '\''] ++ text ++ [char '\'']) with shift }, len)

/-- One turn of the loop: what is written, and how much of the string is read. -/
def quoteStep (env : StyleEnv) (how : QuoteType) (prev : Option UInt8) (c : UInt8) (rest : Bytes)
    (st : QuoteState env.charset) : Option (QuoteState env.charset × ℕ) :=
  if c = tickToken ∨ c = qtickToken then
    let text := rest.takeWhile (· ≠ c)
    some (st.put (c :: text ++ [c]),
      1 + text.length + if text.length < rest.length then 1 else 0)
  else if (c = qstringToken ∨ c = char '$') ∧ rest.head? = some (char '\'') ∧ how = .double then
    some (st.put [c, char '\''], 2)
  else
    match if c = stringToken ∨ c = qstringToken then rest.head?.bind closingToken else none with
    | some close =>
      let n := 1 + substLength c close 0 rest.tail
      some (st.put (c :: rest.take n), 1 + n)
    | none =>
      if needsQuote env how prev c then
        if how = .singleOptional then some (quoteOptional env c st, 1)
        else if c = char '\n' ∨ how = .single ∧ c = char '\'' then
          some (st.put (quoteBroken env c), 1)
        else passCharacter env how true c rest st
      else passCharacter env how false c rest st

/-- The loop. -/
def quoteLoop (env : StyleEnv) (how : QuoteType) :
    ℕ → Option UInt8 → Bytes → QuoteState env.charset → Option (QuoteState env.charset)
  | 0, _, _, _ => none
  | _ + 1, _, [], st => some st
  | turns + 1, prev, c :: rest, st =>
    (quoteStep env how prev c rest st).bind fun (st, n) ↦
      quoteLoop env how turns (c :: rest)[n - 1]? ((c :: rest).drop n) st

/-- The end of the text. -/
def QuoteState.finish {charset : Charset} (st : QuoteState charset) : Bytes :=
  st.text ++ if st.sub = .active then [char '\''] else []

/-- `quotestring`, from a shift state that earlier conversions left. -/
def quotestring (env : StyleEnv) (how : QuoteType) (shift : env.charset.State) (s : Bytes) :
    Option Bytes :=
  match how with
  | .dollars => quotestringDollars env.toQuoteEnv s
  | .backslashPattern => some (s.flatMap fun c ↦ if ipattern c then [char '\\', c] else [c])
  | how =>
    (quoteLoop env (if how = .backslashShownull then .backslash else how) (s.length + 1) none s
      { front := []
        back := if s = [] ∧ how.shownull then [char '\'', char '\''] else []
        sub := if how = .singleOptional then .pending else .inactive
        shift }).map QuoteState.finish

end Bsh.Shell
