import Bsh.Library.Brackets
import Bsh.Shell.KeyString

/-!
# Brace expansion

`hasbraces` and `xpandbraces` of `glob.c` with the option `BRACECCL` off.  The first makes braces that
it does not take for an expansion literal, in place, and says whether a brace is left to expand; the
second expands the first brace of a word.  The loop of `prefork` applies them to a list of words.
-/

namespace Bsh.Shell

open Bsh.Library

def inbraceToken : UInt8 := 0x8F
def outbraceToken : UInt8 := 0x90
def commaToken : UInt8 := 0x9A

/-- The pair of brace tokens. -/
def braces : Brackets UInt8 where
  opening := inbraceToken
  closing := outbraceToken
  opening_ne_closing := by decide

/-- What brace expansion depends on: the character set, the option `MULTIBYTE`, and
`wcs_nicechar`, which shows a character without any tokens. -/
structure BraceEnv where
  charset : Charset
  multibyte : Bool
  nicechar : ℕ → Bytes
  nicechar_plain : ∀ wc, ∀ c ∈ nicechar wc, itok c = false

/-! ## Ranges of characters -/

/-- The character that `bracechardots` finds at the head of a text, and what follows it.  At the end
of the text, the NUL is a character with nothing behind it. -/
def braceChar (env : BraceEnv) : Bytes → Option (Option ℕ × Option Bytes)
  | [] => some (some 0, none)
  | c :: rest =>
    if itok c then
      (mbMetacharlenconv env.charset env.multibyte (ztokens.getD (c.toNat - poundToken.toNat) 0) []
        env.charset.initial).map fun r ↦ (r.2.1, some ((c :: rest).drop r.1))
    else
      (mbMetacharlenconv env.charset env.multibyte c rest env.charset.initial).map fun r ↦
        (r.2.1, some ((c :: rest).drop r.1))

/-- `pnext[0] != '.' || pnext[1] != '.'`. -/
def afterDots : Bytes → Option Bytes
  | c :: d :: rest => if c = char '.' ∧ d = char '.' then some rest else none
  | _ => none

/-- `bracechardots` on the text behind an `Inbrace`.  There is no result where it reads behind the
end of the text. -/
def bracechardots (env : BraceEnv) (text : Bytes) : Option (Option (ℕ × ℕ)) :=
  if text.head? = some inbraceToken then some none
  else
    match braceChar env text with
    | none => none
    | some (none, _) => some none
    | some (some _, none) => none
    | some (some cstart, some pnext) =>
      match afterDots pnext with
      | none => some none
      | some pnext =>
        if pnext = [] ∨ pnext.head? = some inbraceToken then some none
        else
          match braceChar env pnext with
          | some (some cend, some rest) =>
            if rest.head? = some outbraceToken then some (some (cstart, cend)) else some none
          | some (none, _) => some none
          | _ => none

/-! ## `hasbraces` -/

/-- `*str`. -/
def byteAt (mem : Bytes) (str : ℕ) : Option UInt8 :=
  if str = mem.length then some 0 else mem[str]?

/-- `if (IS_DASH(*str)) str++; while (idigit(*str)) str++;` -/
def skipNumber (text : Bytes) : Bytes :=
  (if text.head?.any isDash then text.tail else text).dropWhile idigit

/-- The characters in front of the rest of a text. -/
def before (text rest : Bytes) : Bytes := text.take (text.length - rest.length)

/-- The test for a range of numbers on the text behind an `Inbrace`: whether it holds, and where it
has stopped reading. -/
def braceNumbers (text : Bytes) : Bool × Bytes :=
  let digitsAt (rest : Bytes) : Bool :=
    text.head?.any idigit || (before text rest).getLast?.any idigit
  let rest := skipNumber text
  match afterDots rest with
  | none => (false, rest)
  | some rest =>
    let rest := skipNumber rest
    if rest.head? = some outbraceToken ∧ digitsAt rest then (true, rest)
    else
      match afterDots rest with
      | none => (false, rest)
      | some rest =>
        let rest := skipNumber rest
        (rest.head? = some outbraceToken ∧ digitsAt rest, rest)

/-- The variables of `hasbraces`. -/
structure BraceScan where
  mem : Bytes
  str : ℕ
  lbr : Option ℕ
  mbr : Option ℕ
  comma : Option ℕ

/-- The end of the loop, or its next turn. -/
inductive BraceTurn where
  | done (found : Bool) (mem : Bytes)
  | next (s : BraceScan)

/-- `if (comma) str = comma; if (mbr && mbr < str) str = mbr;` -/
def rewind (str : ℕ) (mbr comma : Option ℕ) : ℕ :=
  let str := comma.getD str
  match mbr with
  | some m => if m < str then m else str
  | none => str

/-- `skipparens` from an `Inbrace` on: whether the brace is closed, and the position behind. -/
def skipparens (mem : Bytes) (str : ℕ) : Bool × ℕ :=
  match braces.close 0 (mem.drop (str + 1)) with
  | some (_, rest) => (true, mem.length - rest.length)
  | none => (false, mem.length)

/-- One turn of the loop of `hasbraces`. -/
def BraceScan.turn (env : BraceEnv) (s : BraceScan) : Option BraceTurn :=
  match byteAt s.mem s.str with
  | none => none
  | some c =>
    if c = inbraceToken then
      match s.lbr with
      | none =>
        match bracechardots env (s.mem.drop (s.str + 1)) with
        | none => none
        | some (some _) => some (.done true s.mem)
        | some none =>
          let (found, rest) := braceNumbers (s.mem.drop (s.str + 1))
          if found then some (.done true s.mem)
          else some (.next { s with lbr := some s.str, str := s.mem.length - rest.length })
      | some lbr =>
        let (closed, str) := skipparens s.mem s.str
        if closed then some (.next { s with mbr := s.mbr.or (some s.str), str := str })
        else
          some (.next ⟨(s.mem.set lbr (char '\x7b')).set s.str (char '\x7b'),
            rewind str s.mbr s.comma, none, none, none⟩)
    else if c = outbraceToken then
      match s.lbr with
      | none => some (.next { s with mem := s.mem.set s.str (char '\x7d'), str := s.str + 1 })
      | some lbr =>
        if s.comma.isSome then some (.done true s.mem)
        else
          some (.next ⟨(s.mem.set lbr (char '\x7b')).set s.str (char '\x7d'),
            s.mbr.getD (s.str + 1), none, none, none⟩)
    else if c = commaToken then
      match s.lbr with
      | none => some (.next { s with mem := s.mem.set s.str (char ','), str := s.str + 1 })
      | some _ => some (.next { s with comma := s.comma.or (some s.str), str := s.str + 1 })
    else if s.str = s.mem.length then
      let mem :=
        match s.lbr with
        | some lbr => s.mem.set lbr (char '\x7b')
        | none => s.mem
      if s.mbr.isNone && s.comma.isNone then some (.done false mem)
      else some (.next ⟨mem, rewind (s.str + 1) s.mbr s.comma, none, none, none⟩)
    else some (.next { s with str := s.str + 1 })

/-- The loop of `hasbraces`. -/
def hasbracesFrom (env : BraceEnv) : ℕ → BraceScan → Option (Bool × Bytes)
  | 0, _ => none
  | turns + 1, s =>
    match s.turn env with
    | none => none
    | some (.done found mem) => some (found, mem)
    | some (.next s) => hasbracesFrom env turns s

/-- `hasbraces`, with the word as it leaves it. -/
def hasbraces (env : BraceEnv) (turns : ℕ) (word : Bytes) : Option (Bool × Bytes) :=
  hasbracesFrom env turns ⟨word, 0, none, none, none⟩

/-! ## `xpandbraces` -/

/-- The commas and the pairs of dots directly inside of braces. -/
def countForms : ℕ → Bytes → ℕ × ℕ
  | _, [] => (0, 0)
  | level, [c] => if level = 0 ∧ c = commaToken then (1, 0) else (0, 0)
  | level, c :: d :: rest =>
    if c = inbraceToken then countForms (level + 1) (d :: rest)
    else if c = outbraceToken then countForms (level - 1) (d :: rest)
    else if level = 0 then
      if c = commaToken then
        let (comma, dotdot) := countForms 0 (d :: rest)
        (comma + 1, dotdot)
      else if c = char '.' ∧ d = char '.' then
        let (comma, dotdot) := countForms 0 rest
        (comma, dotdot + 1)
      else countForms 0 (d :: rest)
    else countForms level (d :: rest)

/-- `do ... while (cend-- > cstart)`, from the last character down. -/
def charsDown (cstart cend : ℕ) : List ℕ :=
  (List.range (cend - cstart + 1)).map (cend - ·)

/-- The values of a range of characters. -/
def charValues (cstart cend : ℕ) : List ℕ :=
  if cend < cstart then charsDown cend cstart else (charsDown cstart cend).reverse

/-- A number fits into a `zlong`. -/
def fitsZlong (n : ℤ) : Bool := -2 ^ 63 ≤ n && n < 2 ^ 63

/-- `for (; rend >= rstart; rend -= rincr)`, from the highest number down; there is no result where
the difference overflows. -/
def numbersDown (rstart rincr : ℤ) : ℕ → ℤ → Option (List ℤ)
  | 0, _ => none
  | turns + 1, rend =>
    if rend < rstart then some []
    else if fitsZlong (rend - rincr) then (numbersDown rstart rincr turns (rend - rincr)).map (rend :: ·)
    else none

/-- The numbers of a range in the order of the words, from the values that were read. -/
def numberValues (rstart rend rincr : ℤ) : Option (List ℤ) :=
  let (rincr, rev) := if rincr < 0 then (-rincr, true) else (rincr, false)
  let (rstart, rend, rev, aligned) :=
    if rend < rstart then (rend, rstart, !rev, false) else (rstart, rend, rev, 1 < rincr)
  if aligned && !fitsZlong (rend - rstart) then none
  else
    let rend := if aligned then rend - (rend - rstart) % rincr else rend
    (numbersDown rstart rincr ((rend - rstart).toNat + 2) rend).map fun values ↦
      if rev then values else values.reverse

/-- A number starts with a zero, behind its sign. -/
def leadingZero (text : Bytes) : Bool :=
  headIs '0' text || (text.head?.any isDash && headIs '0' text.tail)

/-- `sprintf` with `%0*lld`. -/
def zeroPadded (width : ℕ) (n : ℤ) : Bytes :=
  let digits := Decimal.decimal n.natAbs
  if n < 0 then char '-' :: (List.replicate (width - 1 - digits.length) (char '0') ++ digits)
  else List.replicate (width - digits.length) (char '0') ++ digits

/-- The range of numbers in braces: the words it is replaced by, nothing where it is none; no result
where the arithmetic overflows.  `text` follows the opening brace and `close` is the closing one with
what follows. -/
def numberRange (dotdot : ℕ) (text close : Bytes) : Option (Option (List Bytes)) :=
  match zstrtol text 10 with
  | none => none
  | some (rstart, dots) =>
    if dots.length = text.length then some none
    else
      match afterDots dots with
      | none => some none
      | some text2 =>
        match zstrtol text2 10 with
        | none => none
        | some (rend, p) =>
          let third :=
            if p.length = close.length then some (some (1, [], 0))
            else if dotdot = 2 then
              match afterDots p with
              | none => some none
              | some text3 =>
                match zstrtol text3 10 with
                | none => none
                | some (value, p3) =>
                  -- The increment is an `int`.
                  let rincr := (value.setWidth 32).toInt
                  if p3.length = close.length ∧ rincr ≠ 0 then
                    some (some (rincr, text3, (before text3 p3).length))
                  else some none
            else some none
          if p.length = text2.length then some none
          else
            match third with
            | none => none
            | some none => some none
            | some (some (rincr, text3, wid3)) =>
              let minw :=
                if leadingZero text then (before text dots).length
                else if leadingZero text2 then (before text2 p).length
                else if leadingZero text3 then wid3
                else 0
              if rincr = -2 ^ 31 then none
              else
                (numberValues rstart.toInt rend.toInt rincr).map fun values ↦
                  some (values.map (zeroPadded minw))

/-- The parts between the commas directly inside of braces. -/
def commaParts : ℕ → Bytes → List Bytes
  | _, [] => [[]]
  | level, c :: rest =>
    if level = 0 ∧ c = commaToken then [] :: commaParts 0 rest
    else
      let level :=
        if c = inbraceToken then level + 1 else if c = outbraceToken then level - 1 else level
      match commaParts level rest with
      | part :: parts => (c :: part) :: parts
      | [] => [[c]]

/-- `xpandbraces`. -/
def xpandbraces (env : BraceEnv) (word : Bytes) : Option (List Bytes) :=
  let str3 := word.takeWhile (· ≠ inbraceToken)
  match word.dropWhile (· ≠ inbraceToken) with
  | [] => none
  | _ :: text =>
    match braces.close 0 text with
    | none => none
    | some (inside, str2) =>
      let (comma, dotdot) := countForms 0 inside
      let commas := some ((commaParts 0 inside).map fun part ↦ str3 ++ part ++ str2)
      if comma = 0 ∧ dotdot ≠ 0 then
        match bracechardots env text with
        | none => none
        | some (some (cstart, cend)) =>
          some ((charValues cstart cend).map fun wc ↦ str3 ++ env.nicechar wc ++ str2)
        | some none =>
          match numberRange dotdot text (outbraceToken :: str2) with
          | none => none
          | some (some values) => some (values.map fun value ↦ str3 ++ value ++ str2)
          | some none => commas
      else commas

/-- The loop of `prefork` over the list of words. -/
def expandBraces (env : BraceEnv) : ℕ → List Bytes → Option (List Bytes)
  | _, [] => some []
  | 0, _ :: _ => none
  | turns + 1, word :: words =>
    match hasbraces env turns word with
    | none => none
    | some (false, word) => (expandBraces env turns words).map (word :: ·)
    | some (true, word) =>
      match xpandbraces env word with
      | none => none
      | some expansion => expandBraces env turns (expansion ++ words)

end Bsh.Shell
