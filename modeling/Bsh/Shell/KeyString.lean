import Bsh.Shell.Quote

/-!
# Reading `$'...'`

`getkeystring` with `GETKEYS_DOLLARS_QUOTE`, that is, with octal escapes and the escapes of Emacs:
what stands between `$'` and the closing `Snull` becomes a metafied string.
-/

namespace Bsh.Shell

open Bsh.Library

/-- The option `POSIXSTRINGS`, and `ucs4tomb`, which has no result for a character that is not in
the character set. -/
structure KeyEnv where
  posixStrings : Bool
  ucs4tomb : ℕ → Option Bytes

/-- The string read so far and the flags. -/
structure KeyState where
  out : Bytes
  metaKey : ℕ
  control : Bool
  ignoring : Bool

/-- The result and `*len`. -/
structure KeyString where
  buf : Bytes
  len : ℕ
  deriving DecidableEq

/-- What `\M` and `\C` make of a byte. -/
def KeyState.modify (s : KeyState) (c : UInt8) : UInt8 :=
  let c := if s.metaKey = 2 then c ||| 0x80 else c
  let c := if s.control then if c = char '?' then 0x7F else c &&& 0x9F else c
  if s.metaKey = 1 then c ||| 0x80 else c

/-- A byte is modified and added. -/
def KeyState.add (env : KeyEnv) (s : KeyState) (c : UInt8) : KeyState :=
  let c := s.modify c
  let ignoring := s.ignoring || (env.posixStrings && c = 0)
  ⟨if ignoring then s.out else s.out ++ metaCode.unit c, 0, false, ignoring⟩

/-- The bytes that the escapes with a letter stand for. -/
def namedEscape (c : UInt8) : Option UInt8 :=
  if c = char 'a' then some 0x07
  else if c = char 'n' then some 0x0A
  else if c = char 'b' then some 0x08
  else if c = char 't' then some 0x09
  else if c = char 'v' then some 0x0B
  else if c = char 'f' then some 0x0C
  else if c = char 'r' then some 0x0D
  else if c = char 'E' ∨ c = char 'e' then some 0x1B
  else none

/-- Up to `n` hexadecimal digits behind `\u` or `\U`. -/
def universalDigits : ℕ → Bytes → ℕ → ℕ × Bytes
  | 0, s, wval => (wval, s)
  | _ + 1, [], wval => (wval, [])
  | n + 1, c :: s, wval =>
    match digitOf 16 c with
    | some digit => universalDigits n s (wval * 16 + digit)
    | none => (wval, c :: s)

/-- An octal escape or, behind `x`, a hexadecimal one; at most three characters count. -/
def numericEscape (c : UInt8) (rest : Bytes) : Option (UInt8 × Bytes) :=
  let window := if 3 ≤ rest.length then (c :: rest).take 3 else c :: rest
  let skip := if c = char 'x' then 1 else 0
  match zstrtol (window.drop skip) (if c = char 'x' then 16 else 8) with
  | none => none
  | some (value, unread) =>
    some (UInt8.ofBitVec (value.setWidth 8), (c :: rest).drop (window.length - unread.length))

/-- What is left when a character is not in the character set is copied up to its `Snull`. -/
def copyRest (total : ℕ) (out : Bytes) : Bytes → KeyString
  | [] => ⟨out, out.length + 1⟩
  | c :: s =>
    if c = snullToken then ⟨out ++ [c], total - s.length⟩ else copyRest total (out ++ [c]) s

/-- The token `Bnull`, which stands for a quoting backslash. -/
def bnullToken : UInt8 := 0x9F

/-- The characters that the tokens stand for. -/
def ztokens : Bytes := Bytes.ascii "#$^*(())$=|\x7b\x7d[]`<>>?~`,-!'\"\\\\"

/-- The loop of `getkeystring` over a string of `total` bytes. -/
def getkeystringFrom (env : KeyEnv) (total : ℕ) : ℕ → KeyState → Bytes → Option KeyString
  | 0, _, _ => none
  | _ + 1, s, [] => some ⟨s.out, s.out.length⟩
  | turns + 1, s, c :: rest =>
    let next := getkeystringFrom env total turns
    if c = char '\\' ∧ rest ≠ [] then
      let d := rest.headD 0
      let rest' := rest.tail
      match namedEscape d with
      | some value => next (s.add env value) rest'
      | none =>
        if d = char 'M' then
          next { s with metaKey := if s.control then 2 else 1 }
            (if headIs '-' rest' then rest'.tail else rest')
        else if d = char 'C' then
          next { s with control := true } (if headIs '-' rest' then rest'.tail else rest')
        else if d = metaByte then next (s.add env (char '\\')) rest
        else if d = char 'U' ∨ d = char 'u' then
          let (wval, unread) := universalDigits (if d = char 'u' then 4 else 8) rest' 0
          match env.ucs4tomb wval with
          | none => some (copyRest total s.out unread)
          | some bytes => next { s with out := s.out ++ metaCode.encode bytes } unread
        else if isOctal d ∨ d = char 'x' then
          match numericEscape d rest' with
          | none => none
          | some (value, unread) => next (s.add env value) unread
        else next (s.add env d) rest'
    else if c = snullToken then some ⟨s.out, total - rest.length⟩
    else if c = metaByte then
      -- A `Meta` or a `Bnull` at the end of the string would be read past.
      match rest with
      | [] => none
      | d :: rest => next (s.add env (d ^^^ 32)) rest
    else if itok c then
      if s.metaKey ≠ 0 ∨ s.control then
        if c = bnullToken then
          match rest with
          | [] => none
          | d :: rest => next (s.add env d) rest
        else next (s.add env (ztokens.getD (c.toNat - poundToken.toNat) 0)) rest
      else if c = bnullToken then
        match rest with
        | [] => none
        | d :: rest => next { s with out := s.out ++ [c, d] } rest
      else next { s with out := s.out ++ [c] } rest
    else next (s.add env c) rest

/-- `getkeystring` with `GETKEYS_DOLLARS_QUOTE`. -/
def getkeystring (env : KeyEnv) (s : Bytes) : Option KeyString :=
  getkeystringFrom env s.length (s.length + 1) ⟨[], 0, false, false⟩ s

end Bsh.Shell
