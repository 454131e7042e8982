import Bsh.Shell.KeyString
import Bsh.Shell.NiceFormat

/-!
# Reading a quoted word

How the lexer and the expansions read one word that has no special characters but in quotes: single
quotes, `$'...'`, which `getkeystring` decodes, and backslashes.  The result is the word without the
null tokens that mark quotes, or nothing when a quote is not closed or a special character ends the
word.
-/

namespace Bsh.Shell

open Bsh.Library

/-- A newline in quotes with `CSHJUNKIEQUOTES`: the backslash in front of it goes. -/
def junkNewline (lexbuf : Bytes) : Option Bytes :=
  if lexbuf.getLast? = some (char '\\') then some (lexbuf.dropLast ++ [char '\n']) else none

/-- The text of single quotes, and what follows the closing one. -/
def lexQuote (env : NiceEnv) : Bytes → Bytes → Option (Bytes × Bytes)
  | _, [] => none
  | lexbuf, c :: s =>
    if c = char '\'' then
      match s with
      | [] => some (lexbuf, [])
      | e :: rest =>
        if e = char '\'' ∧ env.rcQuotes then lexQuote env (lexbuf ++ [c]) rest
        else some (lexbuf, e :: rest)
    else if env.cshJunkieQuotes ∧ c = char '\n' then
      (junkNewline lexbuf).bind fun lexbuf ↦ lexQuote env lexbuf s
    else lexQuote env (lexbuf ++ metaCode.unit c) s

/-- The text of `$'...'`, where a backslash in front of a quote or a backslash becomes `Bnull`. -/
def lexStrquote (env : NiceEnv) : Bytes → Bytes → Option (Bytes × Bytes)
  | _, [] => none
  | lexbuf, [c] => if c = char '\'' then some (lexbuf, []) else none
  | lexbuf, c :: d :: s =>
    if c = char '\'' then some (lexbuf, d :: s)
    else if c = char '\\' then
      lexStrquote env
        (lexbuf ++ [if d = char '\\' ∨ d = char '\'' then bnullToken else char '\\'] ++
          metaCode.unit d) s
    else if env.cshJunkieQuotes ∧ c = char '\n' then
      (junkNewline lexbuf).bind fun lexbuf ↦ lexStrquote env lexbuf (d :: s)
    else lexStrquote env (lexbuf ++ metaCode.unit c) (d :: s)

/-- `remnulargs`. -/
def remnulargs (s : Bytes) : Bytes := s.filter fun c ↦ !inull c

/-- The expansion of `$'...'`. -/
def expandStrquote (keyEnv : KeyEnv) (lexbuf : Bytes) : Option Bytes :=
  (getkeystring keyEnv (lexbuf ++ [snullToken])).bind fun decoded ↦
    if decoded.len = lexbuf.length + 1 then some (remnulargs decoded.buf) else none

/-- A word of the input, metafied. -/
def readWord (env : NiceEnv) (keyEnv : KeyEnv) : ℕ → Bytes → Option Bytes
  | 0, _ => none
  | _ + 1, [] => some []
  | turns + 1, c :: s =>
    if c = char '\'' then
      (lexQuote env [] s).bind fun (lexbuf, rest) ↦
        (readWord env keyEnv turns rest).map (lexbuf ++ ·)
    else if c = char '$' ∧ s.head? = some (char '\'') then
      (lexStrquote env [] s.tail).bind fun (lexbuf, rest) ↦
        (expandStrquote keyEnv lexbuf).bind fun text ↦
          (readWord env keyEnv turns rest).map (text ++ ·)
    else if c = char '\\' then
      match s with
      | [] => none
      | d :: rest =>
        if d = char '\n' then readWord env keyEnv turns rest
        else (readWord env keyEnv turns rest).map (metaCode.unit d ++ ·)
    else if ispecial env c then none
    else (readWord env keyEnv turns s).map (metaCode.unit c ++ ·)

end Bsh.Shell
