import Bsh.Shell.Quote

/-!
# Conditions

The conditions of `[[ ]]`, `test` and `[`: `par_cond` and its helpers in `parse.c` compile them to
wordcode, with `testlex` in place of the lexer for the builtins, and `evalcond` in `cond.c` evaluates
the wordcode.  The words of strings are the strings themselves.  What a condition asks of files,
options, arithmetic, patterns and modules is a parameter.
-/

namespace Bsh.Shell

open Bsh.Library

/-! ## Wordcode -/

/-- `condstrs` of `get_cond_num`. -/
inductive CondCompare where
  | nt | ot | ef | eq | ne | lt | gt | le | ge
deriving DecidableEq

/-- The conditions with a pattern. -/
inductive CondPattern where
  | streq | strdeq | strneq
deriving DecidableEq

/-- `WC_COND_TYPE`. -/
inductive CondType where
  | not | and | or
  | pattern (kind : CondPattern)
  | strlt | strgtr
  | compare (op : CondCompare)
  | regex | mod | modi
  | letter (c : UInt8)
deriving DecidableEq

/-- The types by their numbers. -/
def CondType.table : List CondType :=
  [.not, .and, .or, .pattern .streq, .pattern .strdeq, .pattern .strneq, .strlt, .strgtr,
    .compare .nt, .compare .ot, .compare .ef, .compare .eq, .compare .ne, .compare .lt, .compare .gt,
    .compare .le, .compare .ge, .regex, .mod, .modi]

/-- A word: the code of a condition, a string, or a number, which is that of a pattern. -/
inductive CondWord where
  | code (type : CondType) (skip : ℕ)
  | str (s : Bytes)
  | num (n : ℕ)
deriving DecidableEq

/-- `WCB_COND`, with the bits that are left for the second number. -/
def wcbCond (type : CondType) (skip : ℕ) : CondWord := .code type (skip % 2 ^ 20)

/-- `WC_COND_TYPE` and `WC_COND_SKIP` of a word. -/
def CondWord.cond : CondWord → Option (CondType × ℕ)
  | .code type skip => some (type, skip)
  | .str _ => none
  | .num n => some (CondType.table.getD (n / 2 ^ 5 % 2 ^ 7) (.letter (UInt8.ofNat (n / 2 ^ 5 % 2 ^ 7))),
      n / 2 ^ 12)

/-! ## The parser -/

/-- `tok`. -/
inductive CondTok where
  | nulltok | string | bang | inpar | outpar | damper | dbar | inang | outang
  | seper (semicolon : Bool)
  | doutbrack | lexerr | other
deriving DecidableEq

/-- What `condlex` reads: the tokens of the shell with their `tokstr`, or `curtestarg` and
`testargs`. -/
inductive CondSource where
  | shell (rest : List (CondTok × Option Bytes))
  | test (curtestarg testargs : List Bytes)

/-- The variables of the parser, with the words in `ecbuf`. -/
structure CondParser where
  tok : CondTok
  tokstr : Option Bytes
  source : CondSource
  code : List CondWord
  npats : ℕ
  errflag : Bool
  posixbuiltins : Bool

/-- The token of an argument in `testlex`. -/
def testTok (arg : Bytes) : CondTok :=
  if arg = Bytes.ascii "-o" then .dbar
  else if arg = Bytes.ascii "-a" then .damper
  else if arg = Bytes.ascii "!" then .bang
  else if arg = Bytes.ascii "(" then .inpar
  else if arg = Bytes.ascii ")" then .outpar
  else if arg = Bytes.ascii "<" then .inang
  else if arg = Bytes.ascii ">" then .outang
  else .string

namespace CondParser

/-- `condlex`: `bshlex` or `testlex`. -/
def condlex (p : CondParser) : CondParser :=
  match p.source with
  | .shell [] => { p with tok := .lexerr, tokstr := none }
  | .shell ((tok, tokstr) :: rest) => { p with tok := tok, tokstr := tokstr, source := .shell rest }
  | .test _ testargs =>
    if p.tok = .lexerr then p
    else
      match testargs with
      | [] =>
        -- Reading past the end a second time is an error.
        { p with tok := if p.tok = .nulltok then .lexerr else .nulltok
                 tokstr := none
                 source := .test [] [] }
      | arg :: args =>
        { p with tok := testTok arg, tokstr := some arg, source := .test (arg :: args) args }

/-- `while (COND_SEP()) condlex();` over the tokens of the shell. -/
def skipSepsFrom (p : CondParser) : List (CondTok × Option Bytes) → CondParser
  | [] =>
    if p.tok = .seper false then { p with tok := .lexerr, tokstr := none, source := .shell [] } else p
  | (tok, tokstr) :: rest =>
    if p.tok = .seper false then
      skipSepsFrom { p with tok := tok, tokstr := tokstr, source := .shell rest } rest
    else p

/-- `while (COND_SEP()) condlex();` -/
def skipSeps (p : CondParser) : CondParser :=
  match p.source with
  | .shell rest => p.skipSepsFrom rest
  | .test _ _ => p

/-- `do condlex(); while (COND_SEP());` -/
def nextWord (p : CondParser) : CondParser := p.condlex.skipSeps

/-- `ecadd`. -/
def ecadd (p : CondParser) (w : CondWord) : CondParser := { p with code := p.code ++ [w] }

/-- `ecstr`. -/
def ecstr (p : CondParser) (s : Bytes) : CondParser := p.ecadd (.str s)

/-- `ecadd(ecnpats++)`. -/
def ecpat (p : CondParser) : CondParser := { p.ecadd (.num p.npats) with npats := p.npats + 1 }

/-- `ecispace(p, 1)`, and the word that is stored there later. -/
def ecinsert (p : CondParser) (start : ℕ) (w : CondWord) : CondParser :=
  { p with code := p.code.take start ++ w :: p.code.drop start }

def ecset (p : CondParser) (start : ℕ) (w : CondWord) : CondParser :=
  { p with code := p.code.set start w }

/-- `YYERROR`. -/
def yyerror (p : CondParser) : CondParser × Bool := ({ p with tok := .lexerr }, false)

/-- `COND_ERROR`. -/
def condError (p : CondParser) : CondParser × Bool :=
  ({ p with tok := .lexerr, errflag := true }, false)

end CondParser

/-! ## Simple conditions -/

/-- `IS_DASH(s[0])`. -/
def dashed (s : Bytes) : Bool := isDash (s.getD 0 0)

/-- The letters in `par_cond_2` and `par_cond_double`. -/
def condLetters : Bytes := Bytes.ascii "abcdefghknoprstuvwxzLONGS"

/-- `strspn(s + 1, ...) == 1`. -/
def condLetter (s : Bytes) : Bool := ((s.drop 1).takeWhile fun c ↦ decide (c ∈ condLetters)).length = 1

/-- `get_cond_num`. -/
def getCondNum (tst : Bytes) : Option CondCompare :=
  if tst = Bytes.ascii "nt" then some .nt
  else if tst = Bytes.ascii "ot" then some .ot
  else if tst = Bytes.ascii "ef" then some .ef
  else if tst = Bytes.ascii "eq" then some .eq
  else if tst = Bytes.ascii "ne" then some .ne
  else if tst = Bytes.ascii "lt" then some .lt
  else if tst = Bytes.ascii "gt" then some .gt
  else if tst = Bytes.ascii "le" then some .le
  else if tst = Bytes.ascii "ge" then some .ge
  else none

/-- The tokens for `=`, `<`, `>` and `~`. -/
def isEquals (c : UInt8) : Bool := c = char '=' || c = 0x8D

def isInang (c : UInt8) : Bool := c = char '<' || c = 0x94

def isOutang (c : UInt8) : Bool := c = char '>' || c = 0x95

def isTilde (c : UInt8) : Bool := c = char '~' || c = 0x98

namespace CondParser

/-- `par_cond_double`. -/
def parCondDouble (p : CondParser) (a b : Bytes) : CondParser × Bool :=
  if ¬dashed a ∨ a.getD 1 0 = 0 then p.condError
  else if a.getD 2 0 = 0 ∧ condLetter a then
    ((p.ecadd (wcbCond (.letter (a.getD 1 0)) 0)).ecstr b, true)
  else (((p.ecadd (wcbCond .mod 1)).ecstr a).ecstr b, true)

/-- `par_cond_triple`. -/
def parCondTriple (p : CondParser) (a b c : Bytes) : CondParser × Bool :=
  let pattern (type : CondType) := ((((p.ecadd (wcbCond type 0)).ecstr a).ecstr c).ecpat, true)
  if isEquals (b.getD 0 0) ∧ b.getD 1 0 = 0 then pattern (.pattern .streq)
  else
    -- The assignment to `t0` takes in the whole disjunction.
    let t0 := isOutang (b.getD 0 0) || isInang (b.getD 0 0)
    if t0 ∧ b.getD 1 0 = 0 then pattern (if t0 then .strgtr else .strlt)
    else if isEquals (b.getD 0 0) ∧ isEquals (b.getD 1 0) ∧ b.getD 2 0 = 0 then
      pattern (.pattern .strdeq)
    else if b.getD 0 0 = char '!' ∧ isEquals (b.getD 1 0) ∧ b.getD 2 0 = 0 then
      pattern (.pattern .strneq)
    else if isEquals (b.getD 0 0) ∧ isTilde (b.getD 1 0) ∧ b.getD 2 0 = 0 then
      (((p.ecadd (wcbCond .regex 0)).ecstr a).ecstr c, true)
    else if dashed b then
      match getCondNum b.tail with
      | some op => (((p.ecadd (wcbCond (.compare op) 0)).ecstr a).ecstr c, true)
      | none => ((((p.ecadd (wcbCond .modi 0)).ecstr b).ecstr a).ecstr c, true)
    else if dashed a ∧ a.getD 1 0 ≠ 0 then
      ((((p.ecadd (wcbCond .mod 2)).ecstr a).ecstr b).ecstr c, true)
    else p.condError

/-- `par_cond_multi`. -/
def parCondMulti (p : CondParser) (a : Bytes) (l : List Bytes) : CondParser × Bool :=
  if ¬dashed a ∨ a.getD 1 0 = 0 then p.condError
  else (l.foldl ecstr ((p.ecadd (wcbCond .mod l.length)).ecstr a), true)

/-- `check_cond`. -/
def checkCond (input cond : Bytes) : Bool := dashed input && decide (input.tail = cond)

/-- The binary operators that `par_cond_2` looks for among the arguments of `test`. -/
def isTestInfix (s : Bytes) : Bool :=
  s = Bytes.ascii "=" || s = Bytes.ascii "<" || s = Bytes.ascii ">" || s = Bytes.ascii "==" ||
    s = Bytes.ascii "!=" || (dashed s && (getCondNum s.tail).isSome)

/-- The collection of the arguments of a condition with more than three words; the first argument
bounds the turns. -/
def takeStrings : ℕ → CondParser → List Bytes → Option (CondParser × List Bytes)
  | 0, _, _ => none
  | turns + 1, p, l =>
    if p.tok = .string then
      match p.tokstr with
      | none => none
      | some s => takeStrings turns p.nextWord (l ++ [s])
    else some (p, l)

/-- The number of tokens that are left. -/
def left (p : CondParser) : ℕ :=
  match p.source with
  | .shell rest => rest.length
  | .test _ testargs => testargs.length

/-- `dble`: a dash and one more character, which for `test` is a letter. -/
def condDble (letters : Bool) (s : Bytes) : Bool :=
  dashed s && (!letters || condLetter s) && decide (s.getD 2 0 = 0)

/-- The order of two strings, from the token between them on. -/
def parCondOrder (p : CondParser) (s1 : Bytes) : Option (CondParser × Bool) :=
  let type := if p.tok = .inang then CondType.strlt else .strgtr
  let p := p.nextWord
  match p.tok, p.tokstr with
  | .string, none => none
  | .string, some s3 => some (((p.nextWord.ecadd (wcbCond type 0)).ecstr s1).ecstr s3, true)
  | _, _ => some p.yyerror

/-- A simple condition of two words or more, from the second one on; `dble` is for the first word. -/
def parCondTail (p : CondParser) (n : ℕ) (s1 s2 : Bytes) (dble : Bool) :
    Option (CondParser × Bool) :=
  let dble := if n = 0 then condDble false s2 else dble
  let p := p.nextWord
  if p.tok = .string ∧ ¬dble then
    match p.tokstr with
    | none => none
    | some s3 =>
      let p := p.nextWord
      if p.tok = .string then
        (takeStrings (p.left + 2) p [s2, s3]).map fun (p, l) ↦ p.parCondMulti s1 l
      else some (p.parCondTriple s1 s2 s3)
  else some (p.parCondDouble s1 s2)

/-- `par_cond_2` from the first word of a simple condition on; `n` is `n_testargs`. -/
def parCondWords (p : CondParser) (n : ℕ) : Option (CondParser × Bool) :=
  match p.tok, p.tokstr with
  | .string, none => none
  | .string, some s1 =>
    let dble := condDble (decide (n ≠ 0)) s1
    let p := p.condlex
    let p :=
      if n = 2 ∧ p.tok ≠ .string ∧ p.tokstr.isSome ∧ dashed s1 then { p with tok := .string }
      else p.skipSeps
    if p.tok = .inang ∨ p.tok = .outang then p.parCondOrder s1
    else if p.tok ≠ .string then
      if p.tok = .lexerr then some p.yyerror
      else if ¬dble ∨ n ≠ 0 then some (p.parCondDouble (Bytes.ascii "-n") s1)
      else some (p.parCondMulti s1 [])
    else
      match p.tokstr with
      | none => none
      | some s2 => p.parCondTail n s1 s2 dble
  | tok, some s1 =>
    -- The first word may be read again as a string.
    if tok ≠ .lexerr ∧ (¬condDble (decide (n ≠ 0)) s1 ∨ n ≠ 0) then
      some (p.nextWord.parCondDouble (Bytes.ascii "-n") s1)
    else some p.yyerror
  | _, none => some p.yyerror

/-- The beginning of `par_cond_2` for `test`, where it returns. -/
def parCondTest (p : CondParser) (testargs : List Bytes) : Option (CondParser × Bool) :=
  if p.tok = .nulltok then some (p.parCondDouble (Bytes.ascii "-n") [])
  else
    match testargs, p.tokstr with
    | [], some s1 =>
      if ¬p.posixbuiltins ∧ checkCond s1 (Bytes.ascii "t") then
        some (p.condlex.parCondDouble s1 (Bytes.ascii "1"))
      else some (p.condlex.parCondDouble (Bytes.ascii "-n") s1)
    | s2 :: s3 :: _, some s1 =>
      if isTestInfix s2 then some (p.condlex.condlex.condlex.parCondTriple s1 s2 s3) else none
    | _, _ => none

/-! ## `par_cond` -/

/-- `n_testargs`. -/
def nTestargs (p : CondParser) : ℕ :=
  match p.source with
  | .shell _ => 0
  | .test _ testargs => testargs.length + 1

/-- What `par_cond_2` returns at once for `test`. -/
def parCondEarly (p : CondParser) : Option (CondParser × Bool) :=
  match p.source with
  | .shell _ => none
  | .test _ testargs => p.parCondTest testargs

/-- In `test`, an exclamation mark in front of `-a` and `-o` is a string. -/
def bangString (p : CondParser) : Bool :=
  match p.source with
  | .test _ (arg :: _ :: _) => checkCond arg (Bytes.ascii "a") || checkCond arg (Bytes.ascii "o")
  | _ => false

mutual

/-- `par_cond`; the first argument of this and the next two functions bounds the turns. -/
def parCond : ℕ → CondParser → Option (CondParser × Bool)
  | 0, _ => none
  | turns + 1, p =>
    let start := p.code.length
    match parCond1 turns p with
    | none => none
    | some (p, r) =>
      let p := p.skipSeps
      if p.tok = .dbar then
        match parCond turns (p.nextWord.ecinsert start (wcbCond .or 0)) with
        | none => none
        | some (p, _) =>
          some (p.ecset start (wcbCond .or (p.code.length - 1 - start)), true)
      else some (p, r)

/-- `par_cond_1`. -/
def parCond1 : ℕ → CondParser → Option (CondParser × Bool)
  | 0, _ => none
  | turns + 1, p =>
    let start := p.code.length
    match parCond2 turns p with
    | none => none
    | some (p, r) =>
      let p := p.skipSeps
      if p.tok = .damper then
        match parCond1 turns (p.nextWord.ecinsert start (wcbCond .and 0)) with
        | none => none
        | some (p, _) =>
          some (p.ecset start (wcbCond .and (p.code.length - 1 - start)), true)
      else some (p, r)

/-- `par_cond_2`. -/
def parCond2 : ℕ → CondParser → Option (CondParser × Bool)
  | 0, _ => none
  | turns + 1, p =>
    match p.parCondEarly with
    | some result => some result
    | none =>
      let n := p.nTestargs
      let bangs := p.bangString
      let p := p.skipSeps
      if p.tok = .bang ∧ ¬bangs then parCond2 turns (p.condlex.ecadd (wcbCond .not 0))
      else if p.tok = .inpar then
        match parCond turns p.nextWord with
        | none => none
        | some (p, r) =>
          let p := p.skipSeps
          some (if p.tok = .outpar then (p.condlex, r) else p.yyerror)
      else p.parCondWords n

end

/-- Turns enough for the tokens that are left: each takes at most three calls. -/
def turns (p : CondParser) : ℕ := 3 * (p.left + 2)

/-- `par_dinbrack`. -/
def parDinbrack (p : CondParser) : Option (CondParser × Bool) :=
  match parCond p.condlex.turns p.condlex with
  | none => none
  | some (p, _) => some (if p.tok = .doutbrack then (p.condlex, true) else p.yyerror)

end CondParser

/-! ## `evalcond` -/

/-- What conditions ask of the rest of the shell. -/
structure CondEnv (σ : Type*) where
  /-- `cond_subst` and `untokenize` of a string with tokens. -/
  condSubst : Bool → Bytes → σ → Bytes × σ
  /-- The conditions with a letter but `-n`, `-z` and `-o`. -/
  letter : UInt8 → Bytes → σ → Bool × σ
  optison : Bytes → σ → ℕ × σ
  /-- `-nt`, `-ot`, `-ef`, and the comparison of two arithmetic expressions. -/
  compare : CondCompare → Bytes → Bytes → σ → Bool × σ
  /-- Substitution in a pattern, `patcompile` and `pattry`. -/
  pattern : Bytes → Bytes → σ → Option Bool × σ
  regex : Bytes → Bytes → σ → ℕ × σ
  /-- Conditions of modules, with whether they stand between their operands. -/
  module : Bool → Bytes → List Bytes → σ → ℕ × σ

/-- A truth value as a status. -/
def condStatus (b : Bool) : ℕ := if b then 0 else 1

/-- The comparisons of `test` with numbers of both signs. -/
def compareInts (op : CondCompare) (a b : ℤ) : Option Bool :=
  match op with
  | .eq => some (a = b)
  | .ne => some (a ≠ b)
  | .lt => some (a < b)
  | .gt => some (a > b)
  | .le => some (a ≤ b)
  | .ge => some (a ≥ b)
  | .nt | .ot | .ef => none

/-- An operand of an integer comparison of `test`, if it is an integer. -/
def testInteger (s : Bytes) : Option ℤ :=
  match zstrtol s 10 with
  | some (n, []) => some n.toInt
  | _ => none

namespace CondEnv

variable {σ : Type*} (env : CondEnv σ) (fromtest : Bool)

/-- A string of the wordcode as the evaluation uses it. -/
def operand (s : Bytes) (st : σ) : Bytes × σ :=
  if s.any itok then env.condSubst (!fromtest) s st else (s, st)

/-- The status of a condition with a letter. -/
def letterStatus (c : UInt8) (s : Bytes) (st : σ) : ℕ × σ :=
  let (s, st) := env.operand fromtest s st
  if c = char 'n' then (condStatus (s ≠ []), st)
  else if c = char 'z' then (condStatus (s = []), st)
  else if c = char 'o' then env.optison s st
  else
    let (b, st) := env.letter c s st
    (condStatus b, st)

/-- The status of a condition between two strings. -/
def binaryStatus (f : Bytes → Bytes → σ → ℕ × σ) (a b : Bytes) (st : σ) : ℕ × σ :=
  let (a, st) := env.operand fromtest a st
  let (b, st) := env.operand fromtest b st
  f a b st

/-- The status of a comparison. -/
def compareStatus (op : CondCompare) (a b : Bytes) (st : σ) : ℕ × σ :=
  if fromtest ∧ op ≠ .nt ∧ op ≠ .ot ∧ op ≠ .ef then
    match testInteger a, testInteger b with
    | some x, some y => (condStatus ((compareInts op x y).getD false), st)
    | _, _ => (2, st)
  else
    let (b, st) := env.compare op a b st
    (condStatus b, st)

/-- The status of a condition with a pattern; `none` for a bad pattern. -/
def patternStatus (kind : CondPattern) (a b : Bytes) (st : σ) : Option ℕ × σ :=
  let (a, st) := env.operand fromtest a st
  let (test, st) := env.pattern a b st
  (test.map fun test ↦ condStatus (if kind = .strneq then !test else test), st)

end CondEnv

/-- `ecgetstr`. -/
def ecgetstr (words : List CondWord) (pc : ℕ) : Option Bytes :=
  match words[pc]? with
  | some (.str s) => some s
  | _ => none

/-- `ecgetarr`. -/
def ecgetarr (words : List CondWord) (pc : ℕ) : ℕ → Option (List Bytes)
  | 0 => some []
  | num + 1 =>
    match ecgetstr words pc, ecgetarr words (pc + 1) num with
    | some s, some l => some (s :: l)
    | _, _ => none

section

variable {σ : Type*} (env : CondEnv σ) (fromtest : Bool) (words : List CondWord)

/-- `evalcond` of a simple condition, whose words behind the code begin at `pc`: the status, and the
program counter after it. -/
def evalSimple (type : CondType) (skip pc : ℕ) (st : σ) : Option (ℕ × ℕ × σ) :=
  let done (n : ℕ) (result : ℕ × σ) := some (result.1, pc + n, result.2)
  match type with
  | .letter c =>
    match ecgetstr words pc with
    | some a => done 1 (env.letterStatus fromtest c a st)
    | none => none
  | .pattern kind =>
    match ecgetstr words pc, ecgetstr words (pc + 1) with
    | some a, some b =>
      match env.patternStatus fromtest kind a b st with
      | (some status, st) => some (status, pc + 3, st)
      | (none, st) => some (2, pc + 1, st)
    | _, _ => none
  | .mod =>
    match ecgetstr words pc, ecgetarr words (pc + 1) skip with
    | some name, some args => done (skip + 1) (env.module false name args st)
    | _, _ => none
  | .modi =>
    match ecgetstr words pc, ecgetarr words (pc + 1) 2 with
    | some name, some args => done 3 (env.module true name args st)
    | _, _ => none
  | .regex =>
    match ecgetstr words pc, ecgetstr words (pc + 1) with
    | some a, some b => done 2 (env.regex a b st)
    | _, _ => none
  | .strlt | .strgtr | .compare _ | .not | .and | .or =>
    match ecgetstr words pc, ecgetstr words (pc + 1) with
    | some a, some b =>
      match type with
      | .strlt => done 2 (env.binaryStatus fromtest (fun a b st ↦ (condStatus (a < b), st)) a b st)
      | .strgtr => done 2 (env.binaryStatus fromtest (fun a b st ↦ (condStatus (b < a), st)) a b st)
      | .compare op => done 2 (env.binaryStatus fromtest (env.compareStatus fromtest op) a b st)
      | _ => none
    | _, _ => none

/-- `evalcond`: the status, and the program counter after it.  The first argument bounds the turns. -/
def evalcond : ℕ → ℕ → σ → Option (ℕ × ℕ × σ)
  | 0, _, _ => none
  | turns + 1, pc, st =>
    match words[pc]?.bind CondWord.cond with
    | none => none
    | some (.not, _) =>
      match evalcond turns (pc + 1) st with
      | none => none
      | some (ret, pc, st) => some (if ret = 0 ∨ ret = 1 then 1 - ret else ret, pc, st)
    | some (.and, skip) =>
      match evalcond turns (pc + 1) st with
      | none => none
      | some (ret, next, st) =>
        if ret = 0 then evalcond turns next st else some (ret, pc + (skip + 1), st)
    | some (.or, skip) =>
      match evalcond turns (pc + 1) st with
      | none => none
      | some (ret, next, st) =>
        if ret = 1 ∨ ret = 3 then evalcond turns next st else some (ret, pc + (skip + 1), st)
    | some (type, skip) => evalSimple env fromtest words type skip (pc + 1) st

end

/-! ## `test` and `[` -/

/-- How a call of `test` ends: with a status, or with a warning and the status 2. -/
inductive TestOutcome where
  | status (n : ℕ)
  | warning (text : String)
deriving DecidableEq

/-- `is_cond_binary_op`. -/
def isCondBinaryOp (s : Bytes) : Bool :=
  s ∈ ["=", "==", "!=", "<", ">", "-nt", "-ot", "-ef", "-eq", "-ne", "-lt", "-gt", "-le", "-ge",
    "=~"].map Bytes.ascii

/-- The arguments that `bin_test` parses, and whether it negates the result. -/
def testArguments (argv : List Bytes) : List Bytes × Bool :=
  let nargs := argv.length
  if nargs = 3 ∨ nargs = 4 then
    let inner :=
      if argv.head? = some (Bytes.ascii "(") ∧ argv.getLast? = some (Bytes.ascii ")") ∧
          (nargs ≠ 3 ∨ ¬isCondBinaryOp (argv.getD 1 [])) then argv.tail.dropLast
      else argv
    if nargs = 4 ∧ inner.head? = some (Bytes.ascii "!") then (inner.tail, true) else (inner, false)
  else (argv, false)

/-- The parser at the first argument. -/
def CondParser.test (posixbuiltins : Bool) (args : List Bytes) : CondParser :=
  CondParser.condlex
    { tok := .nulltok, tokstr := none, source := .test [] args, code := [], npats := 0,
      errflag := false, posixbuiltins := posixbuiltins }

/-- `bin_test` without the closing bracket. -/
def testCondition {σ : Type*} (env : CondEnv σ) (posixbuiltins : Bool) (argv : List Bytes) (st : σ) :
    Option (TestOutcome × σ) :=
  if argv = [] then some (.status 1, st)
  else
    let (args, sense) := testArguments argv
    let p := CondParser.test posixbuiltins args
    match p.parCond p.turns with
    | none => none
    | some (p, r) =>
      if p.errflag then some (.status 2, st)
      else if ¬r ∨ p.tok = .lexerr then
        some (.warning (if p.tokstr.isSome then "parse error" else "argument expected"), st)
      else
        match p.source with
        | .test (_ :: _) _ => some (.warning "too many arguments", st)
        | _ =>
          -- `bld_eprog` adds the end, which is 0.
          match evalcond env true (p.code ++ [.num 0]) (p.code.length + 1) 0 st with
          | none => none
          | some (ret, _, st) =>
            some (.status (if ret < 2 ∧ sense then (if ret = 0 then 1 else 0) else ret), st)

/-- `bin_test`. -/
def binTest {σ : Type*} (env : CondEnv σ) (posixbuiltins bracket : Bool) (argv : List Bytes)
    (st : σ) : Option (TestOutcome × σ) :=
  if bracket then
    if argv.getLast? = some (Bytes.ascii "]") then
      testCondition env posixbuiltins argv.dropLast st
    else some (.warning "']' expected", st)
  else testCondition env posixbuiltins argv st

end Bsh.Shell
