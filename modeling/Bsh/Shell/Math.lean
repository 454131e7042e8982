import Bsh.Shell.Numbers

/-!
# Arithmetic evaluation

`math.c`: the lexer, the value stack and the operator-precedence parser that evaluates while it
parses.  Values are 64-bit integers.  Floating point, identifiers and functions, output formats
and character codes are outside of the model: evaluation stops where it would need them.
-/

namespace Bsh.Shell

open Bsh.Library

/-! ## Tokens -/

/-- The tokens, in the order of the tables. -/
inductive MathToken where
  | inpar | outpar | not | comp | postplus
  | postminus | uplus | uminus | and | xor
  | or | mul | div | mod | plus
  | minus | shleft | shright | les | leq
  | gre | geq | deq | neq | dand
  | dor | dxor | quest | colon | eq
  | pluseq | minuseq | muleq | diveq | modeq
  | andeq | xoreq | oreq | shlefteq | shrighteq
  | dandeq | doreq | dxoreq | comma | eoi
  | preplus | preminus | num | id | power
  | cid | powereq | func
  deriving DecidableEq, Repr

/-- `c_prec`. -/
def cPrec : List ℕ :=
  [1, 137, 2, 2, 2,
    2, 2, 2, 9, 10,
    11, 4, 4, 4, 5,
    5, 6, 6, 7, 7,
    7, 7, 8, 8, 12,
    14, 13, 15, 16, 17,
    17, 17, 17, 17, 17,
    17, 17, 17, 17, 17,
    17, 17, 17, 18, 200,
    2, 2, 0, 0, 3,
    0, 17, 0]

/-- `z_prec`. -/
def zPrec : List ℕ :=
  [1, 137, 2, 2, 2,
    2, 2, 2, 4, 5,
    6, 8, 8, 8, 9,
    9, 3, 3, 10, 10,
    10, 10, 11, 11, 12,
    13, 13, 14, 15, 16,
    16, 16, 16, 16, 16,
    16, 16, 16, 16, 16,
    16, 16, 16, 17, 200,
    2, 2, 0, 0, 7,
    0, 16, 0]

/-- `MTYPE`. -/
inductive Assoc where
  | lr
  | rl
  | bool
  deriving DecidableEq

/-- The `OP_` flags but `OP_OPF`. -/
inductive OpKind where
  | none
  | a2
  | a2ir
  | a2io
  | e2
  | e2io
  | op
  deriving DecidableEq

structure MathType where
  assoc : Assoc
  kind : OpKind
  opf : Bool

/-- `type`. -/
def mathTypes : List MathType :=
  [⟨.lr, .none, false⟩, ⟨.lr, .op, true⟩, ⟨.rl, .none, false⟩, ⟨.rl, .none, false⟩,
    ⟨.rl, .op, true⟩,
    ⟨.rl, .op, true⟩, ⟨.rl, .none, false⟩, ⟨.rl, .none, false⟩, ⟨.lr, .a2io, false⟩,
    ⟨.lr, .a2io, false⟩,
    ⟨.lr, .a2io, false⟩, ⟨.lr, .a2, false⟩, ⟨.lr, .a2, false⟩, ⟨.lr, .a2, false⟩,
    ⟨.lr, .a2, false⟩,
    ⟨.lr, .a2, false⟩, ⟨.lr, .a2io, false⟩, ⟨.lr, .a2io, false⟩, ⟨.lr, .a2ir, false⟩,
    ⟨.lr, .a2ir, false⟩,
    ⟨.lr, .a2ir, false⟩, ⟨.lr, .a2ir, false⟩, ⟨.lr, .a2ir, false⟩, ⟨.lr, .a2ir, false⟩,
    ⟨.bool, .a2io, false⟩,
    ⟨.bool, .a2io, false⟩, ⟨.lr, .a2io, false⟩, ⟨.rl, .op, false⟩, ⟨.rl, .op, false⟩,
    ⟨.rl, .e2, false⟩,
    ⟨.rl, .e2, false⟩, ⟨.rl, .e2, false⟩, ⟨.rl, .e2, false⟩, ⟨.rl, .e2, false⟩,
    ⟨.rl, .e2, false⟩,
    ⟨.rl, .e2io, false⟩, ⟨.rl, .e2io, false⟩, ⟨.rl, .e2io, false⟩, ⟨.rl, .e2io, false⟩,
    ⟨.rl, .e2io, false⟩,
    ⟨.bool, .e2io, false⟩, ⟨.bool, .e2io, false⟩, ⟨.rl, .a2io, false⟩, ⟨.rl, .a2, false⟩,
    ⟨.rl, .op, false⟩,
    ⟨.rl, .none, false⟩, ⟨.rl, .none, false⟩, ⟨.lr, .none, true⟩, ⟨.lr, .none, true⟩,
    ⟨.rl, .a2, false⟩,
    ⟨.lr, .none, true⟩, ⟨.rl, .e2, false⟩, ⟨.lr, .none, true⟩]

/-- `type[tok]`. -/
def MathToken.type (tok : MathToken) : MathType :=
  mathTypes.getD tok.ctorIdx ⟨.lr, .none, false⟩

/-- What evaluation depends on from outside: the options `CPRECEDENCES` and `OCTALZEROES`, the
process id and the last status. -/
structure MathEnv where
  cPrecedences : Bool
  octalZeroes : Bool
  mypid : Zlong
  lastval : Zlong

/-- `prec[tok]`. -/
def MathEnv.prec (env : MathEnv) (tok : MathToken) : ℕ :=
  (if env.cPrecedences then cPrec else zPrec).getD tok.ctorIdx 0

/-- `TOPPREC` and `ARGPREC`. -/
def MathEnv.topPrec (env : MathEnv) : ℕ := env.prec .comma + 1
def MathEnv.argPrec (env : MathEnv) : ℕ := env.prec .comma - 1

/-! ## State -/

/-- The errors. -/
inductive MathError where
  | divisionByZero
  | stackOverflow
  | stackEmpty
  | operandExpected
  | operatorExpected
  | lvalueRequired
  | closingExpected
  | colonExpected
  | colonWithoutQuest
  | outOfIntegers
  | unexpectedClosing
  | invalidBase
  | badBaseSyntax
  deriving DecidableEq, Repr

/-- Why the evaluation of the model ends without a result. -/
inductive MathStop where
  | fuel
  | outside
  deriving DecidableEq

/-- The static variables; the stack has its top first. -/
structure MathState where
  ptr : Bytes
  yyval : Zlong
  mtok : MathToken
  stack : List Zlong
  unary : Bool
  noeval : ℕ
  errflag : Option MathError

/-- `STACKSZ`. -/
def stackSize : ℕ := 100

/-- `zerr`: the first error stays. -/
def MathState.zerr (s : MathState) (e : MathError) : MathState :=
  { s with errflag := s.errflag.or (some e) }

/-! ## The lexer -/

structure Lexed where
  tok : MathToken
  ptr : Bytes
  yyval : Option Zlong
  error : Option MathError

def operator (tok : MathToken) (ptr : Bytes) : Except MathStop Lexed := .ok ⟨tok, ptr, none, none⟩

def number (value : Zlong) (ptr : Bytes) : Except MathStop Lexed :=
  .ok ⟨.num, ptr, some value, none⟩

/-- A number in a base; a base that is out of range is an error. -/
def numberInBase (s : Bytes) (base : ℕ) : Except MathStop Lexed :=
  match zstrtolUnderscore s base true with
  | some (value, ptr) => number value ptr
  | none => .ok ⟨.num, s, some 0, some .invalidBase⟩

/-- The digits and underscores in front are skipped. -/
def skipDigits (s : Bytes) : Bytes := s.dropWhile fun c ↦ idigit c || c = char '_'

/-- `lexconstant` behind a base prefix and an octal constant. -/
def lexDecimal (s : Bytes) : Except MathStop Lexed :=
  let end_ := skipDigits (if s.head?.any isDash then s.tail else s)
  if headIs '.' end_ || headIs 'e' end_ || headIs 'E' end_ then .error .outside
  else
    match zstrtolUnderscore s 10 true with
    | none => .error .outside
    | some (value, ptr) =>
      if headIs '#' ptr then
        -- The base is an `int`.
        let base := value.setWidth 32
        if base.msb then .ok ⟨.num, ptr.tail, some 0, some .invalidBase⟩
        else numberInBase ptr.tail base.toNat
      else number value ptr

/-- `lexconstant`. -/
def lexconstant (env : MathEnv) (s : Bytes) : Except MathStop Lexed :=
  let nptr := if s.head?.any isDash then s.tail else s
  if headIs '0' nptr then
    let nptr := nptr.tail
    if headIs 'x' nptr || headIs 'X' nptr || headIs 'b' nptr || headIs 'B' nptr then
      numberInBase s 0
    else
      let end_ := skipDigits nptr
      if env.octalZeroes && end_.length < nptr.length && !headIs '.' end_ && !headIs 'e' end_ &&
          !headIs 'E' end_ && !headIs '#' end_ then
        numberInBase s 0
      else lexDecimal s
  else lexDecimal s

/-- `yyval.u.l = -yyval.u.l`. -/
def negated (lexed : Lexed) : Lexed := { lexed with yyval := lexed.yyval.map (- ·) }

/-- An identifier may start here. -/
def identifierStart (c : UInt8) : Bool :=
  (char 'a' ≤ c && c ≤ char 'z') || (char 'A' ≤ c && c ≤ char 'Z') || c = char '_' || 0x80 ≤ c

/-- `zzlex`. -/
def zzlex (env : MathEnv) (unary : Bool) : Bytes → Except MathStop Lexed
  | [] => operator .eoi []
  | c :: s =>
    if c = char '+' then
      if headIs '+' s then operator (if unary then .preplus else .postplus) s.tail
      else if headIs '=' s then operator .pluseq s.tail
      else operator (if unary then .uplus else .plus) s
    else if isDash c then
      if s.head?.any isDash then operator (if unary then .preminus else .postminus) s.tail
      else if headIs '=' s then operator .minuseq s.tail
      else if unary then
        if s.head?.any idigit then (lexconstant env s).map negated
        else if headIs '.' s then .error .outside
        else operator .uminus s
      else operator .minus s
    else if c = char '(' then operator .inpar s
    else if c = char ')' then operator .outpar s
    else if c = char '!' then
      if headIs '=' s then operator .neq s.tail else operator .not s
    else if c = char '~' then operator .comp s
    else if c = char '&' then
      if headIs '&' s then
        if headIs '=' s.tail then operator .dandeq s.tail.tail else operator .dand s.tail
      else if headIs '=' s then operator .andeq s.tail
      else operator .and s
    else if c = char '|' then
      if headIs '|' s then
        if headIs '=' s.tail then operator .doreq s.tail.tail else operator .dor s.tail
      else if headIs '=' s then operator .oreq s.tail
      else operator .or s
    else if c = char '^' then
      if headIs '^' s then
        if headIs '=' s.tail then operator .dxoreq s.tail.tail else operator .dxor s.tail
      else if headIs '=' s then operator .xoreq s.tail
      else operator .xor s
    else if c = char '*' then
      if headIs '*' s then
        if headIs '=' s.tail then operator .powereq s.tail.tail else operator .power s.tail
      else if headIs '=' s then operator .muleq s.tail
      else operator .mul s
    else if c = char '/' then
      if headIs '=' s then operator .diveq s.tail else operator .div s
    else if c = char '%' then
      if headIs '=' s then operator .modeq s.tail else operator .mod s
    else if c = char '<' then
      if headIs '<' s then
        if headIs '=' s.tail then operator .shlefteq s.tail.tail else operator .shleft s.tail
      else if headIs '=' s then operator .leq s.tail
      else operator .les s
    else if c = char '>' then
      if headIs '>' s then
        if headIs '=' s.tail then operator .shrighteq s.tail.tail else operator .shright s.tail
      else if headIs '=' s then operator .geq s.tail
      else operator .gre s
    else if c = char '=' then
      if headIs '=' s then operator .deq s.tail else operator .eq s
    else if c = char '$' then number env.mypid s
    else if c = char '?' then
      if unary then number env.lastval s else operator .quest s
    else if c = char ':' then operator .colon s
    else if c = char ',' then operator .comma s
    else if inblank c || c = char '"' || c = 0x9E then zzlex env unary s
    else if idigit c then lexconstant env (c :: s)
    else if c = char '[' || c = char '.' || c = char '#' || identifierStart c then
      .error .outside
    else operator .eoi (c :: s)

/-! ## Operators -/

/-- `push`. -/
def push (value : Zlong) (s : MathState) : MathState :=
  if s.stack.length = stackSize then
    { s with stack := value :: s.stack.tail }.zerr .stackOverflow
  else { s with stack := value :: s.stack }

/-- `for (c.u.l = 1; b.u.l--; c.u.l *= a.u.l)`. -/
def powerLoop (a : Zlong) : ℕ → Zlong → Zlong
  | 0, c => c
  | b + 1, c => powerLoop a b (c * a)

def ofBool (b : Bool) : Zlong := if b then 1 else 0

/-- The `switch` of `op` over the operators with two arguments.  A shift by a count out of range is
undefined, and a negative exponent has a real result. -/
def binaryValue (what : MathToken) (a b : Zlong) : Except MathStop (Except MathError Zlong) :=
  match what with
  | .and | .andeq => .ok (.ok (a &&& b))
  | .xor | .xoreq => .ok (.ok (a ^^^ b))
  | .or | .oreq => .ok (.ok (a ||| b))
  | .mul | .muleq => .ok (.ok (a * b))
  | .div | .diveq =>
    if b = 0 then .ok (.error .divisionByZero)
    else .ok (.ok (if b = -1 then -a else a.sdiv b))
  | .mod | .modeq =>
    if b = 0 then .ok (.error .divisionByZero)
    else .ok (.ok (if b = -1 then 0 else a.srem b))
  | .plus | .pluseq => .ok (.ok (a + b))
  | .minus | .minuseq => .ok (.ok (a - b))
  | .shleft | .shlefteq => if b.toNat < 64 then .ok (.ok (a <<< b.toNat)) else .error .outside
  | .shright | .shrighteq =>
    if b.toNat < 64 then .ok (.ok (a.sshiftRight b.toNat)) else .error .outside
  | .les => .ok (.ok (ofBool (a.slt b)))
  | .leq => .ok (.ok (ofBool (a.sle b)))
  | .gre => .ok (.ok (ofBool (b.slt a)))
  | .geq => .ok (.ok (ofBool (b.sle a)))
  | .deq => .ok (.ok (ofBool (a = b)))
  | .neq => .ok (.ok (ofBool (a ≠ b)))
  | .dand | .dandeq => .ok (.ok (ofBool (a ≠ 0 && b ≠ 0)))
  | .dor | .doreq => .ok (.ok (ofBool (a ≠ 0 || b ≠ 0)))
  | .dxor | .dxoreq => .ok (.ok (ofBool ((a ≠ 0 && b = 0) || (a = 0 && b ≠ 0))))
  | .comma => .ok (.ok b)
  | .power | .powereq => if b.msb then .error .outside else .ok (.ok (powerLoop a b.toNat 1))
  | .eq => .ok (.ok b)
  | _ => .ok (.ok 0)

/-- `op` with two arguments.  No value on the stack is a variable, so that an assignment fails. -/
def binaryOp (what : MathToken) (s : MathState) : Except MathStop MathState :=
  match s.stack with
  | b :: a :: stack =>
    let s := { s with stack := stack }
    let assigns := what.type.kind = .e2 ∨ what.type.kind = .e2io
    if s.noeval ≠ 0 then
      .ok (push 0 (if assigns then s.zerr .lvalueRequired else s))
    else
      match binaryValue what a b with
      | .error stop => .error stop
      | .ok (.error e) => .ok (s.zerr e)
      | .ok (.ok c) =>
        if assigns then .ok (push 0 (s.zerr .lvalueRequired)) else .ok (push c s)
  | _ => .error .outside

/-- `op` with one argument. -/
def unaryOp (what : MathToken) (s : MathState) : Except MathStop MathState :=
  match s.stack with
  | [] => .ok (s.zerr .stackEmpty)
  | a :: stack =>
    match what with
    | .not => .ok { s with stack := ofBool (a = 0) :: stack }
    | .comp => .ok { s with stack := ~~~a :: stack }
    | .uplus => .ok s
    | .uminus => .ok { s with stack := -a :: stack }
    | .postplus | .postminus => .ok (s.zerr .lvalueRequired)
    | .preplus => .ok ({ s with stack := (a + 1) :: stack }.zerr .lvalueRequired)
    | .preminus => .ok ({ s with stack := (a - 1) :: stack }.zerr .lvalueRequired)
    | .quest =>
      match s.stack with
      | c :: b :: a :: stack => .ok (push (if a ≠ 0 then b else c) { s with stack := stack })
      | _ => .error .outside
    | .colon => .ok (s.zerr .colonWithoutQuest)
    | _ => .ok (s.zerr .outOfIntegers)

/-- `op`. -/
def op (what : MathToken) (s : MathState) : Except MathStop MathState :=
  if s.errflag.isSome then .ok s
  else if s.stack = [] then .ok (s.zerr .stackEmpty)
  else
    match what.type.kind with
    | .none | .op => unaryOp what s
    | _ => binaryOp what s

/-- `bop`: a short-circuiting operator whose left side decides; the test is of an `int`. -/
def bop (tk : MathToken) (s : MathState) : Except MathStop MathState :=
  match s.stack with
  | [] => .error .outside
  | value :: _ =>
    let tst := value.setWidth 32 ≠ 0
    match tk with
    | .dand | .dandeq => .ok (if tst then s else { s with noeval := s.noeval + 1 })
    | .dor | .doreq => .ok (if tst then { s with noeval := s.noeval + 1 } else s)
    | _ => .ok s

/-! ## The parser -/

/-- `checkunary`. -/
def checkunary (s : MathState) : MathState :=
  let tp := s.mtok.type
  let s' := { s with unary := !tp.opf }
  if tp.kind ≠ .none then if s.unary then s'.zerr .operandExpected else s'
  else if s.unary then s' else s'.zerr .operatorExpected

/-- `mtok = zzlex()`. -/
def lex (env : MathEnv) (s : MathState) : Except MathStop MathState :=
  match zzlex env s.unary s.ptr with
  | .error stop => .error stop
  | .ok lexed =>
    .ok { s with
      ptr := lexed.ptr, mtok := lexed.tok, yyval := lexed.yyval.getD s.yyval,
      errflag := s.errflag.or lexed.error }

/-- `mtok = zzlex(); checkunary(mtok, optr)`. -/
def nextToken (env : MathEnv) (s : MathState) : Except MathStop MathState :=
  (lex env s).map checkunary

mutual

/-- `mathparse`, up to its loop. -/
def mathparse (env : MathEnv) : ℕ → ℕ → MathState → Except MathStop MathState
  | 0, _, _ => .error .fuel
  | fuel + 1, pc, s =>
    if s.errflag.isSome then .ok s
    else
      match lex env s with
      | .error stop => .error stop
      | .ok s =>
        -- An empty input is no error.
        if pc = env.topPrec ∧ s.mtok = .eoi then .ok s
        else mathloop env fuel pc (checkunary s)

/-- The loop of `mathparse`. -/
def mathloop (env : MathEnv) : ℕ → ℕ → MathState → Except MathStop MathState
  | 0, _, _ => .error .fuel
  | fuel + 1, pc, s =>
    if pc < env.prec s.mtok ∨ s.errflag.isSome then .ok s
    else
      match s.mtok with
      | .num => (nextToken env (push s.yyval s)).bind (mathloop env fuel pc)
      | .id | .cid | .func => .error .outside
      | .inpar =>
        (mathparse env fuel env.topPrec s).bind fun s ↦
          if s.mtok = .outpar then (nextToken env s).bind (mathloop env fuel pc)
          else .ok (s.zerr .closingExpected)
      | .quest =>
        let q := s.stack.head?.any (· ≠ 0)
        let noeval := s.noeval
        (mathparse env fuel (env.prec .colon - 1)
            { s with noeval := if q then noeval else noeval + 1 }).bind fun s ↦
          if s.mtok = .colon then
            (mathparse env fuel (env.prec .quest)
                { s with noeval := if q then noeval + 1 else noeval }).bind fun s ↦
              (op .quest { s with noeval := noeval }).bind (mathloop env fuel pc)
          else .ok ({ s with noeval := noeval }.zerr .colonExpected)
      | otok =>
        (if otok.type.assoc = .bool then bop otok s else .ok s).bind fun s' ↦
          (mathparse env fuel
              (env.prec otok - if otok.type.assoc = .rl then 0 else 1) s').bind fun s'' ↦
            (op otok { s'' with noeval := s.noeval }).bind (mathloop env fuel pc)

end

/-- `mathevall` at the top level, with the value or the error, and the rest of the text. -/
def mathevall (env : MathEnv) (fuel pc : ℕ) (s : Bytes) :
    Except MathStop (Except MathError Zlong × Bytes) :=
  match mathparse env fuel pc ⟨s, 0, .eoi, [], true, 0, none⟩ with
  | .error stop => .error stop
  | .ok s =>
    let s := if s.mtok = .outpar then s.zerr .unexpectedClosing else s
    .ok (match s.errflag with
      | some e => .error e
      | none => .ok (s.stack.getLast?.getD 0), s.ptr)

end Bsh.Shell
