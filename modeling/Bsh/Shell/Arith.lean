import Bsh.Shell.Math

/-!
# Arithmetic with parameters

`math.c` with all its values: integers, floating-point numbers, parameters and functions.  What
`math.c` calls elsewhere is a parameter of the model: the double arithmetic of C, the parameters of
the shell, its mathematical functions, `itype_end`, `strtod` and `getkeystring`.  The tokens and
their tables are those of `Bsh.Shell.Math`.
-/

namespace Bsh.Shell.Arith

open Bsh.Library

/-! ## Numbers -/

/-- `mnumber`, once it has been retrieved. -/
inductive Mnumber (F : Type) where
  | int (l : Zlong)
  | float (d : F)
  deriving DecidableEq

/-- Double arithmetic, and shifts by any count. -/
structure Numerics (F : Type) where
  /-- `(double)l`. -/
  ofInt : Zlong → F
  /-- `(zlong)d`. -/
  toInt : F → Zlong
  zero : F
  one : F
  add : F → F → F
  sub : F → F → F
  mul : F → F → F
  div : F → F → F
  fmod : F → F → F
  pow : F → F → F
  neg : F → F
  lt : F → F → Bool
  le : F → F → Bool
  eq : F → F → Bool
  shiftLeft : Zlong → Zlong → Zlong
  shiftRight : Zlong → Zlong → Zlong

/-- What is printed: `lastbase`, `outputradix` and `outputunderscore`. -/
structure Format where
  lastbase : ℤ
  outputradix : ℤ
  outputunderscore : ℤ
  deriving DecidableEq

/-- The errors of `math.c`, and those of what it calls. -/
inductive ArithError where
  | math (e : MathError)
  | badFloatConstant
  | badOutputFormat
  | characterMissing
  | badCharacter
  | imaginaryPower
  | notSet (name : Bytes)
  | other (message : Bytes)
  deriving DecidableEq

/-- The parameters of the shell and what else an evaluation may change. -/
structure World (S : Type) where
  params : S
  format : Format

/-- `PM_TYPE`, as far as an assignment distinguishes it. -/
inductive ParamType where
  | integer
  | float
  | other
  deriving DecidableEq

/-- What `math.c` finds around it.  A call reports the message of the error it has raised. -/
structure Host (S F V : Type) where
  numerics : Numerics F
  cPrecedences : Bool
  octalZeroes : Bool
  forceFloat : Bool
  /-- The option `UNSET`. -/
  unsetIsZero : Bool
  emulateSh : Bool
  mypid : Zlong
  lastval : S → Zlong
  poundgetfn : S → Zlong
  /-- `itype_end(s, INAMESPC, 0) - s`. -/
  itypeEnd : Bytes → ℕ
  /-- The number that `strtod` reads and the count of its characters. -/
  strtod : Bytes → F × ℕ
  /-- `getkeystring` for one character. -/
  getkeystring : Bytes → Option (Zlong × ℕ)
  getvalue : Bytes → World S → Option V × Option Bytes × World S
  getnumvalue : V → World S → Mnumber F × Option Bytes × World S
  /-- The name of a value still leads to the parameter of the value. -/
  isCurrent : Bytes → V → World S → Bool
  setnumvalue : V → Mnumber F → World S → Option Bytes × World S
  /-- `untokenize` and `setnparam`. -/
  setnparam : Bytes → Mnumber F → World S → Option ParamType × Option Bytes × World S
  getcvar : Bytes → World S → Zlong × Option Bytes × World S
  callmathfunc : Bytes → World S → Mnumber F × Option Bytes × World S

/-! ## State -/

/-- `struct mathvalue`; there is no value where it is `MN_UNSET`. -/
structure MathValue (F V : Type) where
  lval : Option Bytes
  pval : Option V
  val : Option (Mnumber F)

/-- The array `stack` up to `sp`, with its top first. -/
structure ValueStack (F V : Type) where
  values : List (MathValue F V)
  fits : values.length ≤ stackSize

/-- The static variables. -/
structure ArithState (S F V : Type) where
  ptr : Bytes
  yyval : Mnumber F
  yylval : Bytes
  mtok : MathToken
  stack : ValueStack F V
  unary : Bool
  noeval : ℕ
  errflag : Option ArithError
  world : World S

/-- Why the model ends without a state: it has run out of fuel, or the code reads below the
stack. -/
inductive ArithStop where
  | fuel
  | underflow
  deriving DecidableEq

variable {S F V : Type}

/-- `zerr`: the first error stays. -/
def ArithState.zerr (s : ArithState S F V) (e : ArithError) : ArithState S F V :=
  { s with errflag := s.errflag.or (some e) }

/-- The state after a call. -/
def ArithState.after (s : ArithState S F V) (error : Option Bytes) (world : World S) :
    ArithState S F V :=
  { s with errflag := s.errflag.or (error.map .other), world := world }

/-- `zero_mnumber`. -/
def zeroMnumber : Mnumber F := .int 0

/-- `u.l` of an integer, or the integer part. -/
def Mnumber.toZlong (numerics : Numerics F) : Mnumber F → Zlong
  | .int l => l
  | .float d => numerics.toInt d

/-- `u.d` of a double, or the value as a double. -/
def Mnumber.toDouble (numerics : Numerics F) : Mnumber F → F
  | .int l => numerics.ofInt l
  | .float d => d

/-- The truth value of a number. -/
def Mnumber.truth (numerics : Numerics F) : Mnumber F → Bool
  | .int l => l ≠ 0
  | .float d => !numerics.eq d numerics.zero

/-! ## The lexer -/

/-- A token with the text behind it, its number or name, what it changes of the output format, and
an error. -/
structure Lexeme (S F : Type) where
  tok : MathToken
  ptr : Bytes
  value : Option (S → Mnumber F) := none
  name : Option Bytes := none
  format : Format → Format := id
  error : Option ArithError := none

def operator (tok : MathToken) (ptr : Bytes) : Lexeme S F := { tok := tok, ptr := ptr }

def failure (e : ArithError) (ptr : Bytes) : Lexeme S F :=
  { tok := .eoi, ptr := ptr, error := some e }

/-- `(int)value`. -/
def toCInt (value : Zlong) : ℤ := (value.setWidth 32).toInt

/-- `zstrtol_underscore` with a base that is an `int`: the value, the text behind it, and the error
of an invalid base. -/
def readInBase (s : Bytes) (base : ℤ) (underscore : Bool) : Zlong × Bytes × Option ArithError :=
  match (if base < 0 then none else zstrtolUnderscore s base.toNat underscore) with
  | some (value, ptr) => (value, ptr, none)
  | none => (0, s, some (.math .invalidBase))

/-- A constant is a double with `FORCEFLOAT`. -/
def constant (host : Host S F V) (value : Zlong) : S → Mnumber F := fun _ ↦
  if host.forceFloat then .float (host.numerics.ofInt value) else .int value

/-- `lastbase` is set. -/
def Format.inBase (base : ℤ) (format : Format) : Format := { format with lastbase := base }

/-- An integer constant whose base its text announces. -/
def announced (host : Host S F V) (s : Bytes) (lastbase : ℤ) : Lexeme S F :=
  let (value, ptr, error) := readInBase s 0 true
  { tok := .num, ptr := ptr, value := some (constant host value), format := .inBase lastbase,
    error := error }

/-- The text behind a constant with a `.` or an exponent. -/
def floatEnd (nptr : Bytes) : Bytes :=
  let nptr := if headIs '.' nptr then skipDigits nptr.tail else nptr
  if headIs 'e' nptr || headIs 'E' nptr then
    let nptr := nptr.tail
    let nptr := if headIs '+' nptr || nptr.head?.any isDash then nptr.tail else nptr
    skipDigits nptr
  else nptr

/-- A floating-point constant. -/
def lexFloat (host : Host S F V) (s nptr : Bytes) : Lexeme S F :=
  let behind := floatEnd nptr
  let text := s.take (s.length - behind.length)
  let s := text.filter (· ≠ char '_') ++ behind
  let (value, count) := host.strtod s
  let rest := s.drop count
  if rest.length = s.length || headIs '.' rest then failure .badFloatConstant s
  else { tok := .num, ptr := rest, value := some fun _ ↦ .float value }

/-- `lexconstant` behind the constants that announce a base. -/
def lexDecimal (host : Host S F V) (s : Bytes) : Lexeme S F :=
  let nptr := skipDigits (if s.head?.any isDash then s.tail else s)
  if headIs '.' nptr || headIs 'e' nptr || headIs 'E' nptr then lexFloat host s nptr
  else
    let (value, ptr, error) := readInBase s 10 true
    if headIs '#' ptr then
      let base := toCInt value
      let (value, ptr, error') := readInBase ptr.tail base true
      { tok := .num, ptr := ptr, value := some (constant host value), format := .inBase base,
        error := error.or error' }
    else { tok := .num, ptr := ptr, value := some (constant host value), error := error }

/-- `lexconstant`. -/
def lexconstant (host : Host S F V) (s : Bytes) : Lexeme S F :=
  let nptr := if s.head?.any isDash then s.tail else s
  if headIs '0' nptr then
    let nptr := nptr.tail
    if headIs 'x' nptr || headIs 'X' nptr then announced host s 16
    else if headIs 'b' nptr || headIs 'B' nptr then announced host s 2
    else
      let behind := skipDigits nptr
      if host.octalZeroes && behind.length < nptr.length && !headIs '.' behind &&
          !headIs 'e' behind && !headIs 'E' behind && !headIs '#' behind then
        announced host s 8
      else lexDecimal host s
  else lexDecimal host s

/-- A negated number. -/
def Mnumber.negate (numerics : Numerics F) : Mnumber F → Mnumber F
  | .int l => .int (-l)
  | .float d => .float (numerics.neg d)

def negated (host : Host S F V) (lexeme : Lexeme S F) : Lexeme S F :=
  if lexeme.tok = .num then
    { lexeme with value := lexeme.value.map fun value params ↦
        (value params).negate host.numerics }
  else lexeme

/-- A number constant starts here: `itype_end` never returns a null pointer, so that a `.` needs a
digit behind it. -/
def startsConstant (s : Bytes) : Bool :=
  s.head?.any idigit || headIs '.' s && s.tail.head?.any idigit

/-- The text behind the bracket that closes the subscript or the arguments; `depth` brackets are
open. -/
def skipBrackets (opening closing : UInt8) : Bytes → ℕ → Bytes
  | [], _ => []
  | [c], depth =>
    if depth = 0 then [c] else []
  | c :: d :: s, depth =>
    if depth = 0 then c :: d :: s
    else
      let depth := if c = opening then depth + 1 else if c = closing then depth - 1 else depth
      if c = char '\\' then skipBrackets opening closing s depth
      else skipBrackets opening closing (d :: s) depth

/-- The word of three letters, in any case. -/
def isWord (a b c : Char) (text : Bytes) : Bool :=
  text.map (fun c ↦ if char 'A' ≤ c && c ≤ char 'Z' then c + 32 else c) = [char a, char b, char c]

/-- An identifier of `count` characters, with its subscript or its arguments; `cct` where a `#`
stands before it. -/
def lexIdentifier (host : Host S F V) (cct : Bool) (s : Bytes) (count : ℕ) : Lexeme S F :=
  let name := s.take count
  let ptr := s.drop count
  let numerics := host.numerics
  if !host.emulateSh && isWord 'n' 'a' 'n' name then
    { tok := .num, ptr := ptr, value := some fun _ ↦ .float (numerics.div numerics.zero numerics.zero) }
  else if !host.emulateSh && isWord 'i' 'n' 'f' name then
    { tok := .num, ptr := ptr, value := some fun _ ↦ .float (numerics.div numerics.one numerics.zero) }
  else if headIs '[' ptr then
    let behind := skipBrackets (char '[') (char ']') ptr.tail 1
    { tok := if cct then .cid else .id, ptr := behind,
      name := some (s.take (s.length - behind.length)) }
  else if !cct && headIs '(' ptr then
    let behind := skipBrackets (char '(') (char ')') ptr.tail 1
    { tok := .func, ptr := behind, name := some (s.take (s.length - behind.length)) }
  else { tok := if cct then .cid else .id, ptr := ptr, name := some name }

/-- The character constant behind a `#`; `s` begins with the second `#` or a backslash. -/
def lexCharacter (host : Host S F V) (s : Bytes) : Lexeme S F :=
  match s.tail with
  | [] => failure .characterMissing []
  | text =>
    match host.getkeystring text with
    | none => failure .badCharacter s
    | some (v, count) =>
      { tok := .num, ptr := text.drop count, value := some fun _ ↦ .int v }

/-- `[base]value`; `s` begins with a digit. -/
def lexBracketBase (s : Bytes) : Lexeme S F :=
  let (n, ptr, _) := readInBase s 10 false
  if headIs ']' ptr && ptr.tail.head?.any idigit then
    let base := toCInt n
    let (value, ptr, error) := readInBase ptr.tail base false
    { tok := .num, ptr := ptr, value := some fun _ ↦ .int value, format := .inBase base,
      error := error }
  else failure (.math .badBaseSyntax) ptr

/-- `[#radix_underscore]`; `s` follows the `[#`.  Either an error, or the change of the format and
the text behind. -/
def lexOutputFormat (s : Bytes) : Except (Lexeme S F) ((Format → Format) × Bytes) :=
  let (n, s) : Zlong × Bytes := if headIs '#' s then (-1, s.tail) else (1, s)
  if !s.head?.any idigit && !headIs '_' s then .error (failure .badOutputFormat s)
  else
    let (radix, s) : Option ℤ × Bytes :=
      if s.head?.any idigit then
        let (value, ptr, _) := readInBase s 10 false
        (some (toCInt (n * value)), ptr)
      else (none, s)
    let (underscore, s) : Option ℤ × Bytes :=
      if headIs '_' s then
        if s.tail.head?.any idigit then
          let (value, ptr, _) := readInBase s.tail 10 false
          (some (toCInt value), ptr)
        else (some 3, s.tail)
      else (none, s)
    let change (format : Format) : Format := { format with
      outputradix := radix.getD format.outputradix,
      outputunderscore := underscore.getD format.outputunderscore }
    if !headIs ']' s then .error { failure .badOutputFormat s with format := change }
    else
      match radix with
      | some radix =>
        if radix.natAbs < 2 ∨ 36 < radix.natAbs then
          .error { failure (.math .invalidBase) s with format := change }
        else .ok (change, s.tail)
      | none => .ok (change, s.tail)

/-- The token that begins with the character `c`, or the text behind a blank or an output format;
`s` follows the character. -/
def lexStep (host : Host S F V) (unary : Bool) (c : UInt8) (s : Bytes) :
    Lexeme S F ⊕ (Format → Format) × Bytes :=
  if c = char '+' then
    if headIs '+' s then .inl (operator (if unary then .preplus else .postplus) s.tail)
    else if headIs '=' s then .inl (operator .pluseq s.tail)
    else .inl (operator (if unary then .uplus else .plus) s)
  else if isDash c then
    if s.head?.any isDash then .inl (operator (if unary then .preminus else .postminus) s.tail)
    else if headIs '=' s then .inl (operator .minuseq s.tail)
    else if unary then
      if startsConstant s then .inl (negated host (lexconstant host s))
      else .inl (operator .uminus s)
    else .inl (operator .minus s)
  else if c = char '(' then .inl (operator .inpar s)
  else if c = char ')' then .inl (operator .outpar s)
  else if c = char '!' then
    .inl (if headIs '=' s then operator .neq s.tail else operator .not s)
  else if c = char '~' then .inl (operator .comp s)
  else if c = char '&' then
    if headIs '&' s then
      .inl (if headIs '=' s.tail then operator .dandeq s.tail.tail else operator .dand s.tail)
    else .inl (if headIs '=' s then operator .andeq s.tail else operator .and s)
  else if c = char '|' then
    if headIs '|' s then
      .inl (if headIs '=' s.tail then operator .doreq s.tail.tail else operator .dor s.tail)
    else .inl (if headIs '=' s then operator .oreq s.tail else operator .or s)
  else if c = char '^' then
    if headIs '^' s then
      .inl (if headIs '=' s.tail then operator .dxoreq s.tail.tail else operator .dxor s.tail)
    else .inl (if headIs '=' s then operator .xoreq s.tail else operator .xor s)
  else if c = char '*' then
    if headIs '*' s then
      .inl (if headIs '=' s.tail then operator .powereq s.tail.tail else operator .power s.tail)
    else .inl (if headIs '=' s then operator .muleq s.tail else operator .mul s)
  else if c = char '/' then .inl (if headIs '=' s then operator .diveq s.tail else operator .div s)
  else if c = char '%' then .inl (if headIs '=' s then operator .modeq s.tail else operator .mod s)
  else if c = char '<' then
    if headIs '<' s then
      .inl (if headIs '=' s.tail then operator .shlefteq s.tail.tail else operator .shleft s.tail)
    else .inl (if headIs '=' s then operator .leq s.tail else operator .les s)
  else if c = char '>' then
    if headIs '>' s then
      .inl (if headIs '=' s.tail then operator .shrighteq s.tail.tail
        else operator .shright s.tail)
    else .inl (if headIs '=' s then operator .geq s.tail else operator .gre s)
  else if c = char '=' then .inl (if headIs '=' s then operator .deq s.tail else operator .eq s)
  else if c = char '$' then
    .inl { tok := .num, ptr := s, value := some fun _ ↦ .int host.mypid }
  else if c = char '?' then
    if unary then .inl { tok := .num, ptr := s, value := some fun params ↦ .int (host.lastval params) }
    else .inl (operator .quest s)
  else if c = char ':' then .inl (operator .colon s)
  else if c = char ',' then .inl (operator .comma s)
  else if c = char '[' then
    if s.head?.any idigit then .inl (lexBracketBase s)
    else if headIs '#' s then
      match lexOutputFormat s.tail with
      | .error lexeme => .inl lexeme
      | .ok skipped => .inr skipped
    else .inl (failure .badOutputFormat s)
  else if inblank c || c = char '"' || c = 0x9E then .inr (id, s)
  else if startsConstant (c :: s) then .inl (lexconstant host (c :: s))
  else if c = char '#' then
    if headIs '\\' s || headIs '#' s then .inl (lexCharacter host s)
    else if host.itypeEnd s = 0 then
      .inl { tok := .num, ptr := s, value := some fun params ↦ .int (host.poundgetfn params) }
    else .inl (lexIdentifier host true s (host.itypeEnd s))
  else if host.itypeEnd (c :: s) = 0 then .inl (operator .eoi (c :: s))
  else .inl (lexIdentifier host false (c :: s) (host.itypeEnd (c :: s)))

/-- The loop of `zzlex`, with fuel for each of its turns. -/
def lexFrom (host : Host S F V) (unary : Bool) : ℕ → (Format → Format) → Bytes → Lexeme S F
  | 0, format, s => { operator .eoi s with format := format }
  | _ + 1, format, [] => { operator .eoi [] with format := format }
  | fuel + 1, format, c :: s =>
    match lexStep host unary c s with
    | .inl lexeme => { lexeme with format := lexeme.format ∘ format }
    | .inr (change, s) => lexFrom host unary fuel (change ∘ format) s

/-- `zzlex`. -/
def zzlex (host : Host S F V) (unary : Bool) (s : Bytes) : Lexeme S F :=
  lexFrom host unary (s.length + 1) id s

/-! ## The stack -/

namespace ValueStack

def empty : ValueStack F V := ⟨[], Nat.zero_le _⟩

/-- The stack without its top. -/
def rest (stack : ValueStack F V) : ValueStack F V :=
  ⟨stack.values.tail, by
    rw [List.length_tail]
    exact (Nat.sub_le _ _).trans stack.fits⟩

/-- The stack with another top. -/
def withTop (stack : ValueStack F V) (mv : MathValue F V) : ValueStack F V :=
  ⟨mv :: stack.values.tail, by
    have hfits := stack.fits
    have hsize : stackSize = 100 := rfl
    rw [List.length_cons, List.length_tail]
    omega⟩

end ValueStack

/-- `push`; a full stack loses its top. -/
def push (val : Option (Mnumber F)) (lval : Option Bytes) (s : ArithState S F V) :
    ArithState S F V :=
  if h : s.stack.values.length < stackSize then
    { s with stack := ⟨⟨lval, none, val⟩ :: s.stack.values, h⟩ }
  else { s with stack := s.stack.withTop ⟨lval, none, val⟩ }.zerr (.math .stackOverflow)

/-- What `getmathparam` returns for a parameter that is not set. -/
def unsetNumber (host : Host S F V) : Mnumber F :=
  if host.forceFloat then .float host.numerics.zero else zeroMnumber

/-- `getnumvalue`, as a double with `FORCEFLOAT`. -/
def fetch (host : Host S F V) (pval : V) (s : ArithState S F V) :
    Mnumber F × ArithState S F V :=
  let (number, error, world) := host.getnumvalue pval s.world
  let number := match number with
    | .int l => if host.forceFloat then .float (host.numerics.ofInt l) else .int l
    | .float d => .float d
  (number, s.after error world)

/-- `getmathparam`: the number, and the value that is kept. -/
def getmathparam (host : Host S F V) (mptr : MathValue F V) (s : ArithState S F V) :
    Mnumber F × Option V × ArithState S F V :=
  match mptr.pval with
  | some pval =>
    let (number, s) := fetch host pval s
    (number, some pval, s)
  | none =>
    let name := mptr.lval.getD []
    let (found, error, world) := host.getvalue name s.world
    let s := s.after error world
    match found with
    | none => (unsetNumber host, none, if host.unsetIsZero then s else s.zerr (.notSet name))
    | some pval =>
      if s.errflag.isSome then (zeroMnumber, some pval, s)
      else
        let (number, s) := fetch host pval s
        (number, some pval, s)

/-- A stack entry whose parameter has been retrieved. -/
def retrieve (host : Host S F V) (mv : MathValue F V) (s : ArithState S F V) :
    MathValue F V × ArithState S F V :=
  match mv.val with
  | some _ => (mv, s)
  | none =>
    let (number, pval, s) := getmathparam host mv s
    ({ mv with pval := pval, val := some number }, s)

/-- `pop`: the number, the entry as it is left above the stack, and the state. -/
def pop (host : Host S F V) (noget : Bool) (s : ArithState S F V) :
    Except ArithStop (Option (Mnumber F) × MathValue F V × ArithState S F V) :=
  match s.stack.values with
  | [] => .error .underflow
  | mv :: _ =>
    let (mv, s) := if noget then (mv, s) else retrieve host mv s
    .ok (if s.errflag.isSome then some zeroMnumber else mv.val, mv,
      { s with stack := s.stack.rest })

/-! ## Assignments -/

/-- The name in front of a subscript. -/
def baseName (lval : Bytes) : Bytes := lval.takeWhile (· ≠ char '[')

/-- The number that an assignment to a parameter of a type returns. -/
def ofParamType (numerics : Numerics F) (type : ParamType) (v : Mnumber F) : Mnumber F :=
  match type with
  | .integer => .int (v.toZlong numerics)
  | .float => .float (v.toDouble numerics)
  | .other => v

/-- `setmathvar`: the number that is returned, and the entry's parameter as it is left. -/
def setmathvar (host : Host S F V) (mvp : MathValue F V) (v : Mnumber F) (s : ArithState S F V) :
    Mnumber F × ArithState S F V :=
  let kept := mvp.pval.filter fun pval ↦ host.isCurrent (baseName (mvp.lval.getD [])) pval s.world
  match kept with
  | some pval =>
    if s.noeval ≠ 0 then (v, s)
    else
      let (error, world) := host.setnumvalue pval v s.world
      (v, s.after error world)
  | none =>
    match mvp.lval with
    | none => (zeroMnumber, s.zerr (.math .lvalueRequired))
    | some lval =>
      if s.noeval ≠ 0 then (v, s)
      else
        let (type, error, world) := host.setnparam lval v s.world
        let v := match type with
          | none => v
          | some type => ofParamType host.numerics type v
        (v, s.after error world)

/-! ## Operators -/

/-- Both operands as integers where the operator works on integers, and as doubles where their types
differ. -/
def coerce (numerics : Numerics F) (what : MathToken) (a b : Mnumber F) : Mnumber F × Mnumber F :=
  if what.type.kind = .a2io ∨ what.type.kind = .e2io then
    (.int (a.toZlong numerics), .int (b.toZlong numerics))
  else if what = .comma then (a, b)
  else
    match a, b with
    | .int l, .float d => (.float (numerics.ofInt l), .float d)
    | .float d, .int l => (.float d, .float (numerics.ofInt l))
    | a, b => (a, b)

/-- An operator on integers. -/
def onInts (numerics : Numerics F) (f : Zlong → Zlong → Zlong) (a b : Mnumber F) : Mnumber F :=
  .int (f (a.toZlong numerics) (b.toZlong numerics))

/-- An operator on two integers or two doubles. -/
def onBoth (numerics : Numerics F) (f : Zlong → Zlong → Zlong) (g : F → F → F) :
    Mnumber F → Mnumber F → Mnumber F
  | .int a, .int b => .int (f a b)
  | a, b => .float (g (a.toDouble numerics) (b.toDouble numerics))

/-- A comparison of two integers or two doubles. -/
def compared (numerics : Numerics F) (f : Zlong → Zlong → Bool) (g : F → F → Bool) :
    Mnumber F → Mnumber F → Mnumber F
  | .int a, .int b => .int (ofBool (f a b))
  | a, b => .int (ofBool (g (a.toDouble numerics) (b.toDouble numerics)))

/-- `notzero`. -/
def notzero : Mnumber F → Bool
  | .int l => l ≠ 0
  | .float _ => true

/-- The power of two doubles; a negative number has none with an exponent that is not integral. -/
def realPower (numerics : Numerics F) (a b : F) : Except ArithError (Mnumber F) :=
  if numerics.lt a numerics.zero && !numerics.eq (numerics.ofInt (numerics.toInt b)) b then
    .error .imaginaryPower
  else .ok (.float (numerics.pow a b))

/-- The `switch` of `op` over the operators with two arguments. -/
def binaryNumber (numerics : Numerics F) (what : MathToken) (a b : Mnumber F) :
    Except ArithError (Mnumber F) :=
  match what with
  | .and | .andeq => .ok (onInts numerics (· &&& ·) a b)
  | .xor | .xoreq => .ok (onInts numerics (· ^^^ ·) a b)
  | .or | .oreq => .ok (onInts numerics (· ||| ·) a b)
  | .mul | .muleq => .ok (onBoth numerics (· * ·) numerics.mul a b)
  | .div | .diveq =>
    if notzero b then
      .ok (onBoth numerics (fun a b ↦ if b = -1 then -a else a.sdiv b) numerics.div a b)
    else .error (.math .divisionByZero)
  | .mod | .modeq =>
    if notzero b then
      .ok (onBoth numerics (fun a b ↦ if b = -1 then 0 else a.srem b) numerics.fmod a b)
    else .error (.math .divisionByZero)
  | .plus | .pluseq => .ok (onBoth numerics (· + ·) numerics.add a b)
  | .minus | .minuseq => .ok (onBoth numerics (· - ·) numerics.sub a b)
  | .shleft | .shlefteq => .ok (onInts numerics numerics.shiftLeft a b)
  | .shright | .shrighteq => .ok (onInts numerics numerics.shiftRight a b)
  | .les => .ok (compared numerics BitVec.slt numerics.lt a b)
  | .leq => .ok (compared numerics BitVec.sle numerics.le a b)
  | .gre => .ok (compared numerics (fun a b ↦ b.slt a) (fun a b ↦ numerics.lt b a) a b)
  | .geq => .ok (compared numerics (fun a b ↦ b.sle a) (fun a b ↦ numerics.le b a) a b)
  | .deq => .ok (compared numerics (fun a b ↦ a = b) numerics.eq a b)
  | .neq => .ok (compared numerics (fun a b ↦ a ≠ b) (fun a b ↦ !numerics.eq a b) a b)
  | .dand | .dandeq => .ok (onInts numerics (fun a b ↦ ofBool (a ≠ 0 && b ≠ 0)) a b)
  | .dor | .doreq => .ok (onInts numerics (fun a b ↦ ofBool (a ≠ 0 || b ≠ 0)) a b)
  | .dxor | .dxoreq =>
    .ok (onInts numerics (fun a b ↦ ofBool ((a ≠ 0 && b = 0) || (a = 0 && b ≠ 0))) a b)
  | .comma | .eq => .ok b
  | .power | .powereq =>
    match a, b with
    | .int x, .int y =>
      -- A negative exponent produces a real result.
      if y.msb then realPower numerics (numerics.ofInt x) (numerics.ofInt y)
      else .ok (.int (powerLoop x y.toNat 1))
    | a, b => realPower numerics (a.toDouble numerics) (b.toDouble numerics)
  | _ => .ok zeroMnumber

/-- The number of an operator with two arguments; the left one of `=` may not have been
retrieved, and then it is not looked at. -/
def computed (numerics : Numerics F) (what : MathToken) (a : Option (Mnumber F)) (b : Mnumber F) :
    Except ArithError (Mnumber F) :=
  match a with
  | none => .ok b
  | some a =>
    let (a, b) := coerce numerics what a b
    binaryNumber numerics what a b

/-- The operator assigns. -/
def assigns (what : MathToken) : Bool := what.type.kind = .e2 || what.type.kind = .e2io

/-- `op` with two arguments. -/
def binaryOp (host : Host S F V) (what : MathToken) (s : ArithState S F V) :
    Except ArithStop (ArithState S F V) :=
  match pop host false s with
  | .error stop => .error stop
  | .ok (b, _, s) =>
    match pop host (what = .eq) s with
    | .error stop => .error stop
    | .ok (a, mvp, s) =>
      if s.errflag.isSome then .ok s
      else
        match (if s.noeval ≠ 0 then .ok zeroMnumber
          else computed host.numerics what a (b.getD zeroMnumber)) with
        | .error e => .ok (s.zerr e)
        | .ok c =>
          if assigns what then
            let (c, s) := setmathvar host mvp c s
            .ok (push (some c) mvp.lval s)
          else .ok (push (some c) none s)

/-- Add to a number. -/
def Mnumber.step (numerics : Numerics F) (up : Bool) : Mnumber F → Mnumber F
  | .int l => .int (if up then l + 1 else l - 1)
  | .float d => .float (if up then numerics.add d numerics.one else numerics.sub d numerics.one)

/-- The top of the stack with a number, no longer a variable. -/
def replaceTop (number : Mnumber F) (s : ArithState S F V) : ArithState S F V :=
  { s with stack := s.stack.withTop ⟨none, none, some number⟩ }

/-- The `switch` of `op` over the operators with one argument, and `?`; the number on top has been
retrieved. -/
def unarySwitch (host : Host S F V) (what : MathToken) (mv : MathValue F V) (a : Mnumber F)
    (s : ArithState S F V) : Except ArithStop (ArithState S F V) :=
  let numerics := host.numerics
  match what with
  | .not => .ok (replaceTop (.int (ofBool (!a.truth numerics))) s)
  | .comp => .ok (replaceTop (.int (~~~a.toZlong numerics)) s)
  | .postplus => .ok (replaceTop a (setmathvar host mv (a.step numerics true) s).2)
  | .postminus => .ok (replaceTop a (setmathvar host mv (a.step numerics false) s).2)
  | .uplus => .ok (replaceTop a s)
  | .uminus => .ok (replaceTop (a.negate numerics) s)
  | .quest =>
    match pop host false s with
    | .error stop => .error stop
    | .ok (c, _, s) =>
      match pop host false s with
      | .error stop => .error stop
      | .ok (b, _, s) =>
        match pop host false s with
        | .error stop => .error stop
        | .ok (a, _, s) =>
          if s.errflag.isSome then .ok s
          else
            .ok (replaceTop ((if (a.getD zeroMnumber).truth numerics then b else c).getD zeroMnumber)
              (push none none s))
  | .colon => .ok (replaceTop a (s.zerr (.math .colonWithoutQuest)))
  | .preplus =>
    .ok (replaceTop (a.step numerics true) (setmathvar host mv (a.step numerics true) s).2)
  | .preminus =>
    .ok (replaceTop (a.step numerics false) (setmathvar host mv (a.step numerics false) s).2)
  | _ => .ok (s.zerr (.math .outOfIntegers))

/-- The top of the stack is retrieved. -/
def retrieveTop (host : Host S F V) (s : ArithState S F V) :
    Except ArithStop (MathValue F V × ArithState S F V) :=
  match s.stack.values with
  | [] => .error .underflow
  | mv :: _ =>
    let (mv, s) := retrieve host mv s
    .ok (mv, { s with stack := s.stack.withTop mv })

/-- `op` with one argument, and `?`. -/
def unaryOp (host : Host S F V) (what : MathToken) (s : ArithState S F V) :
    Except ArithStop (ArithState S F V) :=
  match retrieveTop host s with
  | .error stop => .error stop
  | .ok (mv, s) =>
    if s.errflag.isSome then .ok s
    else unarySwitch host what mv (mv.val.getD zeroMnumber) s

/-- `op`. -/
def op (host : Host S F V) (what : MathToken) (s : ArithState S F V) :
    Except ArithStop (ArithState S F V) :=
  if s.errflag.isSome then .ok s
  else if s.stack.values = [] then .ok (s.zerr (.math .stackEmpty))
  else
    match what.type.kind with
    | .none | .op => unaryOp host what s
    | _ => binaryOp host what s

/-- `noeval++` under a condition. -/
def suspend (condition : Bool) (s : ArithState S F V) : ArithState S F V :=
  { s with noeval := if condition then s.noeval + 1 else s.noeval }

/-- `noeval--` under a condition. -/
def resume (condition : Bool) (s : ArithState S F V) : ArithState S F V :=
  { s with noeval := if condition then s.noeval - 1 else s.noeval }

/-- `bop`: the test of a short-circuiting operator is of an `int`. -/
def bop (host : Host S F V) (tk : MathToken) (s : ArithState S F V) :
    Except ArithStop (ArithState S F V) :=
  match retrieveTop host s with
  | .error stop => .error stop
  | .ok (mv, s) =>
    let tst : Bool := toCInt ((mv.val.getD zeroMnumber).toZlong host.numerics) ≠ 0
    match tk with
    | .dand | .dandeq => .ok (suspend (!tst) s)
    | .dor | .doreq => .ok (suspend tst s)
    | _ => .ok s

/-! ## The parser -/

/-- `prec[tok]`. -/
def Host.prec (host : Host S F V) (tok : MathToken) : ℕ :=
  (if host.cPrecedences then cPrec else zPrec).getD tok.ctorIdx 0

/-- `TOPPREC` and `ARGPREC`. -/
def Host.topPrec (host : Host S F V) : ℕ := host.prec .comma + 1
def Host.argPrec (host : Host S F V) : ℕ := host.prec .comma - 1

/-- `checkunary`. -/
def checkunary (s : ArithState S F V) : ArithState S F V :=
  let tp := s.mtok.type
  let s' := { s with unary := !tp.opf }
  if tp.kind ≠ .none then if s.unary then s'.zerr (.math .operandExpected) else s'
  else if s.unary then s' else s'.zerr (.math .operatorExpected)

/-- `mtok = zzlex()`. -/
def lex (host : Host S F V) (s : ArithState S F V) : ArithState S F V :=
  let lexeme := zzlex host s.unary s.ptr
  { s with
    ptr := lexeme.ptr, mtok := lexeme.tok,
    yyval := (lexeme.value.map fun value ↦ value s.world.params).getD s.yyval,
    yylval := lexeme.name.getD s.yylval,
    errflag := s.errflag.or lexeme.error,
    world := { s.world with format := lexeme.format s.world.format } }

/-- `mtok = zzlex(); checkunary(mtok, optr)`. -/
def nextToken (host : Host S F V) (s : ArithState S F V) : ArithState S F V :=
  checkunary (lex host s)

/-- What is pushed for a number, a variable, a character or a function. -/
def pushOperand (host : Host S F V) (s : ArithState S F V) : ArithState S F V :=
  match s.mtok with
  | .num => push (some s.yyval) none s
  | .id => push (if s.noeval = 0 then none else some zeroMnumber) (some s.yylval) s
  | .cid =>
    if s.noeval = 0 then
      let (value, error, world) := host.getcvar s.yylval s.world
      push (some (.int value)) (some s.yylval) (s.after error world)
    else push (some zeroMnumber) (some s.yylval) s
  | _ =>
    if s.noeval = 0 then
      let (value, error, world) := host.callmathfunc s.yylval s.world
      push (some value) (some s.yylval) (s.after error world)
    else push (some zeroMnumber) (some s.yylval) s

mutual

/-- `mathparse`, up to its loop. -/
def mathparse (host : Host S F V) :
    ℕ → ℕ → ArithState S F V → Except ArithStop (ArithState S F V)
  | 0, _, _ => .error .fuel
  | fuel + 1, pc, s =>
    if s.errflag.isSome then .ok s
    else
      let s := lex host s
      -- An empty input is no error.
      if pc = host.topPrec ∧ s.mtok = .eoi then .ok s
      else mathloop host fuel pc (checkunary s)

/-- The loop of `mathparse`. -/
def mathloop (host : Host S F V) :
    ℕ → ℕ → ArithState S F V → Except ArithStop (ArithState S F V)
  | 0, _, _ => .error .fuel
  | fuel + 1, pc, s =>
    if pc < host.prec s.mtok ∨ s.errflag.isSome then .ok s
    else
      match s.mtok with
      | .num | .id | .cid | .func =>
        mathloop host fuel pc (nextToken host (pushOperand host s))
      | .inpar =>
        match mathparse host fuel host.topPrec s with
        | .error stop => .error stop
        | .ok s =>
          if s.mtok = .outpar then mathloop host fuel pc (nextToken host s)
          else .ok (s.zerr (.math .closingExpected))
      | .quest =>
        match retrieveTop host s with
        | .error stop => .error stop
        | .ok (mv, s) =>
          let q := (mv.val.getD zeroMnumber).truth host.numerics
          match mathparse host fuel (host.prec .colon - 1) (suspend (!q) s) with
          | .error stop => .error stop
          | .ok s =>
            if s.mtok = .colon then
              match mathparse host fuel (host.prec .quest) (suspend q (resume (!q) s)) with
              | .error stop => .error stop
              | .ok s =>
                match op host .quest (resume q s) with
                | .error stop => .error stop
                | .ok s => mathloop host fuel pc s
            else .ok ((resume (!q) s).zerr (.math .colonExpected))
      | otok =>
        match (if otok.type.assoc = .bool then bop host otok s else .ok s) with
        | .error stop => .error stop
        | .ok s' =>
          match mathparse host fuel
              (host.prec otok - if otok.type.assoc = .rl then 0 else 1) s' with
          | .error stop => .error stop
          | .ok s'' =>
            match op host otok { s'' with noeval := s.noeval } with
            | .error stop => .error stop
            | .ok s => mathloop host fuel pc s

end

/-- What `mathevall` leaves: its number and where it stopped reading. -/
structure Evaluated (S F V : Type) where
  result : Mnumber F
  ep : Bytes
  state : ArithState S F V

/-- The state at the start of an evaluation. -/
def startState (s : Bytes) (noeval : ℕ) (world : World S) : ArithState S F V :=
  { ptr := s, yyval := zeroMnumber, yylval := [], mtok := .eoi, stack := .empty, unary := true,
    noeval := noeval, errflag := none,
    world := { world with format := { world.format with lastbase := -1 } } }

/-- `mathevall` below the recursion limit, which saves and restores the static variables around
it. -/
def mathevall (host : Host S F V) (fuel pc : ℕ) (s : Bytes) (noeval : ℕ) (world : World S) :
    Except ArithStop (Evaluated S F V) :=
  match mathparse host fuel pc (startState s noeval world) with
  | .error stop => .error stop
  | .ok s =>
    let s := if s.mtok = .outpar then s.zerr (.math .unexpectedClosing) else s
    if s.errflag.isSome then .ok ⟨zeroMnumber, s.ptr, s⟩
    else
      match s.stack.values.getLast? with
      -- `stack[0]` is zero at the start.
      | none => .ok ⟨zeroMnumber, s.ptr, s⟩
      | some mv =>
        match mv.val with
        | some number => .ok ⟨number, s.ptr, s⟩
        | none =>
          let (number, _, s) := getmathparam host mv s
          .ok ⟨number, s.ptr, s⟩

end Bsh.Shell.Arith
