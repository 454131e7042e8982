import Bsh.Library.Utf
import Bsh.Library.Decimal

/-!
# JSON values and `JSON.parse`

The parser is a pushdown automaton: one step for each code unit, with the open arrays and objects
on a stack.  It has no fuel, and the run over a concatenation is the composition of the runs, so
that a text is read piece by piece: `Reads text value` says that `text`, wherever a value may
stand, is read as `value`.  Decimal literals denote exact rationals; `read` is the conversion to
the numbers of the program.  Objects keep their members in order of first insertion, and a repeated
key replaces the earlier value.
-/

namespace Bsh.Library

open List

/-- A JSON value. -/
inductive Json where
  | null
  | bool (value : Bool)
  | num (value : Number)
  | str (value : JsString)
  | arr (elements : List Json)
  | obj (members : List (JsString × Json))
  deriving Inhabited

/-- The members of an object, in order of insertion. -/
abbrev Members := List (JsString × Json)

namespace Json

open Decimal

/-! ## Members -/

/-- Store a member: a present key keeps its place and takes the new value. -/
def setMember (key : JsString) (value : Json) : Members → Members
  | [] => [(key, value)]
  | (k, v) :: rest => if k = key then (k, value) :: rest else (k, v) :: setMember key value rest

/-- The value of a member. -/
def member (key : JsString) (members : Members) : Option Json := members.lookup key

/-- `req[key]` for a property that no prototype has. -/
def field (key : JsString) : Json → Option Json
  | obj members => member key members
  | _ => none

@[simp]
theorem member_setMember_same (key : JsString) (value : Json) (members : Members) :
    member key (setMember key value members) = some value := by
  induction members with
  | nil => simp [member, setMember]
  | cons m rest ih =>
    obtain ⟨k, v⟩ := m
    by_cases hk : k = key
    · simp [member, setMember, hk]
    · have hk' : ¬ key = k := fun h ↦ hk h.symm
      have hbeq : (key == k) = false := by simpa using hk'
      rw [setMember, if_neg hk, member, lookup_cons, hbeq]
      exact ih

variable {c : UInt16} {key text : JsString} {value : Json}

theorem member_setMember_other {other : JsString} (hne : other ≠ key) (value : Json)
    (members : Members) :
    member other (setMember key value members) = member other members := by
  induction members with
  | nil =>
    have hbeq : (other == key) = false := by simpa using hne
    simp [member, setMember, lookup_cons, hbeq]
  | cons m rest ih =>
    obtain ⟨k, v⟩ := m
    by_cases hk : k = key
    · have hbeq : (other == k) = false := by simpa [hk] using hne
      simp [member, setMember, hk, lookup_cons, hk ▸ hbeq]
    · rw [setMember, if_neg hk, member, lookup_cons, member, lookup_cons]
      cases other == k with
      | true => rfl
      | false => exact ih

/-! ## Scalars -/

/-- The digits at the head of a list of codes, and what follows them. -/
def spanDigits (codes : List ℕ) : List ℕ × List ℕ := codes.span isDigitCode

/-- `(0|[1-9][0-9]*)`: the value and what follows. -/
def readInteger (codes : List ℕ) : Option (ℕ × List ℕ) :=
  match spanDigits codes with
  | ([], _) => none
  | (d :: digits, rest) =>
    if d = 0x30 ∧ digits ≠ [] then none else some (digitsValue (d :: digits), rest)

/-- `(\.[0-9]+)?`. -/
def readFraction : List ℕ → Option (ℚ × List ℕ)
  | [] => some (0, [])
  | c :: codes =>
    if c = 0x2E then
      match spanDigits codes with
      | ([], _) => none
      | (digits, rest) => some (digitsValue digits / 10 ^ digits.length, rest)
    else some (0, c :: codes)

/-- An optional sign. -/
def readSign : List ℕ → Bool × List ℕ
  | [] => (false, [])
  | c :: codes =>
    if c = 0x2D then (true, codes) else if c = 0x2B then (false, codes) else (false, c :: codes)

/-- `([eE][+-]?[0-9]+)?`. -/
def readExponent : List ℕ → Option (ℤ × List ℕ)
  | [] => some (0, [])
  | c :: codes =>
    if c = 0x65 ∨ c = 0x45 then
      let (negative, unsigned) := readSign codes
      match spanDigits unsigned with
      | ([], _) => none
      | (digits, rest) =>
        some (if negative then -(digitsValue digits : ℤ) else digitsValue digits, rest)
    else some (0, c :: codes)

/-- A number literal without its sign. -/
def unsignedValue (codes : List ℕ) : Option ℚ :=
  match readInteger codes with
  | none => none
  | some (whole, codes) =>
    match readFraction codes with
    | none => none
    | some (fraction, codes) =>
      match readExponent codes with
      | some (exponent, []) => some ((whole + fraction) * 10 ^ exponent)
      | _ => none

/-- The exact value of a number literal. -/
def numberValue : List ℕ → Option ℚ
  | [] => none
  | c :: codes =>
    if c = 0x2D then (unsignedValue codes).map (-·) else unsignedValue (c :: codes)

/-- The code units of the literal names. -/
def nullName : JsString := Utf.js "null"
def trueName : JsString := Utf.js "true"
def falseName : JsString := Utf.js "false"

/-- The value of a token that is neither a string nor a container. -/
def scalarValue (read : ℚ → Number) (token : JsString) : Option Json :=
  if token = nullName then some .null
  else if token = trueName then some (.bool true)
  else if token = falseName then some (.bool false)
  else (numberValue (token.map UInt16.toNat)).map fun q ↦ .num (read q)

/-! ## Strings -/

/-- Where a reader stands inside a string literal. -/
inductive StringState where
  | plain
  | escape
  | hex (remaining : ℕ) (value : ℕ)
  deriving DecidableEq

/-- The value of a hexadecimal digit. -/
def hexDigit (c : UInt16) : Option ℕ :=
  if 0x30 ≤ c ∧ c ≤ 0x39 then some (c.toNat - 0x30)
  else if 0x61 ≤ c ∧ c ≤ 0x66 then some (c.toNat - 0x61 + 10)
  else if 0x41 ≤ c ∧ c ≤ 0x46 then some (c.toNat - 0x41 + 10)
  else none

/-- The unit a two-character escape stands for. -/
def simpleEscape (c : UInt16) : Option UInt16 :=
  if c = 0x22 ∨ c = 0x5C ∨ c = 0x2F then some c
  else if c = 0x62 then some 0x08
  else if c = 0x66 then some 0x0C
  else if c = 0x6E then some 0x0A
  else if c = 0x72 then some 0x0D
  else if c = 0x74 then some 0x09
  else none

/-- The outcome of reading one unit of a string literal. -/
inductive StringStep where
  | more (state : StringState) (units : JsString)
  | closed

/-- Read one unit of a string literal; the units read so far are in reverse. -/
def stringStep (state : StringState) (units : JsString) (c : UInt16) : Option StringStep :=
  match state with
  | .plain =>
    if c = 0x22 then some .closed
    else if c = 0x5C then some (.more .escape units)
    else if c < 0x20 then none
    else some (.more .plain (c :: units))
  | .escape =>
    if c = 0x75 then some (.more (.hex 3 0) units)
    else (simpleEscape c).map fun e ↦ .more .plain (e :: units)
  | .hex remaining value =>
    (hexDigit c).map fun d ↦
      match remaining with
      | 0 => .more .plain (UInt16.ofNat (value * 16 + d) :: units)
      | remaining + 1 => .more (.hex remaining (value * 16 + d)) units

/-! ## The automaton -/

/-- An array or object that is still open. -/
inductive Frame where
  | array (elements : List Json)
  | object (members : Members) (key : JsString)

inductive Mode where
  | value
  /-- After `[`: a value or `]`. -/
  | firstElement
  /-- After `{`: a key or `}`. -/
  | firstKey
  | key
  | string (isKey : Bool) (state : StringState) (units : JsString)
  | colon
  | scalar (token : JsString)
  /-- After a value inside a container. -/
  | after
  /-- After the whole value. -/
  | finished (value : Json)

structure State where
  stack : List Frame
  mode : Mode

def start : State := ⟨[], .value⟩

def isSpace (c : UInt16) : Bool := c == 0x20 || c == 0x09 || c == 0x0A || c == 0x0D

/-- A unit that ends a scalar token. -/
def isDelimiter (c : UInt16) : Bool := isSpace c || c == 0x2C || c == 0x5D || c == 0x7D

/-- A value is complete: put it where it belongs. -/
def complete (value : Json) : List Frame → State
  | [] => ⟨[], .finished value⟩
  | .array elements :: stack => ⟨.array (elements ++ [value]) :: stack, .after⟩
  | .object members key :: stack => ⟨.object (setMember key value members) key :: stack, .after⟩

/-- The first unit of a value. -/
def beginValue (stack : List Frame) (c : UInt16) : Option State :=
  if isSpace c then some ⟨stack, .value⟩
  else if c = 0x22 then some ⟨stack, .string false .plain []⟩
  else if c = 0x7B then some ⟨.object [] [] :: stack, .firstKey⟩
  else if c = 0x5B then some ⟨.array [] :: stack, .firstElement⟩
  else if isDelimiter c then none
  else some ⟨stack, .scalar [c]⟩

/-- A unit after a complete value. -/
def stepAfter (state : State) (c : UInt16) : Option State :=
  if isSpace c then some state
  else
    match state.mode, state.stack with
    | .after, .array elements :: stack =>
      if c = 0x2C then some ⟨.array elements :: stack, .value⟩
      else if c = 0x5D then some (complete (.arr elements) stack)
      else none
    | .after, .object members key :: stack =>
      if c = 0x2C then some ⟨.object members key :: stack, .key⟩
      else if c = 0x7D then some (complete (.obj members) stack)
      else none
    | _, _ => none

/-- The string literal of a key or of a value has ended. -/
def closeString (isKey : Bool) (units : JsString) (stack : List Frame) : Option State :=
  if isKey then
    match stack with
    | .object members _ :: stack => some ⟨.object members units :: stack, .colon⟩
    | _ => none
  else some (complete (.str units) stack)

def step (read : ℚ → Number) (state : State) (c : UInt16) : Option State :=
  match state.mode with
  | .value => beginValue state.stack c
  | .firstElement =>
    if isSpace c then some state
    else if c = 0x5D then some (complete (.arr []) state.stack.tail)
    else beginValue state.stack c
  | .firstKey =>
    if isSpace c then some state
    else if c = 0x22 then some ⟨state.stack, .string true .plain []⟩
    else if c = 0x7D then some (complete (.obj []) state.stack.tail)
    else none
  | .key =>
    if isSpace c then some state
    else if c = 0x22 then some ⟨state.stack, .string true .plain []⟩
    else none
  | .string isKey stringState units =>
    match stringStep stringState units c with
    | none => none
    | some (.more next units) => some ⟨state.stack, .string isKey next units⟩
    | some .closed => closeString isKey units.reverse state.stack
  | .colon =>
    if isSpace c then some state
    else if c = 0x3A then some ⟨state.stack, .value⟩
    else none
  | .scalar token =>
    if isDelimiter c then
      match scalarValue read token.reverse with
      | none => none
      | some value => stepAfter (complete value state.stack) c
    else some ⟨state.stack, .scalar (c :: token)⟩
  | .after => stepAfter state c
  | .finished _ => stepAfter state c

/-- The value at the end of the text. -/
def finish (read : ℚ → Number) (state : State) : Option Json :=
  match state.stack, state.mode with
  | [], .finished value => some value
  | [], .scalar token => scalarValue read token.reverse
  | _, _ => none

/-- The value of a text that begins in the given state. -/
def eval (read : ℚ → Number) : State → JsString → Option Json
  | state, [] => finish read state
  | state, c :: rest =>
    match step read state c with
    | none => none
    | some state => eval read state rest

/-- `JSON.parse`, with `none` for a `SyntaxError`. -/
def parse (read : ℚ → Number) (text : JsString) : Option Json := eval read start text

/-! ## Reading a text by pieces -/

variable {read : ℚ → Number}

/-- What may follow a value. -/
def Delimited (rest : JsString) : Prop := ∀ c, rest.head? = some c → isDelimiter c = true

theorem delimited_nil : Delimited [] := by
  intro c hc
  simp at hc

theorem delimited_cons (h : isDelimiter c = true) (rest : JsString) :
    Delimited (c :: rest) := by
  intro d hd
  rw [List.head?_cons, Option.some.injEq] at hd
  rwa [← hd]

/-- The text is read as the value wherever a value may stand. -/
def Reads (read : ℚ → Number) (text : JsString) (value : Json) : Prop :=
  ∀ stack rest, Delimited rest →
    eval read ⟨stack, .value⟩ (text ++ rest) = eval read (complete value stack) rest

theorem Reads.parse (h : Reads read text value) :
    parse read text = some value := by
  have hread := h [] [] delimited_nil
  rwa [append_nil] at hread

/-- The units of a literal that stand for the given units of the string. -/
def ReadsUnits (text units : JsString) : Prop :=
  ∀ (read : ℚ → Number) stack isKey before rest,
    eval read ⟨stack, .string isKey .plain before⟩ (text ++ rest) =
      eval read ⟨stack, .string isKey .plain (units.reverse ++ before)⟩ rest

theorem readsUnits_nil : ReadsUnits [] [] := fun _ _ _ _ _ ↦ rfl

theorem ReadsUnits.append {text₁ text₂ units₁ units₂ : JsString} (h₁ : ReadsUnits text₁ units₁)
    (h₂ : ReadsUnits text₂ units₂) : ReadsUnits (text₁ ++ text₂) (units₁ ++ units₂) := by
  intro read stack isKey before rest
  rw [append_assoc, h₁, h₂, reverse_append, append_assoc]

theorem readsUnits_plain (hquote : c ≠ 0x22) (hbackslash : c ≠ 0x5C)
    (hcontrol : ¬ c < 0x20) : ReadsUnits [c] [c] := by
  intro read stack isKey before rest
  simp [eval, step, stringStep, hquote, hbackslash, hcontrol]

theorem readsUnits_escape {e : UInt16} (hu : c ≠ 0x75) (h : simpleEscape c = some e) :
    ReadsUnits [0x5C, c] [e] := by
  intro read stack isKey before rest
  simp [eval, step, stringStep, hu, h]

theorem readsUnits_hex {a b d : UInt16} {p q r s : ℕ} (ha : hexDigit a = some p)
    (hb : hexDigit b = some q) (hc : hexDigit c = some r) (hd : hexDigit d = some s) :
    ReadsUnits [0x5C, 0x75, a, b, c, d]
      [UInt16.ofNat (((p * 16 + q) * 16 + r) * 16 + s)] := by
  intro read stack isKey before rest
  simp [eval, step, stringStep, ha, hb, hc, hd]

/-- A literal between its quotes. -/
def quotedText (text : JsString) : JsString := 0x22 :: text ++ [0x22]

theorem reads_string {units : JsString} (h : ReadsUnits text units) :
    Reads read (quotedText text) (.str units) := by
  intro stack rest _
  have hopen : eval read ⟨stack, .value⟩ (quotedText text ++ rest) =
      eval read ⟨stack, .string false .plain []⟩ (text ++ (0x22 :: rest)) := by
    simp [quotedText, eval, step, beginValue, isSpace]
  rw [hopen, h]
  simp [eval, step, stringStep, closeString]

/-- A token without delimiters is read as a scalar. -/
theorem reads_scalar {token : JsString} (hne : token ≠ [])
    (htoken : ∀ c ∈ token, isDelimiter c = false)
    (hhead : ∀ c, token.head? = some c → c ≠ 0x22 ∧ c ≠ 0x7B ∧ c ≠ 0x5B)
    (hvalue : scalarValue read token = some value) : Reads read token value := by
  intro stack rest hrest
  have hcollect : ∀ (more before : JsString), (∀ c ∈ more, isDelimiter c = false) →
      eval read ⟨stack, .scalar before⟩ (more ++ rest) =
        eval read ⟨stack, .scalar (more.reverse ++ before)⟩ rest := by
    intro more
    induction more with
    | nil => intro before _; rfl
    | cons c more ih =>
      intro before hmore
      have hc := hmore c (by simp)
      simp only [cons_append, eval, step, hc, Bool.false_eq_true, if_false]
      rw [ih (c :: before) fun d hd ↦ hmore d (mem_cons_of_mem c hd)]
      simp
  cases token with
  | nil => exact absurd rfl hne
  | cons c more =>
    have hc := htoken c (by simp)
    obtain ⟨hquote, hbrace, hbracket⟩ := hhead c rfl
    have hspace : isSpace c = false := by
      simp only [isDelimiter, Bool.or_eq_false_iff] at hc
      exact hc.1.1.1
    have hbegin : beginValue stack c = some ⟨stack, .scalar [c]⟩ := by
      simp [beginValue, hspace, hquote, hbrace, hbracket, hc]
    rw [cons_append, eval, step, hbegin]
    simp only
    rw [hcollect more [c] fun d hd ↦ htoken d (mem_cons_of_mem c hd)]
    have hrev : (more.reverse ++ [c]).reverse = c :: more := by simp
    cases rest with
    | nil =>
      cases stack with
      | nil => simp [eval, finish, complete, hrev, hvalue]
      | cons frame stack => cases frame <;> simp [eval, finish, complete]
    | cons d rest =>
      have hd : isDelimiter d = true := hrest d rfl
      have hstep : step read (complete value stack) d = stepAfter (complete value stack) d := by
        cases stack with
        | nil => rfl
        | cons frame stack => cases frame <;> rfl
      simp only [eval]
      rw [step, hstep]
      simp only [hd, if_true, hrev, hvalue]

/-! ## Objects -/

/-- One member in its plain layout. -/
def memberText (key text : JsString) : JsString := quotedText key ++ 0x3A :: text

/-- The members of an object, separated by commas, up to the closing brace. -/
def membersText : List (JsString × JsString) → JsString
  | [] => [0x7D]
  | [(key, text)] => memberText key text ++ [0x7D]
  | (key, text) :: rest => memberText key text ++ 0x2C :: membersText rest

def objectText (members : List (JsString × JsString)) : JsString := 0x7B :: membersText members

/-- The members a list of key and value pairs leaves, starting from the given ones. -/
def insertAll (members : Members) : List (JsString × Json) → Members
  | [] => members
  | (key, value) :: rest => insertAll (setMember key value members) rest

/-- A key whose literal has no escapes. -/
def PlainKey (key : JsString) : Prop := ReadsUnits key key

theorem plainKey_of_forall
    (h : ∀ c ∈ key, c ≠ 0x22 ∧ c ≠ 0x5C ∧ ¬ c < 0x20) : PlainKey key := by
  induction key with
  | nil => exact readsUnits_nil
  | cons c key ih =>
    obtain ⟨hquote, hbackslash, hcontrol⟩ := h c (by simp)
    exact (readsUnits_plain hquote hbackslash hcontrol).append
      (ih fun d hd ↦ h d (mem_cons_of_mem c hd))

theorem eval_memberText (hkey : PlainKey key)
    (htext : Reads read text value) {mode : Mode} (hmode : mode = .key ∨ mode = .firstKey)
    (members : Members) (old : JsString) (stack : List Frame) {rest : JsString}
    (hrest : Delimited rest) :
    eval read ⟨.object members old :: stack, mode⟩ (memberText key text ++ rest) =
      eval read ⟨.object (setMember key value members) key :: stack, .after⟩ rest := by
  have hopen : eval read ⟨.object members old :: stack, mode⟩ (memberText key text ++ rest) =
      eval read ⟨.object members old :: stack, .string true .plain []⟩
        (key ++ (0x22 :: 0x3A :: (text ++ rest))) := by
    rcases hmode with rfl | rfl <;> simp [memberText, quotedText, eval, step, isSpace]
  have hclose : eval read ⟨.object members old :: stack, .string true .plain (key.reverse ++ [])⟩
      (0x22 :: 0x3A :: (text ++ rest)) =
        eval read ⟨.object members key :: stack, .value⟩ (text ++ rest) := by
    simp [eval, step, stringStep, closeString, isSpace]
  rw [hopen, hkey, hclose, htext _ _ hrest]
  rfl

theorem eval_membersText {pieces : List (JsString × JsString)} {values : List (JsString × Json)}
    (h : List.Forall₂ (fun piece value ↦ piece.1 = value.1 ∧ PlainKey piece.1 ∧
      Reads read piece.2 value.2) pieces values) (hne : pieces ≠ [])
    {mode : Mode} (hmode : mode = .key ∨ mode = .firstKey) (members : Members) (old : JsString)
    (stack : List Frame) (rest : JsString) :
    eval read ⟨.object members old :: stack, mode⟩ (membersText pieces ++ rest) =
      eval read (complete (.obj (insertAll members values)) stack) rest := by
  induction h generalizing mode members old with
  | nil => exact absurd rfl hne
  | @cons piece value pieces values hpiece htail ih =>
    obtain ⟨key, text⟩ := piece
    obtain ⟨key', v⟩ := value
    obtain ⟨rfl, hkey, htext⟩ : key = key' ∧ PlainKey key ∧ Reads read text v := hpiece
    cases htail with
    | nil =>
      rw [membersText, append_assoc, singleton_append,
        eval_memberText hkey htext hmode _ _ _ (delimited_cons rfl _)]
      simp [eval, step, stepAfter, isSpace, insertAll]
    | @cons piece₂ value₂ pieces values h₂ htail =>
      have hsplit : membersText ((key, text) :: piece₂ :: pieces) =
          memberText key text ++ 0x2C :: membersText (piece₂ :: pieces) := rfl
      rw [hsplit, append_assoc, cons_append,
        eval_memberText hkey htext hmode _ _ _ (delimited_cons rfl _)]
      have hcomma : eval read ⟨.object (setMember key v members) key :: stack, .after⟩
          (0x2C :: (membersText (piece₂ :: pieces) ++ rest)) =
            eval read ⟨.object (setMember key v members) key :: stack, .key⟩
              (membersText (piece₂ :: pieces) ++ rest) := by
        simp [eval, step, stepAfter, isSpace]
      rw [hcomma, ih (cons_ne_nil _ _) (.inl rfl)]
      rfl

theorem reads_object {pieces : List (JsString × JsString)} {values : List (JsString × Json)}
    (h : List.Forall₂ (fun piece value ↦ piece.1 = value.1 ∧ PlainKey piece.1 ∧
      Reads read piece.2 value.2) pieces values) (hne : pieces ≠ []) :
    Reads read (objectText pieces) (.obj (insertAll [] values)) := by
  intro stack rest _
  have hopen : eval read ⟨stack, .value⟩ (objectText pieces ++ rest) =
      eval read ⟨.object [] [] :: stack, .firstKey⟩ (membersText pieces ++ rest) := by
    simp [objectText, eval, step, beginValue, isSpace]
  rw [hopen, eval_membersText h hne (.inr rfl)]

end Json

end Bsh.Library
