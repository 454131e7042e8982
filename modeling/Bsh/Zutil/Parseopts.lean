import Mathlib.Data.List.Nodup
import Mathlib.Logic.Function.Basic
import Bsh.Shell.Numbers

/-!
# Options

The loop of `zparseopts` goes over the parameters once.  A word is looked up as a whole, then as a
cluster of short options, and what it gives is recorded with `add_opt_val` right away; with `-D` and
`-E` the parameters that are kept are moved to the front of the copy that is read.  `Reading` says
what is documented of a list of parameters without an error: which are kept, and the options with
their arguments that the others stand for.
-/

namespace Bsh.Zutil

open Bsh.Library Bsh.Shell List

def minus : UInt8 := char '-'

/-! ## Descriptions and values -/

/-- `struct zoptdesc` with its flags, and the array of `=array` or `-a`. -/
structure Zoptdesc where
  name : Bytes
  arg : Bool
  opt : Bool
  mult : Bool
  same : Bool
  map : Bool
  gnus : Bool
  gnul : Bool
  arr : Option Bytes
  deriving DecidableEq

/-- The descriptions, the last one first; no option is defined twice, and `=` is for arguments. -/
structure OptDescs where
  descs : List Zoptdesc
  nodup : (descs.map Zoptdesc.name).Nodup
  gnul_arg : ∀ d ∈ descs, d.gnul = true → d.arg = true

def OptDescs.get_opt_desc (descs : OptDescs) (name : Bytes) : Option Zoptdesc :=
  descs.descs.find? fun p ↦ p.name = name

/-- `sopts`. -/
def OptDescs.sopts (descs : OptDescs) (c : UInt8) : Option Zoptdesc := descs.get_opt_desc [c]

def OptDescs.lookup_opt (descs : OptDescs) (str : Bytes) : Option Zoptdesc :=
  descs.descs.find? fun p ↦
    if p.gnul then p.name = str || (p.name.isPrefixOf str && headIs '=' (str.drop p.name.length))
    else if p.arg then p.name.isPrefixOf str
    else p.name = str

/-- `map_opt_desc`, with the descriptions that are marked with `ZOF_CYC`; the first argument bounds
the calls. -/
def OptDescs.map_opt_desc (descs : OptDescs) : ℕ → List Bytes → Zoptdesc → Option Zoptdesc
  | 0, _, _ => none
  | turns + 1, cyc, start =>
    match if start.map then start.arr.bind descs.get_opt_desc else none with
    | none => some start
    | some map =>
      if map = start then some start
      else if map.name ∈ cyc then none
      else descs.map_opt_desc turns (start.name :: cyc) map

/-- The description that a value is stored for. -/
def OptDescs.target (descs : OptDescs) (d : Zoptdesc) : Zoptdesc :=
  (descs.map_opt_desc (descs.descs.length + 1) [] d).getD d

/-- `struct zoptval`.  The lists of a description and of an array are those of its values, in the
order in which they were made. -/
structure Zoptval where
  desc : Zoptdesc
  name : Bytes
  arg : Option Bytes
  str : Option Bytes
  deriving DecidableEq

/-- The values, and `num` of each array. -/
structure Values where
  vals : List Zoptval
  num : Bytes → ℕ

/-- An option that was found, with its argument. -/
abbrev Call := Zoptdesc × Option Bytes

/-- The value of an option. -/
def OptDescs.value (descs : OptDescs) (call : Call) : Zoptval :=
  let d := descs.target call.1
  let arg := call.2
  let str :=
    if d.arg && !(d.opt || d.same) then none
    else if arg.isSome || d.gnul then
      some (minus :: d.name ++ (if d.gnul then [char '='] else []) ++ arg.getD [])
    else none
  ⟨d, minus :: call.1.name, arg, str⟩

def OptDescs.add_opt_val (descs : OptDescs) (values : Values) (call : Call) : Values :=
  let v := descs.value call
  let count := if v.desc.arg && !(v.desc.opt || v.desc.same) && v.arg.isSome then 2 else 1
  { vals :=
      if v.desc.mult = false ∧ values.vals.any (fun w ↦ w.desc.name = v.desc.name) then
        values.vals.map fun w ↦ if w.desc.name = v.desc.name then v else w
      else values.vals ++ [v]
    num :=
      match v.desc.arr with
      | none => values.num
      | some arr => Function.update values.num arr (values.num arr + count) }

/-! ## One word -/

inductive ParseError where
  | badOption (text : Bytes)
  | missingArgument (name : Bytes)

/-- What becomes of a word: it is not known, or it is taken, with the number of parameters behind it
that it takes too. -/
inductive WordResult where
  | failed (e : ParseError)
  | unknown (values : Values)
  | taken (values : Values) (used : ℕ)

/-- An option that has no argument in its own parameter. -/
def OptDescs.takeNext (descs : OptDescs) (d : Zoptdesc) (next : List Bytes) (values : Values) :
    WordResult :=
  if !d.opt || (!(d.gnul || d.gnus) && next.head?.any fun arg ↦ !headIs '-' arg) then
    match next with
    | [] => .failed (.missingArgument d.name)
    | arg :: _ => .taken (descs.add_opt_val values (d, some arg)) 1
  else .taken (descs.add_opt_val values (d, none)) 0

/-- The loop over the characters of a cluster, from `o` on in the parameter `word`. -/
def OptDescs.shortOptions (descs : OptDescs) (fail : Bool) (word : Bytes) (next : List Bytes) :
    Bytes → Values → WordResult
  | [], values => .taken values 0
  | c :: o, values =>
    match descs.sopts c with
    | none =>
      if fail then
        .failed (.badOption (if c ≠ minus ∨ o.length + 2 < word.length then [c] else c :: o))
      else .unknown values
    | some d =>
      if d.arg then
        if o ≠ [] then .taken (descs.add_opt_val values (d, some o)) 0
        else descs.takeNext d next values
      else descs.shortOptions fail word next o (descs.add_opt_val values (d, none))

/-- The parameter `-str`. -/
def OptDescs.parseWord (descs : OptDescs) (fail : Bool) (str : Bytes) (next : List Bytes)
    (values : Values) : WordResult :=
  match descs.lookup_opt str with
  | none => descs.shortOptions fail (minus :: str) next str values
  | some d =>
    if d.arg then
      let e := str.drop d.name.length
      if d.gnul && headIs '=' e then .taken (descs.add_opt_val values (d, some e.tail)) 0
      else if e ≠ [] then .taken (descs.add_opt_val values (d, some e)) 0
      else descs.takeNext d next values
    else .taken (descs.add_opt_val values (d, none)) 0

/-! ## The loop -/

structure ParseOptions where
  del : Bool
  extract : Bool
  fail : Bool
  gnu : Bool
  keep : Bool
  map : Bool

/-- The parameters or their copy, with the positions `pp` and `cp` in it, and the values. -/
structure ParseState where
  np : List Bytes
  pp : ℕ
  cp : ℕ
  values : Values

/-- `if (del && extract) *cp++ = o;`. -/
def ParseState.keepWord (opts : ParseOptions) (st : ParseState) (o : Bytes) : ParseState :=
  if opts.del && opts.extract then { st with np := st.np.set st.cp o, cp := st.cp + 1 } else st

/-- A parameter that is no option. -/
def isOperand (gnu : Bool) (o : Bytes) : Bool := !headIs '-' o || (gnu && o.tail = [])

/-- `-` and `--`. -/
def isTerminator (o : Bytes) : Bool := o.tail = [] || o.tail = [minus]

/-- The loop over the parameters; the first argument bounds its turns. -/
def OptDescs.parseLoop (descs : OptDescs) (opts : ParseOptions) :
    ℕ → ParseState → Except ParseError ParseState
  | 0, st => .ok st
  | turns + 1, st =>
    match st.np.drop st.pp with
    | [] => .ok st
    | o :: next =>
      let skip (st : ParseState) :=
        if opts.extract then
          descs.parseLoop opts turns { st.keepWord opts o with pp := st.pp + 1 }
        else .ok st
      if isOperand opts.gnu o then skip st
      else if isTerminator o then .ok { st.keepWord opts o with pp := st.pp + 1 }
      else
        match descs.parseWord opts.fail o.tail next st.values with
        | .failed e => .error e
        | .unknown values => skip { st with values := values }
        | .taken values used =>
          descs.parseLoop opts turns { st with values := values, pp := st.pp + 1 + used }

/-- `while (*pp) *cp++ = *pp++`, for the parameters that are left. -/
def copyRest : List Bytes → ℕ → List Bytes → List Bytes × ℕ
  | np, cp, [] => (np, cp)
  | np, cp, o :: rest => copyRest (np.set cp o) (cp + 1) rest

/-- The parameters that are set with `-D`. -/
def ParseState.params (opts : ParseOptions) (st : ParseState) : List Bytes :=
  if opts.extract then
    let (np, cp) := copyRest st.np st.cp (st.np.drop st.pp)
    np.take cp
  else st.np.drop st.pp

/-! ## The assignment -/

/-- The elements for a value. -/
def Zoptval.elements (v : Zoptval) : List Bytes :=
  match v.str with
  | some str => [str]
  | none => v.name :: v.arg.toList

/-- With `-M`, an array that only names another option is not set. -/
def OptDescs.isArray (descs : OptDescs) (opts : ParseOptions) (values : Values) (a : Bytes) : Bool :=
  !(opts.map && values.num a = 0 && (descs.get_opt_desc a).isSome &&
    descs.descs.any fun d ↦ d.arr = some a && d.map && d.name ≠ a &&
      !values.vals.any fun v ↦ v.desc.name = d.name)

/-- The arrays that are set. -/
def OptDescs.arrays (descs : OptDescs) (opts : ParseOptions) (arrs : List Bytes) (values : Values) :
    List (Bytes × List Bytes) :=
  (arrs.filter fun a ↦ descs.isArray opts values a && (!opts.keep || values.num a ≠ 0)).map fun a ↦
    (a, (values.vals.filter fun v ↦ v.desc.arr = some a).flatMap Zoptval.elements)

/-- The keys and values of the associative array: the arguments of an option one behind the other. -/
def OptDescs.assocPairs (descs : OptDescs) (values : Values) : List (Bytes × Bytes) :=
  (descs.descs.filter fun d ↦ values.vals.any fun v ↦ v.desc.name = d.name).map fun d ↦
    (minus :: d.name,
      (values.vals.filter fun v ↦ v.desc.name = d.name).flatMap fun v ↦ v.arg.getD [])

/-- The arrays of the shell, and the associative array that is named with `-A`. -/
structure ShellVars where
  arrays : Bytes → List Bytes
  assoc : Option (List (Bytes × Bytes))

def setArrays (arrays : Bytes → List Bytes) (sets : List (Bytes × List Bytes)) :
    Bytes → List Bytes :=
  sets.foldl (fun arrays set ↦ Function.update arrays set.1 set.2) arrays

/-- `zparseopts` for the parameters in `paramsname` and the output arrays `arrs`. -/
def OptDescs.bin_zparseopts (descs : OptDescs) (opts : ParseOptions) (paramsname : Bytes)
    (arrs : List Bytes) (vars : ShellVars) : ShellVars × Option ParseError :=
  let params := vars.arrays paramsname
  match descs.parseLoop opts (params.length + 1) ⟨params, 0, 0, ⟨[], fun _ ↦ 0⟩⟩ with
  | .error e => (vars, some e)
  | .ok st =>
    let arrays := setArrays vars.arrays (descs.arrays opts arrs st.values)
    let pairs := descs.assocPairs st.values
    let assoc := vars.assoc.map fun old ↦
      if opts.keep then (if pairs = [] then old else old ++ pairs) else pairs
    (⟨if opts.del then Function.update arrays paramsname (st.params opts) else arrays, assoc⟩, none)

/-! ## What is documented -/

/-- The argument that an option takes from the parameters behind it. -/
inductive TakesArg (d : Zoptdesc) : List Bytes → Option Bytes → ℕ → Prop where
  | separate {arg : Bytes} {next : List Bytes}
      (h : d.opt = false ∨ (d.gnul = false ∧ d.gnus = false ∧ headIs '-' arg = false)) :
      TakesArg d (arg :: next) (some arg) 1
  | missing {next : List Bytes} (hopt : d.opt = true)
      (h : d.gnul = true ∨ d.gnus = true ∨ ∀ arg ∈ next.head?, headIs '-' arg = true) :
      TakesArg d next none 0

/-- A cluster of short options. -/
inductive ShortWord (descs : OptDescs) (next : List Bytes) : Bytes → List Call → ℕ → Prop where
  | nil : ShortWord descs next [] [] 0
  | flag {c : UInt8} {d : Zoptdesc} {o : Bytes} {calls : List Call} {used : ℕ}
      (hd : descs.sopts c = some d) (harg : d.arg = false) (h : ShortWord descs next o calls used) :
      ShortWord descs next (c :: o) ((d, none) :: calls) used
  | attached {c : UInt8} {d : Zoptdesc} {o : Bytes} (hd : descs.sopts c = some d)
      (harg : d.arg = true) (ho : o ≠ []) : ShortWord descs next (c :: o) [(d, some o)] 0
  | separate {c : UInt8} {d : Zoptdesc} {arg : Option Bytes} {used : ℕ}
      (hd : descs.sopts c = some d) (harg : d.arg = true) (h : TakesArg d next arg used) :
      ShortWord descs next [c] [(d, arg)] used

/-- The options that the parameter `-str` stands for, with the number of parameters behind it that
are arguments of them. -/
inductive OptionWord (descs : OptDescs) (next : List Bytes) : Bytes → List Call → ℕ → Prop where
  | flag {d : Zoptdesc} (hd : descs.lookup_opt d.name = some d) (harg : d.arg = false) :
      OptionWord descs next d.name [(d, none)] 0
  | gnu {d : Zoptdesc} {arg : Bytes} (hd : descs.lookup_opt (d.name ++ char '=' :: arg) = some d)
      (harg : d.arg = true) (hgnu : d.gnul = true) :
      OptionWord descs next (d.name ++ char '=' :: arg) [(d, some arg)] 0
  | attached {d : Zoptdesc} {arg : Bytes} (hd : descs.lookup_opt (d.name ++ arg) = some d)
      (harg : d.arg = true) (hgnu : d.gnul = false) (hne : arg ≠ []) :
      OptionWord descs next (d.name ++ arg) [(d, some arg)] 0
  | separate {d : Zoptdesc} {arg : Option Bytes} {used : ℕ}
      (hd : descs.lookup_opt d.name = some d) (harg : d.arg = true)
      (h : TakesArg d next arg used) : OptionWord descs next d.name [(d, arg)] used
  | cluster {str : Bytes} {calls : List Call} {used : ℕ} (hd : descs.lookup_opt str = none)
      (h : ShortWord descs next str calls used) : OptionWord descs next str calls used

/-- A word that is not described, and no cluster: a character behind options without arguments is
unknown. -/
def UnknownWord (descs : OptDescs) (str : Bytes) : Prop :=
  descs.lookup_opt str = none ∧ ∃ front c rest, str = front ++ c :: rest ∧
    (∀ f ∈ front, ∃ d, descs.sopts f = some d ∧ d.arg = false) ∧ descs.sopts c = none

/-- What an unknown word contributes: nothing, if no cluster of options begins with it. -/
structure Contributes (descs : OptDescs) (str : Bytes) (calls : List Call) : Prop where
  described : ∀ call ∈ calls, call.1 ∈ descs.descs
  nothing : (∀ c ∈ str.head?, descs.sopts c = none) → calls = []

/-- The parameters that are kept, and the options that are found. -/
inductive Reading (descs : OptDescs) (opts : ParseOptions) :
    List Bytes → List Bytes → List Call → Prop where
  | done : Reading descs opts [] [] []
  | operandStop {o : Bytes} {rest : List Bytes} (hextract : opts.extract = false)
      (ho : isOperand opts.gnu o = true) : Reading descs opts (o :: rest) (o :: rest) []
  | operand {o : Bytes} {rest kept : List Bytes} {calls : List Call} (hextract : opts.extract = true)
      (ho : isOperand opts.gnu o = true) (h : Reading descs opts rest kept calls) :
      Reading descs opts (o :: rest) (o :: kept) calls
  | terminatorGone {o : Bytes} {rest : List Bytes} (hextract : opts.extract = false)
      (ho : isOperand opts.gnu o = false) (hend : isTerminator o = true) :
      Reading descs opts (o :: rest) rest []
  | terminator {o : Bytes} {rest : List Bytes} (hextract : opts.extract = true)
      (ho : isOperand opts.gnu o = false) (hend : isTerminator o = true) :
      Reading descs opts (o :: rest) (o :: rest) []
  | unknownStop {o : Bytes} {rest : List Bytes} {extra : List Call}
      (hextract : opts.extract = false) (hfail : opts.fail = false)
      (ho : isOperand opts.gnu o = false) (hend : isTerminator o = false)
      (hword : UnknownWord descs o.tail)
      (hextra : Contributes descs o.tail extra) : Reading descs opts (o :: rest) (o :: rest) extra
  | unknown {o : Bytes} {rest kept : List Bytes} {extra calls : List Call}
      (hextract : opts.extract = true) (hfail : opts.fail = false)
      (ho : isOperand opts.gnu o = false) (hend : isTerminator o = false)
      (hword : UnknownWord descs o.tail)
      (hextra : Contributes descs o.tail extra) (h : Reading descs opts rest kept calls) :
      Reading descs opts (o :: rest) (o :: kept) (extra ++ calls)
  | option {o : Bytes} {rest kept : List Bytes} {found calls : List Call} {used : ℕ}
      (ho : isOperand opts.gnu o = false) (hend : isTerminator o = false)
      (hword : OptionWord descs rest o.tail found used)
      (h : Reading descs opts (rest.drop used) kept calls) :
      Reading descs opts (o :: rest) kept (found ++ calls)

/-- The values that are stored for a description: of one without `+` only the last. -/
def storedFor (descs : OptDescs) (calls : List Call) (d : Zoptdesc) : List Zoptval :=
  let values := (calls.filter fun call ↦ descs.target call.1 = d).map descs.value
  if d.mult then values else values.getLast?.toList

/-- The values that are stored for the options found, each description's in the order of its
options. -/
def Stored (descs : OptDescs) (calls : List Call) (vals : List Zoptval) : Prop :=
  ∀ d ∈ descs.descs, vals.filter (fun v ↦ v.desc = d) = storedFor descs calls d

/-- After an error nothing has changed.  Otherwise the parameters that are kept are left, in their
order, and what the others stand for is stored in the arrays. -/
structure ParseRight (descs : OptDescs) (opts : ParseOptions) (paramsname : Bytes)
    (arrs : List Bytes) (vars vars' : ShellVars) (e : Option ParseError) : Prop where
  failed : e ≠ none → vars' = vars
  parsed : e = none → ∃ kept calls vals, Reading descs opts (vars.arrays paramsname) kept calls ∧
    kept.Sublist (vars.arrays paramsname) ∧
    (opts.del = true → vars'.arrays paramsname = kept) ∧
    Stored descs calls vals ∧
    (∀ call ∈ calls, ∀ a ∈ arrs, (descs.target call.1).arr = some a → a ≠ paramsname →
      vars'.arrays a = (vals.filter fun v ↦ v.desc.arr = some a).flatMap Zoptval.elements) ∧
    ∀ call ∈ calls, ∀ pairs ∈ vars'.assoc, (minus :: (descs.target call.1).name,
      (vals.filter fun v ↦ v.desc = descs.target call.1).flatMap fun v ↦ v.arg.getD []) ∈ pairs

end Bsh.Zutil

/-!
# What `zparseopts` does with the parameters

Each word is taken as the options that it stands for, or is unknown; from this the loop reads the
parameters as documented.  The position that is written to never gets ahead of the one that is read,
so what is kept is moved to the front without touching what is still to be read.
-/

namespace Bsh.Zutil

open Bsh.Library Bsh.Shell List

variable {descs : OptDescs} {opts : ParseOptions} {fail : Bool} {next : List Bytes}
  {str o word : Bytes} {values : Values} {d : Zoptdesc}

/-! ## One word -/

def OptDescs.addValues (descs : OptDescs) (values : Values) (calls : List Call) : Values :=
  calls.foldl descs.add_opt_val values

/-- What is to be known of a word that is read. -/
def WordRight (descs : OptDescs) (fail : Bool) (values : Values) (str : Bytes)
    (means : List Call → ℕ → Prop) : WordResult → Prop
  | .failed _ => True
  | .unknown values' => fail = false ∧
      (∃ front c rest, str = front ++ c :: rest ∧
        (∀ f ∈ front, ∃ d, descs.sopts f = some d ∧ d.arg = false) ∧ descs.sopts c = none) ∧
      ∃ extra, Contributes descs str extra ∧ values' = descs.addValues values extra
  | .taken values' used => ∃ calls, means calls used ∧ values' = descs.addValues values calls

theorem takeNext_right {means : List Call → ℕ → Prop}
    (h : ∀ arg used, TakesArg d next arg used → means [(d, arg)] used) :
    WordRight descs fail values str means (descs.takeNext d next values) := by
  unfold OptDescs.takeNext
  by_cases hnext : (!d.opt || (!(d.gnul || d.gnus) && next.head?.any fun arg ↦ !headIs '-' arg)) = true
  · rw [if_pos hnext]
    cases next with
    | nil => trivial
    | cons arg next =>
      refine ⟨_, h _ _ (.separate ?_), rfl⟩
      cases hopt : d.opt
      · exact .inl rfl
      · simpa [hopt, and_assoc] using hnext
  · rw [if_neg hnext]
    refine ⟨_, h _ _ (.missing ?_ ?_), rfl⟩
    · cases hopt : d.opt
      · rw [hopt] at hnext
        exact absurd rfl hnext
      · rfl
    · cases hopt : d.opt
      · rw [hopt] at hnext
        exact absurd rfl hnext
      · cases next with
        | nil => exact .inr (.inr fun arg h ↦ nomatch h)
        | cons arg next =>
          cases hl : d.gnul
          · cases hs : d.gnus
            · simpa [hopt, hl, hs] using hnext
            · exact .inr (.inl rfl)
          · exact .inl rfl

theorem shortOptions_right (descs : OptDescs) (fail : Bool) (word : Bytes) (next : List Bytes)
    (o : Bytes) (values : Values) :
    WordRight descs fail values o (ShortWord descs next o)
      (descs.shortOptions fail word next o values) := by
  induction o generalizing values with
  | nil => exact ⟨[], .nil, rfl⟩
  | cons c o ih =>
    rw [OptDescs.shortOptions]
    cases hd : descs.sopts c with
    | none =>
      cases hfail : fail with
      | true => trivial
      | false =>
        refine ⟨rfl, ⟨[], c, o, rfl, fun _ h ↦ absurd h not_mem_nil, hd⟩, [], ⟨?_, ?_⟩, rfl⟩
        · exact fun _ h ↦ absurd h not_mem_nil
        · exact fun _ ↦ rfl
    | some d =>
      dsimp only
      cases harg : d.arg with
      | true =>
        by_cases ho : o = []
        · rw [if_neg (not_not.mpr ho), ho]
          exact takeNext_right fun arg used h ↦ .separate hd harg h
        · rw [if_pos ho]
          exact ⟨_, .attached hd harg ho, rfl⟩
      | false =>
        have hrest := ih (descs.add_opt_val values (d, none))
        generalize descs.shortOptions fail word next o _ =
          result at hrest
        cases result with
        | failed e => trivial
        | taken values' used =>
          obtain ⟨calls, hcalls, hvalues⟩ := hrest
          exact ⟨(d, none) :: calls, .flag hd harg hcalls, hvalues⟩
        | unknown values' =>
          obtain ⟨hfail, ⟨front, x, rest, rfl, hfront, hx⟩, extra, hextra, hvalues⟩ := hrest
          refine ⟨hfail, ⟨c :: front, x, rest, rfl, ?_, hx⟩, (d, none) :: extra, ⟨?_, ?_⟩, hvalues⟩
          · exact List.forall_mem_cons.mpr ⟨⟨d, hd, harg⟩, hfront⟩
          · exact List.forall_mem_cons.mpr ⟨mem_of_find?_eq_some hd, hextra.described⟩
          · intro hunknown
            rw [hunknown c rfl] at hd
            cases hd

theorem lookup_opt_spec (h : descs.lookup_opt str = some d) :
    ∃ e, str = d.name ++ e ∧ (d.arg = false → e = []) ∧
      (d.gnul = true → e = [] ∨ headIs '=' e = true) := by
  have hp := List.find?_some h
  have hmem := mem_of_find?_eq_some h
  have hself (hname : d.name = str) : ∃ e, str = d.name ++ e ∧ (d.arg = false → e = []) ∧
      (d.gnul = true → e = [] ∨ headIs '=' e = true) :=
    ⟨[], by rw [hname, append_nil], fun _ ↦ rfl, fun _ ↦ .inl rfl⟩
  by_cases hgnul : d.gnul = true
  · have harg := descs.gnul_arg d hmem hgnul
    rw [if_pos hgnul, Bool.or_eq_true, decide_eq_true_iff] at hp
    rcases hp with hname | hpre
    · exact hself hname
    · rw [Bool.and_eq_true, isPrefixOf_iff_prefix] at hpre
      obtain ⟨⟨e, rfl⟩, heq⟩ := hpre
      rw [drop_left] at heq
      exact ⟨e, rfl, fun h ↦ absurd (harg.symm.trans h) (by decide), fun _ ↦ .inr heq⟩
  · rw [if_neg hgnul] at hp
    by_cases harg : d.arg = true
    · rw [if_pos harg, isPrefixOf_iff_prefix] at hp
      obtain ⟨e, rfl⟩ := hp
      exact ⟨e, rfl, fun h ↦ absurd (harg.symm.trans h) (by decide), fun h ↦ absurd h hgnul⟩
    · rw [if_neg harg, decide_eq_true_iff] at hp
      exact hself hp

variable {st : ParseState} {used : ℕ}

theorem parseWord_taken {values' : Values}
    (h : descs.parseWord fail str next values = .taken values' used) :
    ∃ calls, OptionWord descs next str calls used ∧ values' = descs.addValues values calls := by
  unfold OptDescs.parseWord at h
  cases hlookup : descs.lookup_opt str with
  | none =>
    have hshort := shortOptions_right descs fail (minus :: str) next str values
    rw [hlookup] at h
    dsimp only at h
    rw [h] at hshort
    obtain ⟨calls, hcalls, hvalues⟩ := hshort
    exact ⟨calls, .cluster hlookup hcalls, hvalues⟩
  | some d =>
    obtain ⟨e, rfl, hflag, hgnul⟩ := lookup_opt_spec hlookup
    rw [hlookup] at h
    dsimp only at h
    rw [drop_left] at h
    by_cases harg : d.arg = true
    · rw [if_pos harg] at h
      by_cases hequals : (d.gnul && headIs '=' e) = true
      · rw [if_pos hequals] at h
        cases h
        rw [Bool.and_eq_true] at hequals
        obtain ⟨arg, rfl⟩ : ∃ arg, e = char '=' :: arg := by
          cases e with
          | nil => exact absurd hequals.2 (by decide)
          | cons c arg =>
            simpa [headIs] using hequals.2
        exact ⟨_, .gnu hlookup harg hequals.1, rfl⟩
      · rw [if_neg hequals] at h
        by_cases he : e = []
        · subst he
          rw [append_nil] at hlookup ⊢
          rw [if_neg (not_not.mpr rfl)] at h
          have hnext := @takeNext_right descs fail next [] values d
            (fun calls used ↦ OptionWord descs next d.name calls used)
            fun arg used htakes ↦ .separate hlookup harg htakes
          rwa [h] at hnext
        · rw [if_pos he] at h
          cases h
          have hplain : d.gnul = false := by
            by_contra hon
            rw [Bool.not_eq_false] at hon
            have heq := (hgnul hon).resolve_left he
            rw [hon, heq] at hequals
            exact hequals rfl
          exact ⟨_, .attached hlookup harg hplain he, rfl⟩
    · rw [if_neg harg] at h
      cases h
      rw [Bool.not_eq_true] at harg
      rw [hflag harg, append_nil] at hlookup ⊢
      exact ⟨_, .flag hlookup harg, rfl⟩

theorem parseWord_unknown {values' : Values}
    (h : descs.parseWord fail str next values = .unknown values') :
    fail = false ∧ UnknownWord descs str ∧
      ∃ extra, Contributes descs str extra ∧ values' = descs.addValues values extra := by
  unfold OptDescs.parseWord at h
  cases hlookup : descs.lookup_opt str with
  | none =>
    have hshort := shortOptions_right descs fail (minus :: str) next str values
    rw [hlookup] at h
    dsimp only at h
    rw [h] at hshort
    obtain ⟨hfail, hword, hextra⟩ := hshort
    exact ⟨hfail, ⟨hlookup, hword⟩, hextra⟩
  | some d =>
    have hnext : descs.takeNext d next values ≠ .unknown values' := by
      unfold OptDescs.takeNext
      split
      · split <;> exact fun h ↦ nomatch h
      · exact fun h ↦ nomatch h
    rw [hlookup] at h
    dsimp only at h
    split at h
    · split at h
      · cases h
      · split at h
        · cases h
        · exact absurd h hnext
    · cases h

theorem TakesArg.used_le {arg : Option Bytes} (h : TakesArg d next arg used) :
    used ≤ next.length := by
  cases h with
  | separate _ => exact Nat.succ_le_succ (Nat.zero_le _)
  | missing _ _ => exact Nat.zero_le _

theorem ShortWord.used_le {calls : List Call} (h : ShortWord descs next o calls used) :
    used ≤ next.length := by
  induction h with
  | nil => exact Nat.zero_le _
  | flag _ _ _ ih => exact ih
  | attached _ _ _ => exact Nat.zero_le _
  | separate _ _ h => exact h.used_le

theorem OptionWord.used_le {calls : List Call}
    (h : OptionWord descs next str calls used) : used ≤ next.length := by
  cases h with
  | flag _ _ => exact Nat.zero_le _
  | gnu _ _ _ => exact Nat.zero_le _
  | attached _ _ _ _ => exact Nat.zero_le _
  | separate _ _ h => exact h.used_le
  | cluster _ h => exact h.used_le

/-! ## The positions -/

/-- The last loop puts what is left behind what was kept. -/
theorem copyRest_take {rest np : List Bytes} {cp : ℕ} (h : cp + rest.length ≤ np.length) :
    (copyRest np cp rest).1.take (copyRest np cp rest).2 = np.take cp ++ rest := by
  induction rest generalizing np cp with
  | nil => exact (append_nil _).symm
  | cons o rest ih =>
    rw [length_cons] at h
    have hlength : cp + 1 + rest.length ≤ (np.set cp o).length := by
      rw [length_set]
      omega
    have htake : (np.set cp o).take (cp + 1) = np.take cp ++ [o] := by
      rw [take_add_one, take_set_of_le (Nat.le_refl cp), List.getElem?_set_self (by omega)]
      rfl
    rw [copyRest, ih hlength, htake, append_assoc]
    rfl

theorem drop_keepWord (hcp : st.cp ≤ st.pp) (o : Bytes) (n : ℕ) :
    (st.keepWord opts o).np.drop (st.pp + 1 + n) = st.np.drop (st.pp + 1 + n) := by
  unfold ParseState.keepWord
  split
  · exact drop_set_of_lt (by omega)
  · rfl

/-! ## The loop -/

/-- What is kept before a position is reached. -/
def ParseState.front (opts : ParseOptions) (st : ParseState) : List Bytes :=
  if opts.extract then st.np.take st.cp else []

/-- Where the positions are before a turn of the loop. -/
structure ParseState.Valid (st : ParseState) : Prop where
  order : st.cp ≤ st.pp
  inside : st.pp ≤ st.np.length

/-- The parameters of a state, in which nothing more is removed. -/
theorem params_eq (h : st.Valid) :
    st.params opts = st.front opts ++ st.np.drop st.pp := by
  unfold ParseState.params ParseState.front
  cases opts.extract with
  | false => rfl
  | true =>
    apply copyRest_take
    rw [length_drop]
    have := h.order
    have := h.inside
    omega

theorem keepWord_valid (h : st.Valid) {o : Bytes}
    (ho : st.np.drop st.pp = o :: next) :
    ParseState.Valid { st.keepWord opts o with pp := st.pp + 1 } ∧
      (opts.del = true → opts.extract = true →
        ParseState.front opts { st.keepWord opts o with pp := st.pp + 1 } =
          st.front opts ++ [o]) ∧
      { st.keepWord opts o with pp := st.pp + 1 }.np.drop (st.pp + 1) = next ∧
      (st.keepWord opts o).values = st.values := by
  have hlength := congrArg List.length ho
  rw [length_drop, length_cons] at hlength
  have hnext : st.np.drop (st.pp + 1) = next := by
    rw [← tail_drop, ho, tail_cons]
  obtain ⟨horder, hinside⟩ := h
  have hless : st.pp + 1 ≤ st.np.length := by omega
  refine ⟨?_, ?_, ?_, ?_⟩
  · unfold ParseState.keepWord
    split
    · exact ⟨Nat.succ_le_succ horder, hless.trans_eq List.length_set.symm⟩
    · exact ⟨horder.trans (Nat.le_succ _), hless⟩
  · intro hdel hextract
    unfold ParseState.keepWord ParseState.front
    rw [hdel, hextract, Bool.and_true, if_pos rfl, if_pos rfl, if_pos rfl]
    rw [take_add_one, take_set_of_le (Nat.le_refl st.cp),
      List.getElem?_set_self (by omega)]
    rfl
  · exact (drop_keepWord horder o 0).trans hnext
  · unfold ParseState.keepWord
    split <;> rfl

theorem addValues_append (values : Values) (a b : List Call) :
    descs.addValues values (a ++ b) = descs.addValues (descs.addValues values a) b := foldl_append

/-- The loop reads the parameters as documented. -/
theorem parseLoop_reading {turns : ℕ} {st' : ParseState} (h : st.Valid)
    (hturns : st.np.length - st.pp < turns) (hloop : descs.parseLoop opts turns st = .ok st') :
    ∃ kept calls, Reading descs opts (st.np.drop st.pp) kept calls ∧
      st'.values = descs.addValues st.values calls ∧
      (opts.del = true → st'.params opts = st.front opts ++ kept) := by
  induction turns generalizing st with
  | zero => exact absurd hturns (Nat.not_lt_zero _)
  | succ turns ih =>
    rw [OptDescs.parseLoop] at hloop
    cases ho : st.np.drop st.pp with
    | nil =>
      rw [ho] at hloop
      cases hloop
      refine ⟨[], [], .done, rfl, fun _ ↦ ?_⟩
      rw [params_eq h, ho]
    | cons o next =>
      have hlength := congrArg List.length ho
      rw [length_drop, length_cons] at hlength
      -- what the loop does with a parameter that is kept
      have hskip {values : Values} (hextract : opts.extract = true)
          (hloop : descs.parseLoop opts turns
            { ParseState.keepWord opts { st with values := values } o with pp := st.pp + 1 } =
              .ok st') :
          ∃ kept calls, Reading descs opts next kept calls ∧
            st'.values = descs.addValues values calls ∧
            (opts.del = true → st'.params opts = st.front opts ++ o :: kept) := by
        obtain ⟨hvalid, hfront, hnext, hvalues⟩ :=
          @keepWord_valid opts next { st with values := values } ⟨h.order, h.inside⟩ o ho
        have hless : (ParseState.keepWord opts { st with values := values } o).np.length =
            st.np.length := by
          unfold ParseState.keepWord
          split
          · exact length_set
          · rfl
        obtain ⟨kept, calls, hread, hstored, hparams⟩ := ih hvalid (by
          change _ - (st.pp + 1) < turns
          rw [hless]
          omega) hloop
        refine ⟨kept, calls, ?_, hstored.trans (by rw [hvalues]), fun hdel ↦ ?_⟩
        · exact hnext ▸ hread
        · rw [hparams hdel, hfront hdel hextract, append_assoc]
          rfl
      have hstop {values : Values} (hextract : opts.extract = false) :
          ParseState.params opts { st with values := values } = st.front opts ++ o :: next := by
        rw [@params_eq opts { st with values := values } ⟨h.order, h.inside⟩]
        unfold ParseState.front
        rw [hextract]
        exact ho
      rw [ho] at hloop
      dsimp only at hloop
      cases hoperand : isOperand opts.gnu o with
      | true =>
        rw [hoperand, if_pos rfl] at hloop
        cases hextract : opts.extract with
        | true =>
          rw [hextract, if_pos rfl] at hloop
          obtain ⟨kept, calls, hread, hstored, hparams⟩ := @hskip st.values hextract hloop
          exact ⟨_, calls, .operand hextract hoperand hread, hstored, hparams⟩
        | false =>
          rw [hextract, if_neg Bool.false_ne_true] at hloop
          rw [← Except.ok.inj hloop]
          exact ⟨_, [], .operandStop hextract hoperand, rfl, fun _ ↦ @hstop st.values hextract⟩
      | false =>
        rw [hoperand, if_neg Bool.false_ne_true] at hloop
        cases hend : isTerminator o with
        | true =>
          rw [hend, if_pos rfl] at hloop
          cases hloop
          obtain ⟨hvalid, hfront, hnext, hvalues⟩ := @keepWord_valid opts next st h o ho
          cases hextract : opts.extract with
          | true =>
            refine ⟨_, [], .terminator hextract hoperand hend, hvalues, fun hdel ↦ ?_⟩
            rw [params_eq hvalid, hfront hdel hextract, hnext, append_assoc]
            rfl
          | false =>
            refine ⟨_, [], .terminatorGone hextract hoperand hend, hvalues, fun _ ↦ ?_⟩
            rw [params_eq hvalid, hnext]
            unfold ParseState.front
            rw [hextract]
            rfl
        | false =>
          rw [hend, if_neg Bool.false_ne_true] at hloop
          cases hword : descs.parseWord opts.fail o.tail next st.values with
          | failed e =>
            rw [hword] at hloop
            cases hloop
          | unknown values =>
            rw [hword] at hloop
            dsimp only at hloop
            obtain ⟨hfail, hunknown, extra, hextra, rfl⟩ := parseWord_unknown hword
            cases hextract : opts.extract with
            | true =>
              rw [hextract, if_pos rfl] at hloop
              obtain ⟨kept, calls, hread, hstored, hparams⟩ := hskip hextract hloop
              refine ⟨_, extra ++ calls,
                .unknown hextract hfail hoperand hend hunknown hextra hread, ?_, hparams⟩
              rw [hstored, addValues_append]
            | false =>
              rw [hextract, if_neg Bool.false_ne_true] at hloop
              cases hloop
              exact ⟨_, extra, .unknownStop hextract hfail hoperand hend hunknown hextra, rfl,
                fun _ ↦ hstop hextract⟩
          | taken values used =>
            rw [hword] at hloop
            obtain ⟨found, hfound, rfl⟩ := parseWord_taken hword
            have hused : used ≤ next.length := hfound.used_le
            have hrest : st.np.drop (st.pp + 1 + used) = next.drop used := by
              rw [← drop_drop, ← tail_drop, ho, tail_cons]
            have hvalid : ParseState.Valid { st with
                values := descs.addValues st.values found
                pp := st.pp + 1 + used } := by
              refine ⟨?_, ?_⟩
              · exact h.order.trans (by rw [Nat.add_assoc]; exact Nat.le_add_right _ _)
              · change st.pp + 1 + used ≤ st.np.length
                omega
            have hless : st.np.length - (st.pp + 1 + used) < turns := by omega
            obtain ⟨kept, calls, hread, hstored, hparams⟩ := ih hvalid hless hloop
            refine ⟨kept, found ++ calls, .option hoperand hend hfound (hrest ▸ hread), ?_, hparams⟩
            rw [hstored, addValues_append]

/-! ## What a reading says -/

variable {params kept : List Bytes} {calls : List Call} {vals : List Zoptval} {call : Call}

theorem Reading.sublist (h : Reading descs opts params kept calls) : kept.Sublist params := by
  induction h with
  | done => exact .refl []
  | operandStop _ _ => exact .refl _
  | operand _ _ _ ih => exact ih.cons_cons _
  | terminatorGone _ _ _ => exact sublist_cons_self _ _
  | terminator _ _ _ => exact .refl _
  | unknownStop _ _ _ _ _ _ => exact .refl _
  | unknown _ _ _ _ _ _ _ ih => exact ih.cons_cons _
  | option _ _ _ _ ih => exact (ih.trans (drop_sublist _ _)).cons _

theorem ShortWord.described (h : ShortWord descs next o calls used) :
    ∀ call ∈ calls, call.1 ∈ descs.descs := by
  have hone {c : UInt8} {d : Zoptdesc} {arg : Option Bytes} (hd : descs.sopts c = some d) :
      ∀ call ∈ [(d, arg)], call.1 ∈ descs.descs :=
    List.forall_mem_singleton.mpr (mem_of_find?_eq_some hd)
  induction h with
  | nil => exact fun _ h ↦ absurd h not_mem_nil
  | flag hd _ _ ih => exact List.forall_mem_cons.mpr ⟨mem_of_find?_eq_some hd, ih⟩
  | attached hd _ _ => exact hone hd
  | separate hd _ _ => exact hone hd

theorem OptionWord.described (h : OptionWord descs next str calls used) :
    ∀ call ∈ calls, call.1 ∈ descs.descs := by
  have hone {str : Bytes} {d : Zoptdesc} {arg : Option Bytes} (hd : descs.lookup_opt str = some d) :
      ∀ call ∈ [(d, arg)], call.1 ∈ descs.descs :=
    List.forall_mem_singleton.mpr (mem_of_find?_eq_some hd)
  cases h with
  | flag hd _ => exact hone hd
  | gnu hd _ _ => exact hone hd
  | attached hd _ _ _ => exact hone hd
  | separate hd _ _ => exact hone hd
  | cluster _ h => exact h.described

theorem Reading.described (h : Reading descs opts params kept calls) :
    ∀ call ∈ calls, call.1 ∈ descs.descs := by
  induction h with
  | done => exact fun _ h ↦ absurd h not_mem_nil
  | operandStop _ _ => exact fun _ h ↦ absurd h not_mem_nil
  | operand _ _ _ ih => exact ih
  | terminatorGone _ _ _ => exact fun _ h ↦ absurd h not_mem_nil
  | terminator _ _ _ => exact fun _ h ↦ absurd h not_mem_nil
  | unknownStop _ _ _ _ _ hextra => exact hextra.described
  | unknown _ _ _ _ _ hextra _ ih => exact List.forall_mem_append.mpr ⟨hextra.described, ih⟩
  | option _ _ hword _ ih => exact List.forall_mem_append.mpr ⟨hword.described, ih⟩

/-! ## The values -/

theorem map_opt_desc_mem {turns : ℕ} {cyc : List Bytes} {m : Zoptdesc} (hd : d ∈ descs.descs)
    (h : descs.map_opt_desc turns cyc d = some m) : m ∈ descs.descs := by
  induction turns generalizing cyc d with
  | zero => cases h
  | succ turns ih =>
    rw [OptDescs.map_opt_desc] at h
    cases hmap : (if d.map then d.arr.bind descs.get_opt_desc else none) with
    | none =>
      rw [hmap] at h
      cases h
      exact hd
    | some map =>
      have hmem : map ∈ descs.descs := by
        cases hon : d.map with
        | false =>
          rw [hon, if_neg Bool.false_ne_true] at hmap
          cases hmap
        | true =>
          rw [hon, if_pos rfl] at hmap
          obtain ⟨arr, -, hget⟩ := Option.bind_eq_some_iff.mp hmap
          exact mem_of_find?_eq_some hget
      rw [hmap] at h
      dsimp only at h
      split at h
      · cases h
        exact hd
      · split at h
        · cases h
        · exact ih hmem h

theorem target_mem (hd : d ∈ descs.descs) : descs.target d ∈ descs.descs := by
  unfold OptDescs.target
  cases h : descs.map_opt_desc _ [] d with
  | none => exact hd
  | some m => exact map_opt_desc_mem hd h

theorem name_inj {d d' : Zoptdesc} (hd : d ∈ descs.descs) (hd' : d' ∈ descs.descs) :
    d.name = d'.name ↔ d = d' :=
  ⟨fun h ↦ inj_on_of_nodup_map descs.nodup hd hd' h, fun h ↦ congrArg _ h⟩

/-- Replacing the value of a description leaves those of the others. -/
theorem filter_replace {v : Zoptval} (hvals : ∀ w ∈ vals, w.desc ∈ descs.descs)
    (hv : v.desc ∈ descs.descs) (d : Zoptdesc) :
    (vals.map fun w ↦ if w.desc.name = v.desc.name then v else w).filter (fun w ↦ w.desc = d) =
      if v.desc = d then (vals.filter fun w ↦ w.desc = d).map fun _ ↦ v
      else vals.filter fun w ↦ w.desc = d := by
  induction vals with
  | nil => exact (ite_self _).symm
  | cons w vals ih =>
    rw [forall_mem_cons] at hvals
    have hrest := ih hvals.2
    have hname := name_inj hvals.1 hv
    rw [map_cons]
    by_cases hsame : w.desc = v.desc
    · rw [if_pos (hname.mpr hsame)]
      by_cases hvd : v.desc = d
      · rw [if_pos hvd] at hrest ⊢
        rw [filter_cons_of_pos (by simpa using hvd), hrest,
          filter_cons_of_pos (by simpa using hsame.trans hvd), map_cons]
      · have hwd : ¬ w.desc = d := fun h ↦ hvd (hsame.symm.trans h)
        rw [filter_cons_of_neg (by simpa using hvd), hrest,
          filter_cons_of_neg (by simpa using hwd)]
    · rw [if_neg (mt hname.mp hsame)]
      by_cases hwd : w.desc = d
      · have hvd : ¬ v.desc = d := fun h ↦ hsame (hwd.trans h.symm)
        rw [if_neg hvd] at hrest ⊢
        rw [filter_cons_of_pos (by simpa using hwd), hrest,
          filter_cons_of_pos (by simpa using hwd)]
      · rw [filter_cons_of_neg (by simpa using hwd), hrest,
          filter_cons_of_neg (by simpa using hwd)]

/-- No values, and arrays without elements. -/
def noValues : Values := ⟨[], fun _ ↦ 0⟩

theorem addValues_concat (values : Values) (calls : List Call) (call : Call) :
    descs.addValues values (calls ++ [call]) =
      descs.add_opt_val (descs.addValues values calls) call := by
  rw [addValues_append]
  rfl

theorem stored_described (hcalls : ∀ call ∈ calls, call.1 ∈ descs.descs) :
    ∀ v ∈ (descs.addValues noValues calls).vals, v.desc ∈ descs.descs := by
  induction calls using List.reverseRecOn with
  | nil => exact fun _ h ↦ absurd h not_mem_nil
  | append_singleton calls call ih =>
    rw [forall_mem_append, forall_mem_singleton] at hcalls
    have hold := ih hcalls.1
    have hnew : (descs.value call).desc ∈ descs.descs := target_mem hcalls.2
    rw [addValues_concat]
    unfold OptDescs.add_opt_val
    dsimp only
    split
    · intro v hv
      obtain ⟨w, hw, rfl⟩ := List.mem_map.mp hv
      split
      · exact hnew
      · exact hold w hw
    · exact List.forall_mem_append.mpr ⟨hold, List.forall_mem_singleton.mpr hnew⟩

theorem stored_addValues (hcalls : ∀ call ∈ calls, call.1 ∈ descs.descs) :
    Stored descs calls (descs.addValues noValues calls).vals := by
  induction calls using List.reverseRecOn with
  | nil =>
    intro d _
    unfold storedFor
    split <;> rfl
  | append_singleton calls call ih =>
    rw [forall_mem_append, forall_mem_singleton] at hcalls
    have hold := ih hcalls.1
    have hvals := stored_described hcalls.1
    have hnew : (descs.value call).desc ∈ descs.descs := target_mem hcalls.2
    intro d hd
    have hstored := hold d hd
    unfold storedFor at hstored ⊢
    rw [addValues_concat, filter_append]
    generalize descs.addValues noValues calls = values at hstored hvals
    generalize hvalues : (calls.filter _).map descs.value = old
      at hstored
    unfold OptDescs.add_opt_val
    dsimp only
    by_cases hcall : descs.target call.1 = d
    · have hdesc : (descs.value call).desc = d := hcall
      have hone : ([call].filter fun call ↦ descs.target call.1 = d) = [call] :=
        filter_cons_of_pos (by simpa using hcall)
      have hnewOne : ([descs.value call].filter fun v ↦ v.desc = d) = [descs.value call] :=
        filter_cons_of_pos (by simpa using hdesc)
      rw [hone, map_append, hvalues]
      cases hmult : d.mult with
      | true =>
        have hon : (descs.value call).desc.mult = true :=
          (congrArg Zoptdesc.mult hdesc).trans hmult
        rw [hmult, if_pos rfl] at hstored
        rw [if_pos rfl, if_neg fun h ↦ absurd (hon.symm.trans h.1) (by decide), filter_append,
          hnewOne, hstored]
        rfl
      | false =>
        have hoff : (descs.value call).desc.mult = false :=
          (congrArg Zoptdesc.mult hdesc).trans hmult
        rw [hmult, if_neg Bool.false_ne_true] at hstored
        rw [if_neg Bool.false_ne_true, map_singleton, List.getLast?_concat]
        by_cases hany : values.vals.any fun w ↦ w.desc.name = (descs.value call).desc.name
        · obtain ⟨w, hw, hname⟩ := List.any_eq_true.mp hany
          have hwd : w.desc = d :=
            ((name_inj (hvals w hw) hnew).mp (of_decide_eq_true hname)).trans hcall
          have hmem : w ∈ values.vals.filter fun v ↦ v.desc = d :=
            List.mem_filter.mpr ⟨hw, decide_eq_true hwd⟩
          obtain ⟨x, hx⟩ : ∃ x, old.getLast? = some x := by
            rw [hstored] at hmem
            exact ⟨w, Option.mem_toList.mp hmem⟩
          rw [if_pos ⟨hoff, hany⟩, filter_replace hvals hnew d, if_pos hdesc, hstored, hx]
          rfl
        · have hnone : (values.vals.filter fun v ↦ v.desc = d) = [] := by
            rw [filter_eq_nil_iff]
            intro w hw hwd
            refine hany (List.any_eq_true.mpr ⟨w, hw, decide_eq_true ?_⟩)
            exact congrArg Zoptdesc.name ((of_decide_eq_true hwd).trans hcall.symm)
          rw [if_neg fun h ↦ hany h.2, filter_append, hnewOne, hnone]
          rfl
    · have hdesc : ¬ (descs.value call).desc = d := hcall
      have hone : ([call].filter fun call ↦ descs.target call.1 = d) = [] :=
        filter_cons_of_neg (by simpa using hcall)
      have hnewOne : ([descs.value call].filter fun v ↦ v.desc = d) = [] :=
        filter_cons_of_neg (by simpa using hdesc)
      rw [hone, append_nil, hvalues, ← hstored]
      split
      · rw [filter_replace hvals hnew d, if_neg hdesc]
      · rw [filter_append, hnewOne, append_nil]

end Bsh.Zutil

/-!
# What `zparseopts` assigns

An option that is found adds elements to its array, so the array is set even with `-K` and with
`-M`; the same values go into the associative array under the name of the option.
-/

namespace Bsh.Zutil

open Bsh.Library Bsh.Shell List

variable {descs : OptDescs} {opts : ParseOptions} {values : Values} {d : Zoptdesc}
  {calls : List Call} {call : Call} {vals : List Zoptval} {a : Bytes}

/-! ## The number of elements -/

theorem num_le_add (values : Values) (call : Call) (a : Bytes) :
    values.num a ≤ (descs.add_opt_val values call).num a := by
  unfold OptDescs.add_opt_val
  dsimp only
  cases (descs.value call).desc.arr with
  | none => exact le_rfl
  | some b =>
    dsimp only
    by_cases hb : a = b
    · rw [hb, Function.update_self]
      exact Nat.le_add_right _ _
    · rw [Function.update_of_ne hb]

theorem num_add_pos (ha : (descs.target call.1).arr = some a) :
    0 < (descs.add_opt_val values call).num a := by
  have harr : (descs.value call).desc.arr = some a := ha
  unfold OptDescs.add_opt_val
  dsimp only
  rw [harr]
  dsimp only
  rw [Function.update_self]
  split
  · exact Nat.succ_pos _
  · exact Nat.succ_pos _

theorem num_addValues_pos (hcall : call ∈ calls) (ha : (descs.target call.1).arr = some a) :
    0 < (descs.addValues values calls).num a := by
  induction calls using List.reverseRecOn with
  | nil => exact absurd hcall not_mem_nil
  | append_singleton calls last ih =>
    rw [addValues_concat]
    rcases List.mem_append.mp hcall with hold | hlast
    · exact (ih hold).trans_le (num_le_add _ _ _)
    · rw [mem_singleton] at hlast
      subst hlast
      exact num_add_pos ha

/-! ## The arrays -/

theorem setArrays_map (arrays : Bytes → List Bytes) (keys : List Bytes) (f : Bytes → List Bytes)
    (a : Bytes) :
    setArrays arrays (keys.map fun k ↦ (k, f k)) a = if a ∈ keys then f a else arrays a := by
  induction keys generalizing arrays with
  | nil => exact (if_neg not_mem_nil).symm
  | cons k keys ih =>
    calc setArrays arrays ((k :: keys).map fun k ↦ (k, f k)) a
        = setArrays (Function.update arrays k (f k)) (keys.map fun k ↦ (k, f k)) a := rfl
      _ = if a ∈ keys then f a else Function.update arrays k (f k) a := ih _
      _ = if a ∈ k :: keys then f a else arrays a := by
        by_cases hkeys : a ∈ keys
        · rw [if_pos hkeys, if_pos (mem_cons_of_mem k hkeys)]
        · rw [if_neg hkeys]
          by_cases hk : a = k
          · rw [hk, Function.update_self, if_pos mem_cons_self]
          · rw [Function.update_of_ne hk, if_neg (not_mem_cons_of_ne_of_not_mem hk hkeys)]

/-- The array of an option that is found holds its values. -/
theorem setArrays_arrays {arrs : List Bytes} (arrays : Bytes → List Bytes) (hmem : a ∈ arrs)
    (hnum : 0 < values.num a) :
    setArrays arrays (descs.arrays opts arrs values) a =
      (values.vals.filter fun v ↦ v.desc.arr = some a).flatMap Zoptval.elements := by
  unfold OptDescs.arrays
  rw [setArrays_map, if_pos]
  apply List.mem_filter.mpr
  have hset : descs.isArray opts values a = true := by
    unfold OptDescs.isArray
    rw [decide_eq_false hnum.ne', Bool.and_false, Bool.false_and, Bool.false_and]
    rfl
  refine ⟨hmem, ?_⟩
  rw [hset, decide_eq_true hnum.ne', Bool.or_true]
  rfl

/-! ## The associative array -/

theorem stored_mem (hcalls : ∀ call ∈ calls, call.1 ∈ descs.descs)
    (hstored : Stored descs calls vals) (hcall : call ∈ calls) :
    ∃ v ∈ vals, v.desc = descs.target call.1 := by
  have hfor := hstored _ (target_mem (hcalls call hcall))
  have hvalue : descs.value call ∈
      (calls.filter fun c ↦ descs.target c.1 = descs.target call.1).map descs.value :=
    mem_map_of_mem (List.mem_filter.mpr ⟨hcall, decide_eq_true rfl⟩)
  have hne : storedFor descs calls (descs.target call.1) ≠ [] := by
    unfold storedFor
    dsimp only
    split
    · exact ne_nil_of_mem hvalue
    · rw [List.getLast?_eq_some_getLast (ne_nil_of_mem hvalue)]
      exact cons_ne_nil _ _
  rw [← hfor] at hne
  obtain ⟨v, hv⟩ := exists_mem_of_ne_nil _ hne
  rw [mem_filter, decide_eq_true_iff] at hv
  exact ⟨v, hv⟩

theorem assocPairs_mem (hcalls : ∀ call ∈ calls, call.1 ∈ descs.descs)
    (hvals : ∀ v ∈ values.vals, v.desc ∈ descs.descs)
    (hstored : Stored descs calls values.vals) (hcall : call ∈ calls) :
    (minus :: (descs.target call.1).name,
      (values.vals.filter fun v ↦ v.desc = descs.target call.1).flatMap fun v ↦ v.arg.getD []) ∈
        descs.assocPairs values := by
  have htarget := target_mem (hcalls call hcall)
  have hfilter : (values.vals.filter fun v ↦ v.desc.name = (descs.target call.1).name) =
      values.vals.filter fun v ↦ v.desc = descs.target call.1 :=
    filter_congr fun v hv ↦ decide_eq_decide.mpr (name_inj (hvals v hv) htarget)
  obtain ⟨v, hv, hdesc⟩ := stored_mem hcalls hstored hcall
  apply List.mem_map.mpr
  refine ⟨descs.target call.1, List.mem_filter.mpr ⟨htarget, ?_⟩, ?_⟩
  · exact List.any_eq_true.mpr ⟨v, hv, decide_eq_true (congrArg Zoptdesc.name hdesc)⟩
  · rw [hfilter]

/-! ## The command -/

/-- Every parameter is kept, is an option, or is the argument of one. -/
inductive Extracts (descs : OptDescs) : List Bytes → List Bytes → List Call → Prop where
  | done : Extracts descs [] [] []
  | keep {o : Bytes} {rest kept : List Bytes} {calls : List Call}
      (h : Extracts descs rest kept calls) : Extracts descs (o :: rest) (o :: kept) calls
  | consume {str : Bytes} {rest kept : List Bytes} {found calls : List Call} {used : ℕ}
      (hword : OptionWord descs rest str found used)
      (h : Extracts descs (rest.drop used) kept calls) :
      Extracts descs ((minus :: str) :: rest) kept (found ++ calls)

/-- The description `a`, with the array `opts`. -/
def flagA : OptDescs where
  descs := [⟨[char 'a'], false, false, false, false, false, false, false, some (Bytes.ascii "opts")⟩]
  nodup := nodup_singleton _
  gnul_arg := List.forall_mem_singleton.mpr fun h ↦ absurd h Bool.false_ne_true

theorem flagA_minus (found : List Call) (used : ℕ) : ¬ OptionWord flagA [] [minus] found used := by
  intro h
  generalize hstr : [minus] = str at h
  have hlookup : flagA.lookup_opt [minus] = none := rfl
  have hshort : flagA.sopts minus = none := rfl
  rw [hstr] at hlookup
  cases h with
  | flag hd _ => exact nomatch hd.symm.trans hlookup
  | gnu hd _ _ => exact nomatch hd.symm.trans hlookup
  | attached hd _ _ _ => exact nomatch hd.symm.trans hlookup
  | separate hd _ _ => exact nomatch hd.symm.trans hlookup
  | cluster _ hcluster =>
    subst hstr
    cases hcluster with
    | flag hd _ _ => exact nomatch hd.symm.trans hshort
    | attached hd _ _ => exact nomatch hd.symm.trans hshort
    | separate hd _ _ => exact nomatch hd.symm.trans hshort

end Bsh.Zutil
