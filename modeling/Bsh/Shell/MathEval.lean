import Bsh.Shell.MathParse

/-!
# The value of a printed expression

`mathevall` on the text of an expression gives the value of the expression, for both precedence
tables.  An operand in front of anything that binds looser is read as a whole, by every loop whose
bound admits the operand's operators.
-/

namespace Bsh.Shell

open Bsh.Library Bytes List

/-! ## Reading an operand -/

/-- The state of the evaluation between two tokens. -/
structure At (unary : Bool) (stack : List Zlong) (s : MathState) : Prop where
  unary_eq : s.unary = unary
  stack_eq : s.stack = stack
  noeval_eq : s.noeval = 0
  errflag_eq : s.errflag = none

/-- The evaluation has stopped at a division by zero; what has been read may be the end of an
operand in parentheses, which the loop then goes on to look behind. -/
structure Stopped (r : MathState) : Prop where
  errflag_eq : r.errflag = some .divisionByZero
  closing : r.mtok = .outpar →
    r.unary = false ∧ ∃ qs, AfterOperand qs ∧ Layout qs r.ptr

/-- From the state `s`, the loop takes an operand of value `value` that stands in front of `qs`. -/
def Reads (env : MathEnv) (qs : List MathPiece) (pc : ℕ) (s : MathState) (stack : List Zlong) :
    Option ℤ → Prop
  | some v => ∃ s' b, Layout qs s'.ptr ∧ At false (b :: stack) s' ∧ b.toInt = v ∧
    ∀ r, Loops env pc (nextToken env s') r → Loops env pc (nextToken env s) r
  | none => ∃ r, Stopped r ∧ Loops env pc (nextToken env s) r

/-- Any loop with a bound from `bound` on takes the operand of value `value` in front of `qs`. -/
structure TakesOperand (env : MathEnv) (qs : List MathPiece) (bound : ℕ) (s : MathState)
    (stack : List Zlong) (value : Option ℤ) : Prop where
  starts : ∃ s', lex env s = .ok s' ∧ s'.mtok ≠ .eoi
  reads : ∀ pc ≥ bound, Reads env qs pc s stack value

/-- A text is read as an operand of value `value` wherever what follows binds looser than
`tight`. -/
def Readable (env : MathEnv) (text : List MathPiece) (bound tight depth : ℕ) (value : Option ℤ) :
    Prop :=
  ∀ qs s stack, AfterOperand qs → tight < nextPrec env qs → Layout (text ++ qs) s.ptr →
    At true stack s → stack.length + depth ≤ stackSize → TakesOperand env qs bound s stack value

variable {bound depth : ℕ} {piece : MathPiece} {pieces : List MathPiece} {t : Bytes}
  {value : Option ℤ} (env : MathEnv) (e : MathExpr)

theorem Readable.mono {env : MathEnv} {text : List MathPiece} {tight : ℕ} (h : Readable env text bound tight depth value) {bound' tight' : ℕ}
    (hbound : bound ≤ bound') (htight : tight ≤ tight') :
    Readable env text bound' tight' depth value := by
  intro qs s stack hqs hprec hlayout hat hroom
  obtain ⟨hstarts, hreads⟩ := h qs s stack hqs (htight.trans_lt hprec) hlayout hat hroom
  exact ⟨hstarts, fun pc hpc ↦ hreads pc (hbound.trans hpc)⟩

theorem takes_number {env : MathEnv} {qs : List MathPiece} {s : MathState} {stack : List Zlong}
    {value : Zlong} (hqs : Layout qs t)
    (hlex : zzlex env s.unary s.ptr = number value t) (hat : At true stack s)
    (hroom : stack.length < stackSize) (bound : ℕ) :
    TakesOperand env qs bound s stack (some value.toInt) := by
  let s₁ : MathState := { s with ptr := t, mtok := .num, yyval := value, unary := false }
  have hpush : push value s₁ = { s₁ with stack := value :: s.stack } :=
    push_of_lt (by rw [← hat.stack_eq] at hroom; exact hroom)
  have hstack : value :: s.stack = value :: stack := by rw [hat.stack_eq]
  refine ⟨lex_number hlex, fun pc _ ↦ ⟨{ s₁ with stack := value :: s.stack }, value, hqs,
    ⟨rfl, hstack, hat.noeval_eq, hat.errflag_eq⟩, rfl, fun r hr ↦ ?_⟩⟩
  rw [nextToken_number hlex hat.unary_eq]
  refine loops_num rfl hat.errflag_eq ?_
  rw [hpush]
  exact hr

theorem toInt_ofNat_const (n : Fin (2 ^ 63)) : (BitVec.ofNat 64 n.val).toInt = n.val := by
  rw [BitVec.toInt_eq_toNat_bmod, BitVec.toNat_ofNat, Nat.mod_eq_of_lt (by omega)]
  exact Int.bmod_eq_of_le_mul_two (by omega) (by omega)

theorem readable_const (n : Fin (2 ^ 63)) :
    Readable env [.const n] 0 0 1 (some (n.val : ℤ)) := by
  intro qs s stack hqs _ hlayout hat hroom
  obtain ⟨rest, hrest, -, hlex⟩ := layout_cons hlayout env s.unary
  rw [← toInt_ofNat_const n]
  refine takes_number hrest ?_ hat (by omega) 0
  rw [hlex]
  exact zzlex_const env s.unary n.isLt (layout_head_operator hrest hqs)

/-! ## Stopped evaluations -/

theorem stopped_next (pc : ℕ) {r : MathState} (h : Stopped r)
    (hclosing : r.mtok = .outpar) :
    ∃ r', Stopped r' ∧ Loops env pc (nextToken env r) r' := by
  obtain ⟨hunary, qs, hqs, hlayout⟩ := h.closing hclosing
  obtain ⟨tok, t, unary, -, houtpar, hnext⟩ := nextToken_after env hlayout hqs
  refine ⟨{ r with ptr := t, mtok := tok, unary := unary }, ⟨h.errflag_eq, houtpar⟩, ?_⟩
  rw [hnext r rfl hunary]
  refine loops_stop (Or.inr ?_)
  rw [h.errflag_eq]
  rfl

/-! ## Parentheses -/

theorem topPrec_lt_outpar : env.topPrec < env.prec .outpar := by
  unfold MathEnv.topPrec MathEnv.prec
  cases env.cPrecedences <;> decide

/-- A text in parentheses is read before any operator. -/
theorem Readable.parenthesize {env : MathEnv} {text : List MathPiece} {tight : ℕ} (h : Readable env text bound tight depth value)
    (hbound : bound ≤ env.topPrec) (htight : tight < env.prec .outpar) :
    Readable env (.opening :: (text ++ [.closing])) 1 0 depth value := by
  intro qs s stack hqs _ hlayout hat hroom
  have happend : (.opening :: (text ++ [.closing])) ++ qs = .opening :: (text ++ .closing :: qs) :=
    by simp
  rw [happend] at hlayout
  obtain ⟨rest, hrest, -, hlex⟩ := layout_cons hlayout env s.unary
  have hopening : zzlex env s.unary s.ptr = operator .inpar rest := hlex.trans rfl
  let s₁ : MathState := { s with ptr := rest, mtok := .inpar, unary := true }
  have hnext : nextToken env s = .ok s₁ := nextToken_operator hopening hat.unary_eq
  have hat₁ : At true stack s₁ := ⟨rfl, hat.stack_eq, hat.noeval_eq, hat.errflag_eq⟩
  obtain ⟨⟨s₂, hlex₂, htok₂⟩, hreads⟩ :=
    h (.closing :: qs) s₁ stack hqs htight hrest hat₁ hroom
  have hinside := hreads env.topPrec hbound
  refine ⟨lex_operator hopening (by rintro ⟨⟩), fun pc hpc ↦ ?_⟩
  cases value with
  | some v =>
    obtain ⟨s₃, b, hlayout₃, hat₃, hb, hloops⟩ := hinside
    obtain ⟨t, ht, -, hclosing⟩ := layout_cons hlayout₃ env false
    let s₄ : MathState := { s₃ with ptr := t, mtok := .outpar, unary := false }
    have hnext₃ : nextToken env s₃ = .ok s₄ := by
      refine nextToken_operator ?_ hat₃.unary_eq
      rw [hat₃.unary_eq, hclosing]
      rfl
    have hstop : Loops env env.topPrec (nextToken env s₃) s₄ := by
      rw [hnext₃]
      exact loops_stop (Or.inl (topPrec_lt_outpar env))
    have hparse := parses_of_loops hat₁.errflag_eq hlex₂ htok₂ (hloops s₄ hstop)
    refine ⟨s₄, b, ht, ⟨rfl, hat₃.stack_eq, hat₃.noeval_eq, hat₃.errflag_eq⟩, hb,
      fun r hr ↦ ?_⟩
    rw [hnext]
    exact (loops_inpar rfl hpc hat₁.errflag_eq hparse).1 rfl hr
  | none =>
    obtain ⟨r, hstopped, hloops⟩ := hinside
    have hparse := parses_of_loops hat₁.errflag_eq hlex₂ htok₂ hloops
    have hinpar (r' : MathState) := loops_inpar (r := r') rfl hpc hat₁.errflag_eq hparse
    rw [Reads, hnext]
    by_cases hclosing : r.mtok = .outpar
    · obtain ⟨r', hstopped', hloops'⟩ := stopped_next env pc hstopped hclosing
      exact ⟨r', hstopped', (hinpar r').1 hclosing hloops'⟩
    · refine ⟨r.zerr .closingExpected, ⟨?_, fun h ↦ absurd h hclosing⟩, (hinpar r).2 hclosing⟩
      change r.errflag.or _ = _
      rw [hstopped.errflag_eq]
      rfl

/-! ## Operators -/

section Operator

variable {env : MathEnv} {qs : List MathPiece} {pc bound : ℕ} {s : MathState}
  {stack : List Zlong}

/-- The loop at an operator whose operand on the right is stopped. -/
theorem loops_stopped (htok : isOperator s.mtok = true) (hassoc : s.mtok.type.assoc ≠ .bool)
    (hbound : bound = env.prec s.mtok - if s.mtok.type.assoc = .rl then 0 else 1)
    (hat : At true stack s) (hpc : env.prec s.mtok ≤ pc)
    (h : TakesOperand env qs bound s stack none) :
    ∃ r, Stopped r ∧ Loops env pc (.ok s) r := by
  obtain ⟨⟨s', hlex, heoi⟩, hreads⟩ := h
  obtain ⟨r, hstopped, hloops⟩ := hreads bound le_rfl
  have hparse := parses_of_loops hat.errflag_eq hlex heoi hloops
  have herr : r.errflag.isSome = true := by rw [hstopped.errflag_eq]; rfl
  rw [hbound] at hparse
  refine ⟨{ r with noeval := s.noeval }, ⟨hstopped.errflag_eq, hstopped.closing⟩, ?_⟩
  exact loops_operator htok hpc hat.errflag_eq hassoc hparse (op_stopped _ herr)
    (loops_stop (Or.inr herr))

/-- The loop at an operator reads the operand on the right and the token behind it, and applies the
operator. -/
theorem loops_apply {v : ℤ} (htok : isOperator s.mtok = true)
    (hassoc : s.mtok.type.assoc ≠ .bool)
    (hbound : bound = env.prec s.mtok - if s.mtok.type.assoc = .rl then 0 else 1)
    (hat : At true stack s) (hpc : env.prec s.mtok ≤ pc) (hqs : AfterOperand qs)
    (hprec : bound < nextPrec env qs) (h : TakesOperand env qs bound s stack (some v)) :
    ∃ s₁ b tok t unary, Layout qs s₁.ptr ∧ At false (b :: stack) s₁ ∧ b.toInt = v ∧
      (tok = .outpar → unary = false ∧ ∃ qs', AfterOperand qs' ∧ Layout qs' t) ∧
      (∀ stack', nextToken env { s₁ with stack := stack' } =
        .ok { s₁ with stack := stack', ptr := t, mtok := tok, unary := unary }) ∧
      ∀ s₂ r, op s.mtok { s₁ with ptr := t, mtok := tok, unary := unary } = .ok s₂ →
        Loops env pc (.ok s₂) r → Loops env pc (.ok s) r := by
  obtain ⟨⟨s', hlex, heoi⟩, hreads⟩ := h
  obtain ⟨s₁, b, hlayout, hat₁, hb, hloops⟩ := hreads bound le_rfl
  obtain ⟨tok, t, unary, htokprec, houtpar, hafter⟩ := nextToken_after env hlayout hqs
  refine ⟨s₁, b, tok, t, unary, hlayout, hat₁, hb, houtpar,
    fun stack' ↦ hafter _ rfl hat₁.unary_eq, fun s₂ r hop hr ↦ ?_⟩
  have hstop : Loops env bound (nextToken env s₁)
      { s₁ with ptr := t, mtok := tok, unary := unary } := by
    rw [hafter s₁ rfl hat₁.unary_eq]
    exact loops_stop (Or.inl (htokprec ▸ hprec))
  have hparse := parses_of_loops hat.errflag_eq hlex heoi (hloops _ hstop)
  rw [hbound] at hparse
  refine loops_operator htok hpc hat.errflag_eq hassoc hparse ?_ hr
  rw [hat.noeval_eq, ← hop, ← hat₁.noeval_eq]

end Operator

/-! ## Prefix operators -/

theorem operand_head_bytes
    (h : Layout (piece :: pieces) t) (hpiece : StartsOperand piece) :
    ∀ c, t.head? = some c → operandByte c = true := by
  obtain ⟨c, tail, rfl, hc⟩ := layout_head_operand h hpiece
  rintro d ⟨⟩
  exact hc

/-- Only a constant without a blank in front of it starts with a digit. -/
theorem layout_head_digit
    (h : Layout (piece :: pieces) t) (hpiece : StartsOperand piece)
    (hdigit : t.head?.any idigit = true) :
    ∃ n rest, piece = .const n ∧ t = Decimal.decimal n.val ++ rest ∧ Layout pieces rest := by
  obtain ⟨⟩ | @⟨blanks, rest, _, _, hblanks, -, hrest⟩ := h
  cases blanks with
  | cons c blanks =>
    have hblank := hblanks c mem_cons_self
    rw [(idigit_not_blank c hdigit).1] at hblank
    cases hblank
  | nil =>
    cases piece with
    | const n => exact ⟨n, rest, rfl, rfl, hrest⟩
    | prefixOp op => cases op <;> cases hdigit
    | opening => cases hdigit
    | infixOp op => exact hpiece.elim
    | closing => exact hpiece.elim

theorem prefix_prec (op : MathPrefix) : env.prec op.token = 2 := by
  unfold MathEnv.prec
  cases env.cPrecedences <;> cases op <;> rfl

/-- A prefix operator and its operand.  A minus sign right before a constant gives the value of a
minus sign that is applied to the constant. -/
theorem Readable.prefix_operator {env : MathEnv} (h : Readable env (piece :: pieces) 2 2 depth value)
    (hpiece : StartsOperand piece) (hdepth : 0 < depth)
    (hconst : ∀ n, piece = .const n → pieces = [] ∧ value = some (n.val : ℤ))
    (prefixOp : MathPrefix) :
    Readable env (.prefixOp prefixOp :: piece :: pieces) 2 2 depth
      (value.map (prefixValue prefixOp)) := by
  intro qs s stack hqs hprec hlayout hat hroom
  obtain ⟨t, ht, hsign, hlex⟩ := layout_cons hlayout env s.unary
  by_cases hnegated : prefixOp = .uminus ∧ t.head?.any idigit = true
  · obtain ⟨rfl, hdigit⟩ := hnegated
    obtain ⟨n, rest, rfl, rfl, hrest⟩ := layout_head_digit ht hpiece hdigit
    obtain ⟨rfl, rfl⟩ := hconst n rfl
    have hvalue : (some (n.val : ℤ)).map (prefixValue .uminus) =
        some (-BitVec.ofNat 64 n.val).toInt := by
      rw [← toInt_ofNat_const n]
      exact congrArg some (toInt_prefixOp .uminus _).symm
    rw [hvalue]
    refine takes_number hrest ?_ hat (by omega) 2
    rw [hlex, hat.unary_eq]
    exact zzlex_negated env n.isLt (layout_head_operator hrest hqs)
  · have hoperator : zzlex env s.unary s.ptr = operator prefixOp.token t := by
      rw [hlex, hat.unary_eq]
      exact zzlex_prefix env prefixOp (operand_head_bytes ht hpiece) hsign
        fun hminus hdigit ↦ hnegated ⟨hminus, hdigit⟩
    have heoi : prefixOp.token ≠ .eoi := by cases prefixOp <;> rintro ⟨⟩
    have htok : isOperator prefixOp.token = true := by cases prefixOp <;> rfl
    have hrl : prefixOp.token.type.assoc = .rl := by cases prefixOp <;> rfl
    have hassoc : prefixOp.token.type.assoc ≠ .bool := by rw [hrl]; rintro ⟨⟩
    have hbound : 2 = env.prec prefixOp.token -
        if prefixOp.token.type.assoc = .rl then 0 else 1 := by
      rw [prefix_prec, hrl]
      rfl
    let s₁ : MathState := { s with ptr := t, mtok := prefixOp.token, unary := true }
    have hnext : nextToken env s = .ok s₁ := by
      rw [nextToken_operator hoperator (by rw [hat.unary_eq]; cases prefixOp <;> rfl)]
      cases prefixOp <;> rfl
    have hat₁ : At true stack s₁ := ⟨rfl, hat.stack_eq, hat.noeval_eq, hat.errflag_eq⟩
    have htakes := h qs s₁ stack hqs hprec ht hat₁ hroom
    refine ⟨lex_operator hoperator heoi, fun pc hpc ↦ ?_⟩
    have hpc₁ : env.prec prefixOp.token ≤ pc := (prefix_prec env prefixOp).trans_le hpc
    cases value with
    | none =>
      obtain ⟨r, hstopped, hloops⟩ :=
        loops_stopped htok hassoc hbound hat₁ hpc₁ htakes
      exact ⟨r, hstopped, hnext ▸ hloops⟩
    | some v =>
      obtain ⟨s₂, b, tok, t', unary, hlayout₂, hat₂, rfl, -, hafter, happly⟩ :=
        loops_apply htok hassoc hbound hat₁ hpc₁ hqs hprec htakes
      obtain ⟨c, hop, hc⟩ := op_prefix prefixOp
        (s := { s₂ with ptr := t', mtok := tok, unary := unary }) hat₂.stack_eq hat₂.errflag_eq
      refine ⟨{ s₂ with stack := c :: stack }, c, hlayout₂,
        ⟨hat₂.unary_eq, rfl, hat₂.noeval_eq, hat₂.errflag_eq⟩, hc, fun r hr ↦ ?_⟩
      rw [hafter] at hr
      rw [hnext]
      exact happly _ r hop hr

/-! ## Infix operators -/

theorem Readable.infix_operator {env : MathEnv} {left : List MathPiece}
    {leftBound leftTight leftDepth : ℕ} {leftValue : Option ℤ}
    {infixOp : MathInfix} (hleft : Readable env left leftBound leftTight leftDepth leftValue)
    (hright : Readable env (piece :: pieces) bound bound depth value)
    (hpiece : StartsOperand piece) (hleftBound : leftBound ≤ env.prec infixOp.token)
    (hleftTight : leftTight < env.prec infixOp.token)
    (hbound : bound = env.prec infixOp.token -
      if infixOp.token.type.assoc = .rl then 0 else 1)
    (hdomain : ∀ a b, leftValue = some a → value = some b → Shell.InDomain infixOp a b) :
    Readable env (left ++ .infixOp infixOp :: piece :: pieces) (env.prec infixOp.token) bound
      (max leftDepth (depth + 1))
      (leftValue.bind fun a ↦ value.bind fun b ↦ infixValue infixOp a b) := by
  intro qs s stack hqs hprec hlayout hat hroom
  rw [append_assoc] at hlayout
  have hqs₁ : AfterOperand (.infixOp infixOp :: piece :: pieces ++ qs) := hpiece
  obtain ⟨hstarts, hreads⟩ := hleft _ s stack hqs₁ hleftTight hlayout hat (by omega)
  refine ⟨hstarts, fun pc hpc ↦ ?_⟩
  have hleftReads := hreads pc (hleftBound.trans hpc)
  cases leftValue with
  | none => exact hleftReads
  | some a =>
  obtain ⟨s₁, x, hlayout₁, hat₁, rfl, hloops⟩ := hleftReads
  -- The operator itself.
  obtain ⟨t, ht, hsign, hlex⟩ := layout_cons hlayout₁ env s₁.unary
  have hoperator : zzlex env s₁.unary s₁.ptr = operator infixOp.token t := by
    rw [hlex, hat₁.unary_eq]
    exact zzlex_infix env infixOp (operand_head_bytes ht hpiece) hsign
  have htok : isOperator infixOp.token = true := by cases infixOp <;> rfl
  have hassoc : infixOp.token.type.assoc ≠ .bool := by
    rw [assoc_token]
    split <;> rintro ⟨⟩
  let s₂ : MathState := { s₁ with ptr := t, mtok := infixOp.token, unary := true }
  have hnext : nextToken env s₁ = .ok s₂ := by
    rw [nextToken_operator hoperator (by rw [hat₁.unary_eq]; cases infixOp <;> rfl)]
    cases infixOp <;> rfl
  have hat₂ : At true (x :: stack) s₂ := ⟨rfl, hat₁.stack_eq, hat₁.noeval_eq, hat₁.errflag_eq⟩
  have htakes := hright qs s₂ (x :: stack) hqs hprec ht hat₂ (by rw [length_cons]; omega)
  cases value with
  | none =>
    obtain ⟨r, hstopped, hr⟩ := loops_stopped htok hassoc hbound hat₂ hpc htakes
    exact ⟨r, hstopped, hloops r (hnext ▸ hr)⟩
  | some b =>
    obtain ⟨s₃, y, tok, t', unary, hlayout₃, hat₃, rfl, houtpar, hafter, happly⟩ :=
      loops_apply htok hassoc hbound hat₂ hpc hqs hprec htakes
    have hop := op_infix infixOp (s := { s₃ with ptr := t', mtok := tok, unary := unary })
      hat₃.stack_eq (by omega) hat₃.noeval_eq hat₃.errflag_eq (hdomain _ _ rfl rfl)
    dsimp only [Option.bind_some]
    cases hvalue : infixValue infixOp x.toInt y.toInt with
    | none =>
      rw [hvalue] at hop
      have herr : s₃.errflag.or (some .divisionByZero) = some .divisionByZero := by
        rw [hat₃.errflag_eq]
        rfl
      let s₄ : MathState := { s₃ with stack := stack, ptr := t', mtok := tok, unary := unary }
      refine ⟨s₄.zerr .divisionByZero, ⟨herr, houtpar⟩, hloops _ ?_⟩
      rw [hnext]
      refine happly _ _ hop (loops_stop (Or.inr ?_))
      exact (congrArg Option.isSome herr).trans rfl
    | some v =>
      rw [hvalue] at hop
      obtain ⟨c, hop, hc⟩ := hop
      refine ⟨{ s₃ with stack := c :: stack }, c, hlayout₃,
        ⟨hat₃.unary_eq, rfl, hat₃.noeval_eq, hat₃.errflag_eq⟩, hc, fun r hr ↦ hloops r ?_⟩
      rw [hafter] at hr
      rw [hnext]
      exact happly _ r hop hr

/-! ## Expressions -/

theorem prec_le_comma (op : MathInfix) :
    env.prec op.token ≤ env.prec .comma := by
  unfold MathEnv.prec
  cases env.cPrecedences <;> cases op <;> decide

theorem level_le_topPrec :
    e.level (mathTable env) ≤ env.topPrec := by
  cases e with
  | const n => exact Nat.zero_le _
  | unary op e =>
    change 2 ≤ env.topPrec
    unfold MathEnv.topPrec MathEnv.prec
    cases env.cPrecedences <;> decide
  | binary op l r => exact (prec_le_comma env op).trans (Nat.le_succ _)

theorem enclose_head {b : Bool}
    (h : ∃ piece rest, pieces = piece :: rest ∧ StartsOperand piece) :
    ∃ piece rest, Expression.enclose b pieces = piece :: rest ∧ StartsOperand piece := by
  cases b with
  | true => exact ⟨.opening, _, rfl, trivial⟩
  | false => exact h

theorem pieces_head :
    ∃ piece rest, e.pieces (mathTable env) = piece :: rest ∧ StartsOperand piece := by
  induction e with
  | const n => exact ⟨_, _, rfl, trivial⟩
  | unary op e ih => exact ⟨_, _, rfl, trivial⟩
  | binary op l r ihl ihr =>
    obtain ⟨piece, rest, heq, hpiece⟩ :=
      enclose_head ihl
    exact ⟨piece, _, by rw [Expression.pieces, heq]; rfl, hpiece⟩

theorem depth_pos : 0 < e.depth := by
  induction e with
  | const n => exact Nat.one_pos
  | unary op e ih => exact ih
  | binary op l r ihl ihr => exact lt_max_of_lt_left ihl

/-- An operand of an operator, with parentheses if it needs them. -/
theorem readable_enclose {env : MathEnv} {e : MathExpr}
    (h : Readable env (e.pieces (mathTable env)) (e.level (mathTable env))
      (e.tight (mathTable env)) e.depth e.value) (bound tight : ℕ) (hbound : 0 < bound)
    (htight : e.level (mathTable env) ≤ bound → e.tight (mathTable env) ≤ tight) :
    Readable env (Expression.enclose (bound < e.level (mathTable env)) (e.pieces (mathTable env)))
      bound tight e.depth e.value := by
  have hle := level_le_topPrec env e
  by_cases hparentheses : bound < e.level (mathTable env)
  · rw [decide_eq_true hparentheses]
    refine (h.parenthesize hle ?_).mono hbound (Nat.zero_le tight)
    exact ((e.tight_le_level (mathTable env)).trans hle).trans_lt (topPrec_lt_outpar env)
  · rw [decide_eq_false hparentheses]
    exact h.mono (not_lt.mp hparentheses) (htight (not_lt.mp hparentheses))

/-- Every expression is read as a whole. -/
theorem readable_pieces (hdomain : e.InDomain) :
    Readable env (e.pieces (mathTable env)) (e.level (mathTable env)) (e.tight (mathTable env))
      e.depth e.value := by
  induction e with
  | const n => exact readable_const env n
  | unary prefixOp e ih =>
    have hoperand := readable_enclose (ih hdomain) 2 2 (by norm_num)
      fun h ↦ (e.tight_le_level (mathTable env)).trans h
    obtain ⟨piece, pieces, heq, hpiece⟩ := pieces_head env e
    -- Whether the operand stands in parentheses.
    by_cases hparentheses : 2 < e.level (mathTable env)
    · have htext : Expression.enclose (decide (2 < e.level (mathTable env)))
          (e.pieces (mathTable env)) = .opening :: (e.pieces (mathTable env) ++ [.closing]) := by
        rw [decide_eq_true hparentheses]
        rfl
      rw [htext] at hoperand
      have hread := hoperand.prefix_operator trivial (depth_pos e) (by rintro n ⟨⟩) prefixOp
      rw [← htext] at hread
      exact hread
    · have htext : Expression.enclose (decide (2 < e.level (mathTable env)))
          (e.pieces (mathTable env)) = piece :: pieces := by
        rw [decide_eq_false hparentheses]
        exact heq
      rw [htext] at hoperand
      have hconst : ∀ n, piece = .const n → pieces = [] ∧ MathExpr.value e = some (n.val : ℤ) := by
        rintro n rfl
        cases e with
        | const m =>
          cases heq
          exact ⟨rfl, rfl⟩
        | unary op e => cases heq
        | binary op l r =>
          exact absurd ((mathTable env).prefix_lt op) hparentheses
      have hread := hoperand.prefix_operator hpiece (depth_pos e) hconst prefixOp
      rw [← htext] at hread
      exact hread
  | binary infixOp l r ihl ihr =>
    obtain ⟨hl, hr, hop⟩ := hdomain
    have hleft := readable_enclose (ihl hl) _
      _
      ((mathTable env).prefix_pos.trans_le ((mathTable env).prefix_le_leftBound infixOp))
      fun h ↦ Nat.le_sub_one_of_lt (Expression.tight_lt_prec (mathTable env) h)
    have hright := readable_enclose (ihr hr) _
      _
      ((mathTable env).prefix_pos.trans_le ((mathTable env).prefix_le_rightBound infixOp))
      fun h ↦ (r.tight_le_level (mathTable env)).trans h
    have hpos := (mathTable env).prefix_lt infixOp
    have hbound : (mathTable env).rightBound infixOp = env.prec infixOp.token -
        if infixOp.token.type.assoc = .rl then 0 else 1 := by
      rw [assoc_token]
      unfold OperatorTable.rightBound mathTable
      by_cases hassoc : infixOp = .power ∨ infixOp = .comma
      · simp [hassoc]
      · simp [hassoc]
    obtain ⟨piece, rest, heq, hpiece⟩ :=
      enclose_head
        (pieces_head env r)
    rw [heq] at hright
    have hread := hleft.infix_operator hright hpiece ((mathTable env).leftBound_le infixOp)
      (Nat.sub_one_lt (Nat.ne_zero_of_lt hpos)) hbound hop
    rw [← heq] at hread
    have hvalue : MathExpr.value (.binary infixOp l r) =
        (MathExpr.value l).bind fun a ↦ (MathExpr.value r).bind fun b ↦
          infixValue infixOp a b := by
      change Expression.eval _ _ _ _ = _
      unfold Expression.eval MathExpr.value
      cases l.eval _ prefixValue infixValue with
      | none => rfl
      | some a => cases r.eval _ prefixValue infixValue <;> rfl
    rw [hvalue]
    exact hread

end Bsh.Shell
