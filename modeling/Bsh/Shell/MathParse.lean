import Bsh.Shell.MathLex

/-!
# Operator-precedence parsing

`mathevall` on the text of a printed expression gives the value of the expression, for both
precedence tables.  The loop of `mathparse` takes an operand with everything that binds tighter
than what follows, pushes its value and goes on with the next token; this is shown by induction on
the expression for every bound of the loop and everything that may follow.
-/

namespace Bsh.Shell

open Bsh.Library Decimal

/-! ## Runs of the parser -/

/-- The loop ends in a state, if it is given enough fuel. -/
def Loops (env : MathEnv) (pc : ℕ) (start : Except MathStop MathState) (r : MathState) : Prop :=
  ∃ enough, ∀ fuel ≥ enough, start.bind (mathloop env fuel pc) = .ok r

def Parses (env : MathEnv) (pc : ℕ) (s r : MathState) : Prop :=
  ∃ enough, ∀ fuel ≥ enough, mathparse env fuel pc s = .ok r

variable {env : MathEnv} {s : MathState} {t : Bytes} {value : Zlong}

theorem loops_stop {pc : ℕ}
    (h : pc < env.prec s.mtok ∨ s.errflag.isSome = true) : Loops env pc (.ok s) s := by
  refine ⟨1, fun fuel hfuel ↦ ?_⟩
  obtain ⟨fuel, rfl⟩ : ∃ n, fuel = n + 1 := ⟨fuel - 1, by omega⟩
  change mathloop env (fuel + 1) pc s = _
  rw [mathloop, if_pos h]

theorem parses_of_loops {pc : ℕ} {s' r : MathState} (herr : s.errflag = none)
    (hlex : lex env s = .ok s') (htok : s'.mtok ≠ .eoi)
    (h : Loops env pc (nextToken env s) r) : Parses env pc s r := by
  obtain ⟨enough, h⟩ := h
  refine ⟨enough + 1, fun fuel hfuel ↦ ?_⟩
  obtain ⟨fuel, rfl⟩ : ∃ n, fuel = n + 1 := ⟨fuel - 1, by omega⟩
  have hrun := h fuel (by omega)
  unfold nextToken at hrun
  rw [hlex] at hrun
  rw [mathparse, if_neg (by simp [herr]), hlex]
  dsimp only
  rw [if_neg fun hboth ↦ htok hboth.2]
  exact hrun

section Loop

variable {env : MathEnv} {pc : ℕ} {s r : MathState}

theorem not_stops (hpc : env.prec s.mtok ≤ pc) (herr : s.errflag = none) :
    ¬ (pc < env.prec s.mtok ∨ s.errflag.isSome = true) := by
  simp [herr, hpc]

theorem loops_num (htok : s.mtok = .num) (herr : s.errflag = none)
    (h : Loops env pc (nextToken env (push s.yyval s)) r) : Loops env pc (.ok s) r := by
  have hprec : env.prec s.mtok ≤ pc := by
    rw [htok]
    unfold MathEnv.prec
    cases env.cPrecedences <;> exact Nat.zero_le pc
  obtain ⟨enough, h⟩ := h
  refine ⟨enough + 1, fun fuel hfuel ↦ ?_⟩
  obtain ⟨fuel, rfl⟩ : ∃ n, fuel = n + 1 := ⟨fuel - 1, by omega⟩
  change mathloop env (fuel + 1) pc s = _
  rw [mathloop, if_neg (not_stops hprec herr)]
  simp only [htok]
  exact h fuel (by omega)

theorem loops_inpar {s' : MathState} (htok : s.mtok = .inpar) (hpc : 1 ≤ pc)
    (herr : s.errflag = none) (hparse : Parses env env.topPrec s s') :
    (s'.mtok = .outpar → Loops env pc (nextToken env s') r → Loops env pc (.ok s) r) ∧
      (s'.mtok ≠ .outpar → Loops env pc (.ok s) (s'.zerr .closingExpected)) := by
  have hprec : env.prec s.mtok ≤ pc := by
    rw [htok]
    unfold MathEnv.prec
    cases env.cPrecedences <;> exact hpc
  obtain ⟨enough, hparse⟩ := hparse
  have hloop (fuel : ℕ) (hfuel : enough ≤ fuel) : mathloop env (fuel + 1) pc s =
      if s'.mtok = .outpar then (nextToken env s').bind (mathloop env fuel pc)
      else .ok (s'.zerr .closingExpected) := by
    rw [mathloop, if_neg (not_stops hprec herr)]
    simp only [htok, hparse fuel hfuel]
    rfl
  constructor
  · rintro hclosed ⟨enough', h⟩
    refine ⟨max enough enough' + 1, fun fuel hfuel ↦ ?_⟩
    obtain ⟨fuel, rfl⟩ : ∃ n, fuel = n + 1 := ⟨fuel - 1, by omega⟩
    change mathloop env (fuel + 1) pc s = _
    rw [hloop fuel (by omega), if_pos hclosed]
    exact h fuel (by omega)
  · intro hopen
    refine ⟨enough + 1, fun fuel hfuel ↦ ?_⟩
    obtain ⟨fuel, rfl⟩ : ∃ n, fuel = n + 1 := ⟨fuel - 1, by omega⟩
    change mathloop env (fuel + 1) pc s = _
    rw [hloop fuel (by omega), if_neg hopen]

/-- The tokens that the loop takes as operators. -/
def isOperator : MathToken → Bool
  | .num | .id | .cid | .func | .inpar | .quest => false
  | _ => true

theorem mathloop_operator (htok : isOperator s.mtok = true) (hpc : env.prec s.mtok ≤ pc)
    (herr : s.errflag = none) (hassoc : s.mtok.type.assoc ≠ .bool) (fuel : ℕ) :
    mathloop env (fuel + 1) pc s =
      (mathparse env fuel (env.prec s.mtok - if s.mtok.type.assoc = .rl then 0 else 1) s).bind
        fun s' ↦ (op s.mtok { s' with noeval := s.noeval }).bind (mathloop env fuel pc) := by
  rw [mathloop, if_neg (not_stops hpc herr)]
  cases hm : s.mtok with
  | num | id | cid | func | inpar | quest =>
    rw [hm] at htok
    cases htok
  | _ =>
    rw [hm] at hassoc
    simp only [if_neg hassoc]
    rfl

theorem loops_operator {s' s'' : MathState} (htok : isOperator s.mtok = true)
    (hpc : env.prec s.mtok ≤ pc) (herr : s.errflag = none)
    (hassoc : s.mtok.type.assoc ≠ .bool)
    (hparse : Parses env (env.prec s.mtok - if s.mtok.type.assoc = .rl then 0 else 1) s s')
    (hop : op s.mtok { s' with noeval := s.noeval } = .ok s'')
    (h : Loops env pc (.ok s'') r) : Loops env pc (.ok s) r := by
  obtain ⟨enough, hparse⟩ := hparse
  obtain ⟨enough', h⟩ := h
  refine ⟨max enough enough' + 1, fun fuel hfuel ↦ ?_⟩
  obtain ⟨fuel, rfl⟩ : ∃ n, fuel = n + 1 := ⟨fuel - 1, by omega⟩
  change mathloop env (fuel + 1) pc s = _
  rw [mathloop_operator htok hpc herr hassoc, hparse fuel (by omega)]
  change (op s.mtok { s' with noeval := s.noeval }).bind _ = _
  rw [hop]
  exact h fuel (by omega)

end Loop

/-! ## The next token -/

theorem nextToken_operator {tok : MathToken}
    (hlex : zzlex env s.unary s.ptr = operator tok t)
    (hunary : s.unary = decide (tok.type.kind = .none)) :
    nextToken env s = .ok { s with ptr := t, mtok := tok, unary := !tok.type.opf } := by
  unfold nextToken lex
  rw [hlex]
  unfold operator checkunary
  by_cases hkind : tok.type.kind = .none
  · simp [Except.map, hkind, hunary]
  · simp [Except.map, hkind, hunary]

theorem nextToken_number
    (hlex : zzlex env s.unary s.ptr = number value t) (hunary : s.unary = true) :
    nextToken env s =
      .ok { s with ptr := t, mtok := .num, yyval := value, unary := false } := by
  have htype : MathToken.num.type = ⟨.lr, .none, true⟩ := rfl
  unfold nextToken lex
  rw [hlex]
  unfold number checkunary
  simp [Except.map, hunary, htype]

theorem lex_operator {tok : MathToken}
    (hlex : zzlex env s.unary s.ptr = operator tok t) (htok : tok ≠ .eoi) :
    ∃ s', lex env s = .ok s' ∧ s'.mtok ≠ .eoi := by
  refine ⟨{ s with ptr := t, mtok := tok, errflag := s.errflag.or none }, ?_, htok⟩
  unfold lex
  rw [hlex]
  rfl

theorem lex_number
    (hlex : zzlex env s.unary s.ptr = number value t) :
    ∃ s', lex env s = .ok s' ∧ s'.mtok ≠ .eoi := by
  refine ⟨{ s with ptr := t, mtok := .num, yyval := value, errflag := s.errflag.or none }, ?_,
    by rintro ⟨⟩⟩
  unfold lex
  rw [hlex]
  rfl

/-- The precedence of what follows an operand. -/
def nextPrec (env : MathEnv) : List MathPiece → ℕ
  | .infixOp op :: _ => env.prec op.token
  | .closing :: _ => env.prec .outpar
  | _ => env.prec .eoi

theorem layout_cons {piece : MathPiece} {pieces : List MathPiece}
    (h : Layout (piece :: pieces) t) (env : MathEnv) (unary : Bool) :
    ∃ rest, Layout pieces rest ∧ SignFree (pieceText piece) rest ∧
      zzlex env unary t = zzlex env unary (pieceText piece ++ rest) := by
  obtain ⟨⟩ | @⟨blanks, rest, _, _, hblanks, hsign, hrest⟩ := h
  exact ⟨rest, hrest, hsign, zzlex_blanks env unary hblanks _⟩

theorem nextToken_after (env : MathEnv) {qs : List MathPiece} (h : Layout qs t)
    (hqs : AfterOperand qs) :
    ∃ tok t' unary, env.prec tok = nextPrec env qs ∧
      (tok = .outpar → unary = false ∧ ∃ qs', AfterOperand qs' ∧ Layout qs' t') ∧
        ∀ s : MathState, s.ptr = t → s.unary = false →
          nextToken env s = .ok { s with ptr := t', mtok := tok, unary := unary } := by
  match qs, hqs with
  | [], _ =>
    obtain ⟨hblanks⟩ := h
    refine ⟨.eoi, [], true, rfl, (by rintro ⟨⟩), fun s hptr hunary ↦ nextToken_operator ?_ ?_⟩
    · rw [hptr, ← List.append_nil t, zzlex_blanks env s.unary hblanks]
      rfl
    · rw [hunary]
      rfl
  | .closing :: qs, hqs =>
    obtain ⟨rest, hrest, -, hlex⟩ := layout_cons h env false
    refine ⟨.outpar, rest, false, rfl, fun _ ↦ ⟨rfl, qs, hqs, hrest⟩,
      fun s hptr hunary ↦ nextToken_operator ?_ hunary⟩
    rw [hptr, hunary, hlex]
    rfl
  | .infixOp op :: piece :: qs, hqs =>
    obtain ⟨rest, hrest, hsign, hlex⟩ := layout_cons h env false
    obtain ⟨c, tail, hhead, hc⟩ := layout_head_operand hrest hqs
    have hbytes : ∀ d, rest.head? = some d → operandByte d = true := by
      rintro d hd
      rw [hhead] at hd
      cases hd
      exact hc
    refine ⟨op.token, rest, !op.token.type.opf, rfl, fun h ↦ ?_, fun s hptr hunary ↦
      nextToken_operator ?_ ?_⟩
    · cases op <;> cases h
    · rw [hptr, hunary, hlex]
      exact zzlex_infix env op hbytes hsign
    · rw [hunary]
      cases op <;> rfl

/-! ## Operators on the stack -/

theorem push_of_lt (h : s.stack.length < stackSize) :
    push value s = { s with stack := value :: s.stack } :=
  if_neg h.ne

theorem op_infix (infixOp : MathInfix) {a b : Zlong} {stack : List Zlong}
    (hstack : s.stack = b :: a :: stack) (hroom : stack.length < stackSize)
    (hnoeval : s.noeval = 0) (herr : s.errflag = none)
    (hdomain : Shell.InDomain infixOp a.toInt b.toInt) :
    match infixValue infixOp a.toInt b.toInt with
    | some v => ∃ c, op infixOp.token s = .ok { s with stack := c :: stack } ∧ c.toInt = v
    | none => op infixOp.token s = .ok ({ s with stack := stack }.zerr .divisionByZero) := by
  have hkind : op infixOp.token s = binaryOp infixOp.token s := by
    unfold op
    rw [herr, hstack]
    cases infixOp <;> rfl
  have hassigns : ¬ (infixOp.token.type.kind = .e2 ∨ infixOp.token.type.kind = .e2io) := by
    cases infixOp <;> exact (by decide)
  have hspec := binaryValue_spec infixOp a b hdomain
  rw [hkind]
  unfold binaryOp
  rw [hstack]
  dsimp only
  rw [if_neg (not_not.mpr hnoeval)]
  cases hvalue : infixValue infixOp a.toInt b.toInt with
  | none =>
    rw [hvalue] at hspec
    rw [hspec]
  | some v =>
    rw [hvalue] at hspec
    obtain ⟨c, hc, hcv⟩ := hspec
    refine ⟨c, ?_, hcv⟩
    rw [hc]
    dsimp only
    rw [if_neg hassigns, push_of_lt hroom]

theorem op_prefix (prefixOp : MathPrefix) {a : Zlong} {stack : List Zlong}
    (hstack : s.stack = a :: stack) (herr : s.errflag = none) :
    ∃ c, op prefixOp.token s = .ok { s with stack := c :: stack } ∧
      c.toInt = prefixValue prefixOp a.toInt := by
  refine ⟨_, ?_, toInt_prefixOp prefixOp a⟩
  have hkind : op prefixOp.token s = unaryOp prefixOp.token s := by
    unfold op
    rw [herr, hstack]
    cases prefixOp <;> rfl
  rw [hkind]
  unfold unaryOp
  rw [hstack]
  cases prefixOp with
  | uplus =>
    change Except.ok s = _
    rw [← hstack]
  | _ => rfl

theorem op_stopped (tok : MathToken) (h : s.errflag.isSome = true) :
    op tok s = .ok s := if_pos h

end Bsh.Shell
