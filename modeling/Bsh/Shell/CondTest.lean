import Bsh.Shell.CondParse

/-!
# Compiling the conditions of `test`

The arguments of `test` are words, and the same words can be operators and operands.  Where no
operand is spelled like an operator, the parser reads the condition that the arguments stand for.
-/

namespace Bsh.Shell

open Bsh.Library List
open CondParser (isTestInfix checkCond condDble)

/-! ## Words -/

/-- A word that `test` does not take for an operator. -/
def isOperand (s : Bytes) : Bool :=
  decide (testTok s = .string) && !isTestInfix s && !checkCond s (Bytes.ascii "a") &&
    !checkCond s (Bytes.ascii "o")

/-- The words of a simple condition. -/
def CondPrim.words : CondPrim → List Bytes
  | .one s => [s]
  | .two a b => [a, b]
  | .three a op c => [a, op, c]
  | .less a c => [a, Bytes.ascii "<", c]
  | .greater a c => [a, Bytes.ascii ">", c]
  | .many a args => a :: args

/-- The simple conditions of `test`: a string, a condition with a letter other than those of the
connectives, and a comparison other than the order of strings. -/
def CondPrim.InTest : CondPrim → Prop
  | .one s => isOperand s = true ∧ dashed s = false
  | .two a b => isOperand a = true ∧ a.length = 2 ∧ dashed a = true ∧
      condLetter a = true ∧ isOperand b = true
  | .three a op _ => isOperand a = true ∧ isTestInfix op = true ∧ isOrder op = false
  | .less _ _ => False
  | .greater _ _ => False
  | .many _ _ => False

/-- The words of a condition. -/
def CondExpr.words : {level : CondLevel} → CondExpr level → List Bytes
  | _, prim p => p.words
  | _, bang _ e => Bytes.ascii "!" :: e.words
  | _, paren _ _ e => Bytes.ascii "(" :: (e.words ++ [Bytes.ascii ")"])
  | _, unit e => e.words
  | _, and e _ _ e' => e.words ++ Bytes.ascii "-a" :: e'.words
  | _, conj e => e.words
  | _, or e _ _ e' => e.words ++ Bytes.ascii "-o" :: e'.words

theorem CondExpr.words_pos {level : CondLevel} (e : CondExpr level) : 0 < e.words.length := by
  induction e with
  | prim p => cases p <;> exact Nat.succ_pos _
  | bang lines e ih => exact Nat.succ_pos _
  | paren lines lines' e ih => exact Nat.succ_pos _
  | unit e ih => exact ih
  | conj e ih => exact ih
  | and e lines lines' e' ih ih' | or e lines lines' e' ih ih' =>
    rw [words, length_append]
    exact Nat.add_pos_left ih _

theorem isOperand_iff {s : Bytes} : isOperand s = true ↔ testTok s = .string ∧
    isTestInfix s = false ∧ checkCond s (Bytes.ascii "a") = false ∧
      checkCond s (Bytes.ascii "o") = false := by
  simp only [isOperand, Bool.and_eq_true, decide_eq_true_eq, Bool.not_eq_true']
  tauto

theorem testTok_ne (s : Bytes) : testTok s ≠ .nulltok ∧ testTok s ≠ .lexerr ∧
    testTok s ≠ .seper false := by
  unfold testTok
  split_ifs <;> exact ⟨by decide, by decide, by decide⟩

theorem getCondNum_eq_some {tst : Bytes} (h : (getCondNum tst).isSome = true) :
    tst ∈ ["nt", "ot", "ef", "eq", "ne", "lt", "gt", "le", "ge"].map Bytes.ascii := by
  unfold getCondNum at h
  split_ifs at h <;> simp_all

theorem condOperator_of_isTestInfix {op : Bytes} (hop : isTestInfix op = true)
    (horder : isOrder op = false) : condOperator op ≠ none ∧ 0 ∉ op := by
  simp only [isTestInfix, Bool.or_eq_true, decide_eq_true_eq, Bool.and_eq_true] at hop
  rcases hop with ((((rfl | rfl) | rfl) | rfl) | rfl) | ⟨hdash, hnum⟩
  · decide
  · exact absurd horder (by decide)
  · exact absurd horder (by decide)
  · decide
  · decide
  · have htail := getCondNum_eq_some hnum
    cases op with
    | nil => exact absurd hdash (by decide)
    | cons c tst =>
      have hc : c = char '-' ∨ c = dashToken := by
        simpa [dashed, isDash] using hdash
      have hall : ∀ c ∈ [char '-', dashToken], ∀ tst ∈ ["nt", "ot", "ef", "eq", "ne", "lt", "gt",
          "le", "ge"].map Bytes.ascii, condOperator (c :: tst) ≠ none ∧ 0 ∉ c :: tst := by
        decide
      exact hall c (by simpa using hc) tst htail

theorem CondExpr.words_head {level : CondLevel} (e : CondExpr level) (he : e.All CondPrim.InTest) :
    ∃ arg args, e.words = arg :: args ∧ isTestInfix arg = false ∧
      checkCond arg (Bytes.ascii "a") = false ∧ checkCond arg (Bytes.ascii "o") = false := by
  induction e with
  | prim p =>
    cases p with
    | one s =>
      obtain ⟨-, hs⟩ := isOperand_iff.mp he.1
      exact ⟨s, _, rfl, hs⟩
    | two a b =>
      obtain ⟨-, ha⟩ := isOperand_iff.mp he.1
      exact ⟨a, _, rfl, ha⟩
    | three a op c =>
      obtain ⟨-, ha⟩ := isOperand_iff.mp he.1
      exact ⟨a, _, rfl, ha⟩
    | less a c => exact he.elim
    | greater a c => exact he.elim
    | many a args => exact he.elim
  | bang lines e ih => exact ⟨_, _, rfl, by decide⟩
  | paren lines lines' e ih => exact ⟨_, _, rfl, by decide⟩
  | unit e ih => exact ih he
  | conj e ih => exact ih he
  | and e lines lines' e' ih ih' | or e lines lines' e' ih ih' =>
    obtain ⟨arg, args, hwords, harg⟩ := ih he.1
    exact ⟨arg, _, by rw [words, hwords, cons_append], harg⟩

/-! ## The parser of `test` -/

/-- What can stand behind a condition among the arguments. -/
def CondLevel.Ends (level : CondLevel) : List Bytes → Prop
  | [] => True
  | arg :: _ => (testTok arg).Ends level

namespace CondParser

/-- The parser at the first one of the given arguments. -/
def testAt (posix : Bool) (args : List Bytes) (code : List CondWord) (npats : ℕ) :
    CondParser where
  tok := (args.head?.map testTok).getD .nulltok
  tokstr := args.head?
  source := .test args args.tail
  code := code
  npats := npats
  errflag := false
  posixbuiltins := posix

variable {posix : Bool} {args rest : List Bytes} {arg : Bytes} {code : List CondWord} {npats : ℕ}

@[simp]
theorem condlex_testAt : (testAt posix (arg :: args) code npats).condlex =
    testAt posix args code npats := by
  obtain ⟨hnull, herr, -⟩ := testTok_ne arg
  have htok : (testAt posix (arg :: args) code npats).tok = testTok arg := rfl
  have hsource : (testAt posix (arg :: args) code npats).source = .test (arg :: args) args := rfl
  rw [condlex, hsource]
  simp only [htok, if_neg herr]
  cases args with
  | nil =>
    simp only [if_neg hnull]
    rfl
  | cons next args => rfl

@[simp]
theorem skipSeps_testAt : (testAt posix args code npats).skipSeps = testAt posix args code npats :=
  rfl

theorem nextWord_testAt : (testAt posix (arg :: args) code npats).nextWord =
    testAt posix args code npats := by
  rw [nextWord, condlex_testAt, skipSeps_testAt]

@[simp]
theorem emit_testAt (words : List CondWord) (pats : ℕ) :
    (testAt posix args code npats).emit words pats =
      testAt posix args (code ++ words) (npats + pats) := rfl

theorem test_cons : CondParser.test posix (arg :: args) = testAt posix (arg :: args) [] 0 := rfl

/-- Where `par_cond_2` goes on as for `[[ ]]`. -/
theorem parCondTest_none (hargs : args ≠ [])
    (hop : 2 ≤ args.length → isTestInfix (args.getD 0 []) = false) :
    (testAt posix (arg :: args) code npats).parCondTest args = none := by
  have htok : (testAt posix (arg :: args) code npats).tok ≠ .nulltok := (testTok_ne arg).1
  match args, hargs, hop with
  | [s], _, _ => exact if_neg htok
  | s2 :: s3 :: args, _, hop =>
    have hs2 : ¬isTestInfix s2 = true := by simpa using hop (Nat.le_add_left 2 args.length)
    exact (if_neg htok).trans (if_neg hs2)

theorem parCond2_testAt (turns : ℕ)
    (hearly : (testAt posix (arg :: args) code npats).parCondTest args = none) :
    (testAt posix (arg :: args) code npats).parCond2 (turns + 1) =
      if testTok arg = .bang ∧ ¬(testAt posix (arg :: args) code npats).bangString = true then
        parCond2 turns (testAt posix args (code ++ [wcbCond .not 0]) npats)
      else if testTok arg = .inpar then
        match parCond turns (testAt posix args code npats) with
        | none => none
        | some (p, r) =>
          some (if p.skipSeps.tok = .outpar then (p.skipSeps.condlex, r) else p.skipSeps.yyerror)
      else (testAt posix (arg :: args) code npats).parCondWords (args.length + 1) := by
  have hearly' : (testAt posix (arg :: args) code npats).parCondEarly = none := hearly
  have htok : (testAt posix (arg :: args) code npats).tok = testTok arg := rfl
  have hn : (testAt posix (arg :: args) code npats).nTestargs = args.length + 1 := rfl
  rw [parCond2]
  simp only [hearly', hn, skipSeps_testAt, htok, nextWord_testAt, condlex_testAt, ecadd_eq,
    emit_testAt, Nat.add_zero]
  all_goals rfl

theorem parCond2_operand (turns : ℕ) (harg : testTok arg = .string)
    (hearly : (testAt posix (arg :: args) code npats).parCondTest args = none) :
    (testAt posix (arg :: args) code npats).parCond2 (turns + 1) =
      (testAt posix (arg :: args) code npats).parCondWords (args.length + 1) := by
  rw [parCond2_testAt turns hearly, harg, if_neg fun h ↦ absurd h.1 (by decide),
    if_neg (by decide)]

theorem ends_of_below {level : CondLevel} (hrest : level.Ends rest) : (below level).Ends rest := by
  cases rest with
  | nil => trivial
  | cons arg rest => exact ends_below hrest

variable (posix rest code npats) in
theorem ends_tok {level : CondLevel} (hrest : level.Ends rest) :
    (testAt posix rest code npats).tok = .nulltok ∨
      (testAt posix rest code npats).tok.Ends level := by
  cases rest with
  | nil => exact .inl rfl
  | cons arg rest => exact .inr hrest

theorem ends_isTestInfix {level : CondLevel} (hrest : level.Ends rest) :
    2 ≤ rest.length → isTestInfix (rest.getD 0 []) = false := by
  cases rest with
  | nil => exact fun h ↦ absurd h (by decide)
  | cons arg rest =>
    intro _
    have hend : (testTok arg).EndsPrim := CondTok.Ends.prim hrest
    have harg : arg = Bytes.ascii "-o" ∨ arg = Bytes.ascii "-a" ∨ arg = Bytes.ascii ")" := by
      unfold testTok at hend
      split_ifs at hend <;> simp_all [CondTok.EndsPrim]
    rcases harg with rfl | rfl | rfl <;> rfl

theorem parCond2_prim (turns : ℕ) (p : CondPrim) (hp : p.InTest) (hrest : CondLevel.unit.Ends rest) :
    (testAt posix (p.words ++ rest) code npats).parCond2 (turns + 1) =
      some (testAt posix rest (code ++ p.code npats) (npats + p.pats), true) := by
  cases p with
  | one s =>
    obtain ⟨hs, hdash⟩ := hp
    obtain ⟨htok, -, -, -⟩ := isOperand_iff.mp hs
    have hdouble : (testAt posix rest code npats).parCondDouble (Bytes.ascii "-n") s =
        (testAt posix rest (code ++ (CondPrim.one s).code npats) npats, true) := by
      rw [parCondDouble_n, emit_testAt]
      rfl
    cases rest with
    | nil =>
      -- The only argument is not an option of `test`.
      have hearly : (testAt posix [s] code npats).parCondEarly =
          some (testAt posix [] (code ++ (CondPrim.one s).code npats) npats, true) := by
        have hterminal : ¬(¬posix = true ∧ checkCond s (Bytes.ascii "t") = true) := by
          rw [checkCond, hdash, Bool.false_and]
          exact fun h ↦ Bool.false_ne_true h.2
        refine (if_neg (testTok_ne s).1).trans ((if_neg hterminal).trans (congrArg some ?_))
        rw [condlex_testAt, hdouble]
      rw [CondPrim.words, cons_append, nil_append, parCond2, hearly]
      rfl
    | cons arg rest =>
      have hearly : (testAt posix (s :: arg :: rest) code npats).parCondTest (arg :: rest) = none :=
        parCondTest_none (cons_ne_nil arg rest) (ends_isTestInfix hrest)
      have hend : (testTok arg).Ends .unit := hrest
      have hwords := parCondWords_one (p := testAt posix (s :: arg :: rest) code npats)
        (n := (arg :: rest).length + 1) htok rfl
        (by rw [hdash]; exact fun h ↦ absurd h.2.2.2 (by decide)) (.inr (Nat.succ_ne_zero _))
        (by rw [condlex_testAt, skipSeps_testAt]) hend.prim.ne_word
      rw [hdouble] at hwords
      exact (parCond2_operand turns htok hearly).trans hwords
  | two a b =>
    obtain ⟨ha, hlength, hdash, hletter, hb⟩ := hp
    obtain ⟨htoka, -, -, -⟩ := isOperand_iff.mp ha
    obtain ⟨htokb, hop, -, -⟩ := isOperand_iff.mp hb
    have hearly : (testAt posix (a :: b :: rest) code npats).parCondTest (b :: rest) = none :=
      parCondTest_none (cons_ne_nil b rest) fun _ ↦ hop
    have hwords := parCondWords_more (p := testAt posix (a :: b :: rest) code npats)
      (n := (b :: rest).length + 1) htoka rfl
      (by rw [condlex_testAt, skipSeps_testAt]) (by rw [condlex_testAt]; exact htokb) htokb rfl
    refine (parCond2_operand turns htoka hearly).trans (hwords.trans ?_)
    obtain ⟨x, y, rfl⟩ := List.length_eq_two.mp hlength
    have hdble : condDble true [x, y] = true := by
      rw [condDble, hdash, hletter]
      rfl
    have hcond : isCondition [x, y] = true := by
      refine isCondition_iff.mpr ⟨hdash, ?_⟩
      rintro (rfl : y = 0)
      exact absurd (show condLetter [0, 0] = true from hletter) (by decide)
    have hn : decide ((b :: rest).length + 1 ≠ 0) = true := decide_eq_true (Nat.succ_ne_zero _)
    have hmore : ¬((testAt posix rest code npats).tok = .string ∧
        ¬condDble true [x, y] = true) :=
      fun h ↦ h.2 hdble
    rw [parCondTail, hn, if_neg (Nat.succ_ne_zero _), nextWord_testAt]
    refine (if_neg hmore).trans ?_
    rw [parCondDouble_eq hcond, emit_testAt]
    rfl
  | three a op c =>
    obtain ⟨-, hop, horder⟩ := hp
    obtain ⟨hoperator, hzero⟩ := condOperator_of_isTestInfix hop horder
    have htok : (testAt posix (a :: op :: c :: rest) code npats).tok ≠ .nulltok := (testTok_ne a).1
    have hearly : (testAt posix (a :: op :: c :: rest) code npats).parCondEarly =
        some (testAt posix rest (code ++ (CondPrim.three a op c).code npats)
          (npats + (CondPrim.three a op c).pats), true) := by
      have htriple := parCondTriple_eq (p := testAt posix rest code npats) (a := a) (c := c) hzero
        horder (.inl hoperator)
      refine (if_neg htok).trans ((if_pos hop).trans (congrArg some ?_))
      rw [condlex_testAt, condlex_testAt, condlex_testAt]
      exact htriple
    rw [CondPrim.words, cons_append, cons_append, cons_append, nil_append, parCond2, hearly]
  | less a c => exact hp.elim
  | greater a c => exact hp.elim
  | many a args => exact hp.elim

variable (posix arg rest code npats)

theorem parCondTest_words {level : CondLevel} (e : CondExpr level) (he : e.All CondPrim.InTest) :
    (testAt posix (arg :: (e.words ++ rest)) code npats).parCondTest (e.words ++ rest) = none ∧
      (testAt posix (arg :: (e.words ++ rest)) code npats).bangString = false := by
  obtain ⟨first, args, hwords, hop, ha, ho⟩ := e.words_head he
  rw [hwords, cons_append]
  refine ⟨parCondTest_none (cons_ne_nil _ _) fun _ ↦ hop, ?_⟩
  cases args ++ rest with
  | nil => rfl
  | cons next args =>
    change (checkCond first (Bytes.ascii "a") || checkCond first (Bytes.ascii "o")) = false
    rw [ha, ho]
    rfl

theorem cursor_testAt (args : List Bytes) : Cursor (testAt posix args) :=
  ⟨fun _ _ ↦ rfl, fun _ _ _ _ ↦ rfl⟩

variable {posix arg rest code npats}

variable (rest) in
theorem reads_testAt {level : CondLevel} (e : CondExpr level) (he : e.All CondPrim.InTest)
    (hrest : level.Ends rest) (turns : ℕ) (hturns : 3 * e.words.length ≤ turns + slack level) :
    Reads level turns (testAt posix (e.words ++ rest)) (testAt posix rest) e.code e.pats := by
  induction e generalizing rest turns with
  | prim p =>
    have hpos : 0 < p.words.length := by cases p <;> exact Nat.succ_pos _
    rw [CondExpr.words, slack] at hturns
    obtain ⟨turns, rfl⟩ : ∃ k, turns = k + 1 := ⟨turns - 1, by omega⟩
    exact fun c n ↦ ⟨_, parCond2_prim turns p he hrest, rfl⟩
  | bang lines e ih =>
    rw [CondExpr.words, length_cons, slack] at hturns
    obtain ⟨turns, rfl⟩ : ∃ k, turns = k + 1 := ⟨turns - 1, by omega⟩
    refine (ih rest he hrest turns (by rw [slack]; omega)).bang fun c n ↦ ?_
    obtain ⟨hearly, hbangs⟩ := parCondTest_words posix rest (Bytes.ascii "!") c n e he
    refine (parCond2_testAt turns hearly).trans ?_
    rw [hbangs]
    exact if_pos ⟨by decide, Bool.false_ne_true⟩
  | paren lines lines' e ih =>
    rw [CondExpr.words, length_cons, length_append, slack] at hturns
    obtain ⟨turns, rfl⟩ : ∃ k, turns = k + 1 := ⟨turns - 1, by omega⟩
    have hinner := ih (Bytes.ascii ")" :: rest) he (.inl (by decide)) turns (by omega)
    have hsplit : (CondExpr.paren lines lines' e).words ++ rest =
        Bytes.ascii "(" :: (e.words ++ Bytes.ascii ")" :: rest) := by
      rw [CondExpr.words, cons_append, append_assoc]
      rfl
    rw [hsplit]
    refine hinner.paren (fun c n ↦ ?_) (fun c n ↦ (by decide : testTok (Bytes.ascii ")") = .outpar))
      fun c n ↦ by rw [condlex_testAt, skipSeps_testAt]
    exact parCond2_testAt turns (parCondTest_words posix _ (Bytes.ascii "(") c n e he).1
  | unit e ih | conj e ih =>
    rw [CondExpr.words, slack] at hturns
    have hpos := e.words_pos
    obtain ⟨turns, rfl⟩ : ∃ k, turns = k + 1 := ⟨turns - 1, by omega⟩
    refine (ih rest he (ends_of_below hrest) turns (by rw [slack]; omega)).last (fun h ↦ by cases h)
      (fun _ _ ↦ rfl)
      fun c n hmore ↦ ?_
    rcases ends_tok posix rest c n hrest with htok | htok
    · cases htok.symm.trans hmore
    · rw [hmore] at htok
      simp [CondTok.Ends, connective] at htok
  | and e lines lines' e' ih ih' =>
    rw [CondExpr.words, length_append, length_cons, slack] at hturns
    obtain ⟨turns, rfl⟩ : ∃ k, turns = k + 1 := ⟨turns - 1, by omega⟩
    have hall := (ih (Bytes.ascii "-a" :: (e'.words ++ rest)) he.1 (.inl (by decide)) turns
      (by omega)).connect .conj (fun h ↦ by cases h) (cursor_testAt posix _) (cursor_testAt posix _)
      (cursor_testAt posix _) (fun _ _ ↦ (by decide : testTok (Bytes.ascii "-a") = .damper))
      (fun _ _ ↦ nextWord_testAt) (ih' rest he.2 hrest turns (by omega))
    rw [CondExpr.code_and, CondExpr.words, append_assoc, cons_append]
    exact hall
  | or e lines lines' e' ih ih' =>
    rw [CondExpr.words, length_append, length_cons, slack] at hturns
    obtain ⟨turns, rfl⟩ : ∃ k, turns = k + 1 := ⟨turns - 1, by omega⟩
    have hall := (ih (Bytes.ascii "-o" :: (e'.words ++ rest)) he.1 (.inl (by decide)) turns
      (by omega)).connect .disj (fun h ↦ by cases h) (cursor_testAt posix _) (cursor_testAt posix _)
      (cursor_testAt posix _) (fun _ _ ↦ (by decide : testTok (Bytes.ascii "-o") = .dbar))
      (fun _ _ ↦ nextWord_testAt) (ih' rest he.2 hrest turns (by omega))
    rw [CondExpr.code_or, CondExpr.words, append_assoc, cons_append]
    exact hall

end CondParser

end Bsh.Shell

/-!
# The values of conditions

What is read is evaluated: a condition of `[[ ]]` has its value, and so has a condition of `test`,
but for four arguments of which the first one is an exclamation mark, which negates what the other
three say.
-/

namespace Bsh.Shell

open Bsh.Library List

/-! ## The arguments of `test` -/

/-- The status of a negation. -/
def condNot (status : ℕ) : ℕ := if status = 0 then 1 else if status = 1 then 0 else status

theorem CondPrim.words_operand (p : CondPrim) (hp : p.InTest) :
    ∃ s args, p.words = s :: args ∧ isOperand s = true := by
  cases p with
  | one s => exact ⟨s, _, rfl, hp.1⟩
  | two a b => exact ⟨a, _, rfl, hp.1⟩
  | three a op c => exact ⟨a, _, rfl, hp.1⟩
  | less a c => exact hp.elim
  | greater a c => exact hp.elim
  | many a args => exact hp.elim

namespace CondExpr

variable {σ : Type*} (env : CondEnv σ) {level : CondLevel}

/-- A condition that asks the same as another one or its negation. -/
def Means (e : CondExpr level) (e' : CondExpr .disj) (negated : Bool) : Prop :=
  e'.All CondPrim.InTest ∧ e'.size ≤ e.size ∧ ∀ st, e.value env true st =
    (e'.value env true st).map (if negated then condNot else id) id

theorem head_of_append {level' : CondLevel} (e : CondExpr level') {l : List Bytes} {arg : Bytes}
    (h : (e.words ++ l).head? = some arg) : e.words.head? = some arg := by
  have hpos := e.words_pos
  cases hwords : e.words with
  | nil => rw [hwords] at hpos; exact absurd hpos (by decide)
  | cons first args =>
    rw [hwords] at h
    exact h

/-- What begins with a parenthesis and is short stands in parentheses. -/
theorem words_paren (e : CondExpr level) (he : e.All CondPrim.InTest)
    (hhead : e.words.head? = some (Bytes.ascii "(")) :
    3 ≤ e.words.length ∧ (e.words.length ≤ 4 → ∃ e' : CondExpr .disj,
      e.words = Bytes.ascii "(" :: (e'.words ++ [Bytes.ascii ")"]) ∧ e.Means env e' false) := by
  induction e with
  | prim p =>
    obtain ⟨s, args, hwords, hs⟩ := p.words_operand he
    rw [words, hwords] at hhead
    cases hhead
    exact absurd hs (by decide)
  | bang lines e ih => exact absurd hhead (by simp [words, Bytes.ascii])
  | paren lines lines' e ih =>
    have hpos := e.words_pos
    refine ⟨?_, fun _ ↦ ⟨e, rfl, he, le_rfl, fun _ ↦ rfl⟩⟩
    simp only [words, length_cons, length_append, length_nil]
    omega
  | unit e ih => exact ih he hhead
  | conj e ih => exact ih he hhead
  | and e lines lines' e' ih ih' | or e lines lines' e' ih ih' =>
    have hpos := e'.words_pos
    have hlength := (ih he.1 (e.head_of_append hhead)).1
    simp only [words, length_cons, length_append]
    exact ⟨by omega, fun h ↦ absurd h (by omega)⟩

/-- What begins with an exclamation mark and is short is a negation. -/
theorem words_bang (e : CondExpr level) (he : e.All CondPrim.InTest)
    (hhead : e.words.head? = some (Bytes.ascii "!")) :
    2 ≤ e.words.length ∧ (e.words.length ≤ 3 → ∃ e' : CondExpr .disj,
      e.words = Bytes.ascii "!" :: e'.words ∧ e.Means env e' true) := by
  induction e with
  | prim p =>
    obtain ⟨s, args, hwords, hs⟩ := p.words_operand he
    rw [words, hwords] at hhead
    cases hhead
    exact absurd hs (by decide)
  | bang lines e ih =>
    have hpos := e.words_pos
    refine ⟨Nat.succ_le_succ hpos, fun _ ↦ ⟨conj (unit e), rfl, he, Nat.le_succ _, fun st ↦ ?_⟩⟩
    exact value_bang env true lines e st
  | paren lines lines' e ih => exact absurd hhead (by simp [words, Bytes.ascii])
  | unit e ih => exact ih he hhead
  | conj e ih => exact ih he hhead
  | and e lines lines' e' ih ih' | or e lines lines' e' ih ih' =>
    have hpos := e'.words_pos
    have hlength := (ih he.1 (e.head_of_append hhead)).1
    simp only [words, length_cons, length_append]
    exact ⟨by omega, fun h ↦ absurd h (by omega)⟩

/-- What `bin_test` parses of the words of a condition. -/
theorem testArguments_words (e : CondExpr .disj) (he : e.All CondPrim.InTest)
    (hbang : ¬(e.words.length = 4 ∧ e.words.head? = some (Bytes.ascii "!"))) :
    ∃ e' negated, testArguments e.words = (e'.words, negated) ∧ e.Means env e' negated := by
  have hself : e.Means env e false := ⟨he, le_rfl, fun _ ↦ rfl⟩
  have hinner (hparen : e.words.head? = some (Bytes.ascii "(")) (hlength : e.words.length ≤ 4) :
      ∃ e' : CondExpr .disj, e.words.tail.dropLast = e'.words ∧
        e.words.length = e'.words.length + 2 ∧ e.Means env e' false := by
    obtain ⟨e', hwords, hmeans⟩ := (words_paren env e he hparen).2 hlength
    refine ⟨e', ?_, ?_, hmeans⟩
    · rw [hwords, tail_cons, dropLast_concat]
    · rw [hwords]
      simp
  unfold testArguments
  simp only []
  split_ifs with hlength hparen hfour
  · obtain ⟨e', htail, hcount, hmeans⟩ := hinner hparen.1 (by omega)
    rw [htail] at hfour
    obtain ⟨e'', hwords, hmeans'⟩ := (words_bang env e' hmeans.1 hfour.2).2 (by omega)
    refine ⟨e'', true, by rw [htail, hwords, tail_cons], hmeans'.1,
      hmeans'.2.1.trans hmeans.2.1, fun st ↦ ?_⟩
    rw [hmeans.2.2, hmeans'.2.2]
    rfl
  · obtain ⟨e', htail, -, hmeans⟩ := hinner hparen.1 (by omega)
    exact ⟨e', false, by rw [htail], hmeans⟩
  · exact ⟨e, false, rfl, hself⟩
  · exact ⟨e, false, rfl, hself⟩

theorem testArguments_bang (args : List Bytes) (hlength : args.length = 3) :
    testArguments (Bytes.ascii "!" :: args) = (args, true) := by
  have hparen : ¬(Bytes.ascii "!" = Bytes.ascii "(") := by decide
  unfold testArguments
  simp [hlength, hparen]

end CondExpr

/-! ## `bin_test` -/

section

variable {σ : Type*} (env : CondEnv σ)

theorem testCondition_words (posix : Bool) {argv : List Bytes} (hargv : argv ≠ [])
    (e : CondExpr .disj) (he : e.All CondPrim.InTest) (hsize : e.size < 2 ^ 20) {negated : Bool}
    (hargs : testArguments argv = (e.words, negated)) (st : σ) :
    testCondition env posix argv st = some
      ((e.value env true st).map (fun status ↦ .status (if negated then condNot status else status))
        id) := by
  obtain ⟨arg, args, hwords, -⟩ := e.words_head he
  have hcode : (e.code 0).length = e.size := e.code_length 0
  have hparse : (CondParser.test posix e.words).parCond (CondParser.test posix e.words).turns =
      some (CondParser.testAt posix [] (e.code 0) e.pats, true) := by
    have hturns : 3 * e.words.length ≤ (CondParser.test posix e.words).turns := by
      rw [hwords]
      change 3 * (args.length + 1) ≤ 3 * (args.length + 2)
      omega
    obtain ⟨q, hq, hend⟩ := @CondParser.reads_testAt posix [] _ e he trivial _ hturns [] 0
    change CondParser.parCond _ _ = _ at hq
    rw [CondParser.parCond_skipSeps hq, nil_append, Nat.zero_add] at hend
    rw [append_nil, hend, hwords, ← CondParser.test_cons] at hq
    rwa [hwords]
  obtain ⟨pc, hrun, -⟩ := e.evalcond_code env true 0 ((e.code 0).length + 1) [.num 0] hsize (by omega)
    st
  have hlast : testCondition env posix argv st =
      some (TestOutcome.status (if (e.value env true st).1 < 2 ∧ negated = true then
        (if (e.value env true st).1 = 0 then 1 else 0) else (e.value env true st).1),
          (e.value env true st).2) := by
    rw [testCondition, if_neg hargv, hargs]
    simp only [hparse]
    dsimp only [CondParser.testAt]
    rw [hrun]
    rfl
  rw [hlast]
  refine congrArg (fun status ↦ some (TestOutcome.status status, (e.value env true st).2)) ?_
  cases negated with
  | false => exact if_neg fun h ↦ Bool.false_ne_true h.2
  | true =>
    simp only [condNot, and_true, if_true]
    split_ifs <;> omega

/-- The words that stand for a condition in a call of `test` or `[`. -/
def bracketed (bracket : Bool) (args : List Bytes) : List Bytes :=
  if bracket then args ++ [Bytes.ascii "]"] else args

theorem binTest_bracketed (posix bracket : Bool) (args : List Bytes) (st : σ) :
    binTest env posix bracket (bracketed bracket args) st = testCondition env posix args st := by
  cases bracket with
  | false => rfl
  | true =>
    rw [bracketed, if_pos rfl, binTest, if_pos rfl, if_pos List.getLast?_concat,
      dropLast_concat]

end

/-! ## Where a condition does not have its value -/

/-- A shell where strings without patterns are compared, and no option is known. -/
def exampleCondEnv : CondEnv Unit where
  condSubst _ s st := (s, st)
  letter _ _ st := (false, st)
  optison _ st := (0, st)
  compare _ _ _ st := (false, st)
  pattern a b st := (if b = [char '['] then none else some (a = b), st)
  regex _ _ st := (2, st)
  module _ _ _ st := (2, st)

/-- A condition with a simple condition alone. -/
def CondExpr.simple (p : CondPrim) : CondExpr .conj := .unit (.prim p)

/-- Negations of a nonempty string. -/
def CondExpr.bangs : ℕ → CondExpr .unit
  | 0 => .prim (.one (Bytes.ascii "x"))
  | m + 1 => .bang 0 (bangs m)

/-- A false condition in front of a long one, in a disjunction with a true one. -/
def CondExpr.overflow (m : ℕ) : CondExpr .disj :=
  .or (.unit (.paren 0 0 (.conj (.and (.prim (.one [])) 0 0 (.unit (bangs m)))))) 0 0
    (.conj (simple (.one (Bytes.ascii "x"))))

theorem CondExpr.bangs_size (m : ℕ) : (bangs m).size = m + 2 := by
  induction m with
  | zero => rfl
  | succ m ih =>
    rw [bangs, size, ih]

theorem CondExpr.bangs_all (m : ℕ) : (bangs m).All CondPrim.InShell := by
  induction m with
  | zero => rfl
  | succ m ih => exact ih

theorem CondExpr.overflow_all (m : ℕ) : (overflow m).All CondPrim.InShell :=
  ⟨⟨rfl, bangs_all m⟩, rfl⟩

/-- The second number of a word has 20 bits: where it would be a multiple of 2^20, the evaluation
goes on with the condition that it has just read. -/
theorem CondExpr.evalcond_overflow (m turns : ℕ) (hm : (m + 4) % 2 ^ 20 = 0) :
    (evalcond exampleCondEnv false ((overflow m).code 0) (turns + 3) 0 ()).map Prod.fst = some 1 ∧
      ((overflow m).value exampleCondEnv false ()).1 = 0 := by
  refine ⟨?_, rfl⟩
  have hskip : ((CondExpr.prim (.one [])).size + (CondExpr.unit (bangs m)).size) % 2 ^ 20 = 0 := by
    have hcount : (CondExpr.prim (.one [])).size + (CondExpr.unit (bangs m)).size = m + 4 := by
      change 2 + (bangs m).size = m + 4
      rw [bangs_size]
      omega
    rw [hcount, hm]
  have hfirst (rest : List CondWord) : evalcond exampleCondEnv false
      ((CondPrim.one []).code 0 ++ rest) (turns + 1) 0 () = some (1, 2, ()) := rfl
  have hagain (s : ℕ) (rest : List CondWord) : evalcond exampleCondEnv false
      (wcbCond .and s :: ((CondPrim.one []).code 0 ++ rest)) (turns + 2) 1 () =
        some (1, 3, ()) := rfl
  have hcode : (overflow m).code 0 = wcbCond .or (((CondExpr.prim (.one [])).size +
      (CondExpr.unit (bangs m)).size + 1) + 2) ::
      (wcbCond .and ((CondExpr.prim (.one [])).size + (CondExpr.unit (bangs m)).size) ::
        ((CondPrim.one []).code 0 ++ ((bangs m).code 0 ++ (CondPrim.one (Bytes.ascii "x")).code 0))) :=
    rfl
  rw [hcode, evalcond_or, evalcond_and, hfirst]
  simp only [one_ne_zero, if_false, hskip, Nat.zero_add, true_or, if_true, hagain]
  rfl

/-- The condition `x && ! a = b || ''`. -/
def CondExpr.sample : CondExpr .disj :=
  .or (.and (.prim (.one (Bytes.ascii "x"))) 0 0
    (.unit (.bang 0 (.prim (.three (Bytes.ascii "a") (Bytes.ascii "=") (Bytes.ascii "b")))))) 0 0
    (.conj (.simple (.one [])))

/-- Four arguments behind an exclamation mark. -/
def CondExpr.bangFirst : CondExpr .disj :=
  .conj (.and (.bang 0 (.prim (.one []))) 0 0 (.simple (.one [])))

end Bsh.Shell
