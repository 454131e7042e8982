import Bsh.Shell.CondExpr

/-!
# Compiling the conditions of `[[ ]]`

The parser reads the tokens of a condition and emits its code: the words of each simple condition in
one of the layouts, and for a connective a word in front of what is already there.
-/

namespace Bsh.Shell

open Bsh.Library List

/-! ## Infix conditions -/

/-- A word that can be a condition. -/
def isCondition (s : Bytes) : Bool := dashed s && decide (s.getD 1 0 ≠ 0)

/-- An order of strings, which `par_cond_triple` confuses. -/
def isOrder (op : Bytes) : Bool :=
  (isOutang (op.getD 0 0) || isInang (op.getD 0 0)) && decide (op.getD 1 0 = 0)

namespace CondParser

/-- The parser with more words. -/
def emit (p : CondParser) (words : List CondWord) (pats : ℕ) : CondParser :=
  { p with code := p.code ++ words, npats := p.npats + pats }

variable (p : CondParser) (words : List CondWord) (pats : ℕ)

theorem ecadd_eq (w : CondWord) : p.ecadd w = p.emit [w] 0 := rfl

@[simp]
theorem emit_ecstr (s : Bytes) : (p.emit words pats).ecstr s = p.emit (words ++ [.str s]) pats := by
  simp [emit, ecadd, ecstr]

@[simp]
theorem emit_ecpat : (p.emit words 0).ecpat = p.emit (words ++ [.num p.npats]) 1 := by
  simp [emit, ecadd, ecpat]

theorem emit_strings (l : List Bytes) :
    l.foldl ecstr (p.emit words pats) = p.emit (words ++ l.map .str) pats := by
  induction l generalizing words with
  | nil => simp
  | cons s l ih => simp [ih]

variable {p} {a c : Bytes}

theorem parCondTriple_eq {op : Bytes} (hzero : 0 ∉ op)
    (horder : isOrder op = false) (hop : condOperator op ≠ none ∨ isCondition a = true) :
    p.parCondTriple a op c =
      (p.emit ((CondPrim.three a op c).code p.npats) (CondPrim.three a op c).pats, true) := by
  have horder' : ¬((isOutang (op.getD 0 0) || isInang (op.getD 0 0)) = true ∧ op.getD 1 0 = 0) := by
    rintro ⟨hang, hend⟩
    rw [isOrder, hang, hend] at horder
    exact absurd horder (by decide)
  have hfront (hnone : condOperator op = none) : dashed a = true ∧ a.getD 1 0 ≠ 0 := by
    have hcond := hop.resolve_left (not_not_intro hnone)
    rwa [isCondition, Bool.and_eq_true, decide_eq_true_eq] at hcond
  unfold parCondTriple CondPrim.code CondPrim.pats
  simp only [if_neg horder', ecadd_eq, emit_ecstr, emit_ecpat, cons_append, nil_append]
  match op with
  | [] =>
    rw [if_neg (by decide), if_neg (by decide), if_neg (by decide), if_neg (by decide),
      if_neg (by decide), if_pos (hfront rfl)]
    rfl
  | [x] =>
    have hzero' : isEquals 0 = false ∧ isTilde 0 = false := by decide
    simp only [condOperator, getD_cons_zero, getD_cons_succ, getD_nil, dashed,
      tail_cons, hzero', Bool.false_eq_true, and_false, if_false, and_true]
    by_cases hx : isEquals x = true
    · simp only [if_pos hx]
    · by_cases hdash : isDash x = true
      · simp only [if_neg hx, if_pos hdash]
        rfl
      · have hnone : condOperator [x] = none := by
          rw [condOperator, if_neg hx, if_neg hdash]
        simp only [if_neg hx, if_neg hdash]
        exact if_pos (hfront hnone)
  | x :: y :: rest =>
    have hy : y ≠ 0 := fun h ↦ hzero (by simp [h])
    have hrest : rest.getD 0 0 = 0 ↔ rest = [] := by
      cases rest with
      | nil => exact ⟨fun _ ↦ rfl, fun _ ↦ rfl⟩
      | cons z rest =>
        have hz : z ≠ 0 := fun h ↦ hzero (by simp [h])
        exact ⟨fun h ↦ absurd h hz, fun h ↦ absurd h (cons_ne_nil z rest)⟩
    have hnone := hfront
    simp only [condOperator] at hnone
    simp only [condOperator, getD_cons_zero, getD_cons_succ, dashed, tail_cons, hy,
      and_false, if_false, hrest]
    by_cases hdeq : isEquals x = true ∧ isEquals y = true ∧ rest = []
    · simp only [if_pos hdeq]
    · simp only [if_neg hdeq] at hnone ⊢
      by_cases hneq : x = char '!' ∧ isEquals y = true ∧ rest = []
      · simp only [if_pos hneq]
      · simp only [if_neg hneq] at hnone ⊢
        by_cases hregex : isEquals x = true ∧ isTilde y = true ∧ rest = []
        · simp only [if_pos hregex]
        · simp only [if_neg hregex] at hnone ⊢
          by_cases hdash : isDash x = true
          · simp only [if_pos hdash]
            cases getCondNum (y :: rest) <;> rfl
          · simp only [if_neg hdash] at hnone ⊢
            exact if_pos (hnone trivial)

theorem isCondition_iff : isCondition a = true ↔ dashed a = true ∧ a.getD 1 0 ≠ 0 := by
  rw [isCondition, Bool.and_eq_true, decide_eq_true_eq]

theorem parCondDouble_eq (ha : isCondition a = true) (b : Bytes) :
    p.parCondDouble a b = (p.emit ((CondPrim.two a b).code p.npats) 0, true) := by
  obtain ⟨hdash, hone⟩ := isCondition_iff.mp ha
  have hletter : a.getD 2 0 = 0 ∧ condLetter a = true ↔ isCondLetter a = true := by
    rw [isCondLetter, Bool.and_eq_true, decide_eq_true_eq]
  rw [parCondDouble, if_neg (by simp only [hdash, hone]; decide), CondPrim.code]
  simp only [hletter]
  split_ifs
  · simp only [ecadd_eq, emit_ecstr, cons_append, nil_append]
  · simp only [ecadd_eq, emit_ecstr, cons_append, nil_append]

theorem parCondDouble_n (s : Bytes) : p.parCondDouble (Bytes.ascii "-n") s =
    (p.emit ((CondPrim.one s).code p.npats) 0, true) := by
  rw [parCondDouble_eq (by decide)]
  rfl

theorem parCondMulti_eq (ha : isCondition a = true) (l : List Bytes) :
    p.parCondMulti a l = (p.emit ((CondPrim.many a l).code p.npats) 0, true) := by
  obtain ⟨hdash, hone⟩ := isCondition_iff.mp ha
  rw [parCondMulti, if_neg (by simp only [hdash, hone]; decide), ecadd_eq, emit_ecstr, emit_strings]
  rfl

/-! ## Tokens -/

/-- The parser at the first one of the given tokens. -/
def shell (posix : Bool) (tokens : List (CondTok × Option Bytes)) (code : List CondWord)
    (npats : ℕ) : CondParser where
  tok := (tokens.head?.map Prod.fst).getD .lexerr
  tokstr := tokens.head?.bind Prod.snd
  source := .shell tokens.tail
  code := code
  npats := npats
  errflag := false
  posixbuiltins := posix

section

variable {posix : Bool} {tokens : List (CondTok × Option Bytes)} {code : List CondWord} {npats : ℕ}
  {token : CondTok × Option Bytes}

@[simp]
theorem condlex_shell :
    (shell posix (token :: tokens) code npats).condlex = shell posix tokens code npats := by
  cases tokens <;> rfl

theorem skipSeps_shell : (shell posix tokens code npats).skipSeps =
    shell posix (tokens.dropWhile fun token ↦ decide (token.1 = .seper false)) code npats := by
  induction tokens with
  | nil => rfl
  | cons token tokens ih =>
    obtain ⟨tok, tokstr⟩ := token
    rw [dropWhile_cons]
    by_cases htok : tok = .seper false
    · subst htok
      rw [if_pos (decide_eq_true rfl), ← ih]
      cases tokens <;> rfl
    · rw [if_neg (by simpa using htok)]
      cases tokens with
      | nil => exact if_neg htok
      | cons token tokens => exact if_neg htok

@[simp]
theorem emit_shell (words : List CondWord) (pats : ℕ) :
    (shell posix tokens code npats).emit words pats =
      shell posix tokens (code ++ words) (npats + pats) := rfl

end

/-- Line breaks. -/
def lineBreaks (text : CondTok → Option Bytes) (lines : ℕ) : List (CondTok × Option Bytes) :=
  List.replicate lines (.seper false, text (.seper false))

section

variable {posix : Bool} {rest : List (CondTok × Option Bytes)} {code : List CondWord} {npats : ℕ}
  {tok : CondTok} {tokstr : Option Bytes} (text : CondTok → Option Bytes) (lines : ℕ)

theorem skipSeps_token (htok : tok ≠ .seper false) :
    (shell posix ((tok, tokstr) :: rest) code npats).skipSeps =
      shell posix ((tok, tokstr) :: rest) code npats := by
  rw [skipSeps_shell, dropWhile_cons, if_neg (by simpa using htok)]

theorem skipSeps_lineBreaks :
    (shell posix (lineBreaks text lines ++ rest) code npats).skipSeps =
      (shell posix rest code npats).skipSeps := by
  induction lines with
  | zero => rfl
  | succ lines ih =>
    rw [skipSeps_shell, skipSeps_shell] at ih
    rw [skipSeps_shell, skipSeps_shell, lineBreaks, replicate_succ, cons_append,
      dropWhile_cons, if_pos (decide_eq_true rfl)]
    exact ih

theorem nextWord_shell {token : CondTok × Option Bytes} :
    (shell posix (token :: rest) code npats).nextWord = (shell posix rest code npats).skipSeps := by
  rw [nextWord, condlex_shell]

end

end CondParser

/-- The tokens of a simple condition; `text` is `tokstr` for the operators. -/
def CondPrim.tokens (text : CondTok → Option Bytes) : CondPrim → List (CondTok × Option Bytes)
  | .one s => [(.string, some s)]
  | .two a b => [(.string, some a), (.string, some b)]
  | .three a op c => [(.string, some a), (.string, some op), (.string, some c)]
  | .less a c => [(.string, some a), (.inang, text .inang), (.string, some c)]
  | .greater a c => [(.string, some a), (.outang, text .outang), (.string, some c)]
  | .many a args => (.string, some a) :: args.map fun s ↦ (.string, some s)

/-- The simple conditions of `[[ ]]`: a word alone and what follows the first word are not read as a
condition with a letter, and a condition stands in front of or between its operands. -/
def CondPrim.InShell : CondPrim → Prop
  | .one s => CondParser.condDble false s = false
  | .two a _ => isCondition a = true
  | .three a op _ => 0 ∉ op ∧ CondParser.condDble false op = false ∧ isOrder op = false ∧
      (condOperator op ≠ none ∨ isCondition a = true)
  | .less _ _ => True
  | .greater _ _ => True
  | .many a args => isCondition a = true ∧ 3 ≤ args.length ∧ CondParser.condDble false (args.getD 0 []) = false

/-- What can stand behind a simple condition. -/
def CondTok.EndsPrim (tok : CondTok) : Prop :=
  tok = .damper ∨ tok = .dbar ∨ tok = .outpar ∨ tok = .doutbrack

theorem CondTok.EndsPrim.ne_word {tok : CondTok} (h : tok.EndsPrim) :
    tok ≠ .string ∧ tok ≠ .inang ∧ tok ≠ .outang ∧ tok ≠ .lexerr := by
  rcases h with rfl | rfl | rfl | rfl <;> decide

namespace CondParser

section

variable {posix : Bool} {rest : List (CondTok × Option Bytes)} {code : List CondWord} {npats : ℕ}
  {tok : CondTok} {tokstr : Option Bytes} (text : CondTok → Option Bytes) (lines : ℕ)

theorem skipSeps_string : (shell posix ((.string, tokstr) :: rest) code npats).skipSeps =
    shell posix ((.string, tokstr) :: rest) code npats := skipSeps_token (by decide)

/-- Behind the line breaks stand these tokens. -/
def Reaches (posix : Bool) (more tokens : List (CondTok × Option Bytes)) : Prop :=
  ∀ code npats, (shell posix more code npats).skipSeps = shell posix tokens code npats

variable (rest tokstr) in
theorem reaches_lineBreaks (htok : tok ≠ .seper false) :
    Reaches posix (lineBreaks text lines ++ (tok, tokstr) :: rest) ((tok, tokstr) :: rest) := by
  intro code npats
  rw [skipSeps_lineBreaks, skipSeps_token htok]

variable {more : List (CondTok × Option Bytes)} (hmore : Reaches posix more ((tok, tokstr) :: rest))

include hmore

theorem takeStrings_shell (htok : tok.EndsPrim) (args l : List Bytes) (turns : ℕ)
    (hturns : args.length < turns) :
    takeStrings turns (shell posix ((args.map fun s ↦ (.string, some s)) ++ more) code
        npats).skipSeps l = some (shell posix ((tok, tokstr) :: rest) code npats, l ++ args) := by
  induction args generalizing l turns with
  | nil =>
    obtain ⟨turns, rfl⟩ : ∃ k, turns = k + 1 := ⟨turns - 1, by omega⟩
    rw [map_nil, nil_append, hmore, takeStrings, append_nil]
    exact if_neg htok.ne_word.1
  | cons s args ih =>
    obtain ⟨turns, rfl⟩ : ∃ k, turns = k + 1 := ⟨turns - 1, by omega⟩
    rw [length_cons, Nat.add_lt_add_iff_right] at hturns
    rw [map_cons, cons_append, skipSeps_string, takeStrings]
    have hrest := ih (l ++ [s]) turns hturns
    have hnext : (shell posix ((.string, some s) :: ((args.map fun s ↦ (.string, some s)) ++
        more)) code npats).nextWord = (shell posix ((args.map fun s ↦ (.string, some s)) ++
          more) code npats).skipSeps := nextWord_shell
    rw [← hnext, append_assoc] at hrest
    exact hrest

omit hmore

theorem parCondWords_one {p q : CondParser} {n : ℕ} {s : Bytes} (htok : p.tok = .string)
    (hstr : p.tokstr = some s)
    (hfirst : ¬(n = 2 ∧ p.condlex.tok ≠ .string ∧ p.condlex.tokstr.isSome = true ∧ dashed s = true))
    (hdble : condDble false s = false ∨ n ≠ 0) (hq : p.condlex.skipSeps = q)
    (hend : q.tok ≠ .string ∧ q.tok ≠ .inang ∧ q.tok ≠ .outang ∧ q.tok ≠ .lexerr) :
    p.parCondWords n = some (q.parCondDouble (Bytes.ascii "-n") s) := by
  obtain ⟨h1, h2, h3, h4⟩ := hend
  have hdble' : ¬condDble (decide (n ≠ 0)) s = true ∨ n ≠ 0 := by
    by_cases hn : n = 0
    · subst hn
      exact .inl (by simpa using hdble)
    · exact .inr hn
  unfold parCondWords
  simp only [htok, hstr, if_neg hfirst, hq, h2, h3, or_self, if_false, ne_eq, h1, not_false_eq_true,
    if_true, h4, if_pos hdble']

theorem parCondWords_more {p q : CondParser} {n : ℕ} {s1 s2 : Bytes} (htok : p.tok = .string)
    (hstr : p.tokstr = some s1) (hq : p.condlex.skipSeps = q) (hcond : p.condlex.tok = .string)
    (hqtok : q.tok = .string) (hqstr : q.tokstr = some s2) :
    p.parCondWords n = q.parCondTail n s1 s2 (condDble (decide (n ≠ 0)) s1) := by
  have hfirst : ¬(n = 2 ∧ p.condlex.tok ≠ .string ∧ p.condlex.tokstr.isSome = true ∧
      dashed s1 = true) := fun h ↦ h.2.1 hcond
  unfold parCondWords
  simp only [htok, hstr, if_neg hfirst, hq, hqtok, hqstr]
  rfl

include hmore

theorem parCondOrder_shell (order : CondTok) (a c : Bytes) :
    parCondOrder (shell posix ((order, text order) :: (.string, some c) :: more) code npats) a =
      some (shell posix ((tok, tokstr) :: rest) (code ++ [wcbCond (if order = .inang then .strlt
        else .strgtr) 0, .str a, .str c]) npats, true) := by
  simp only [parCondOrder, nextWord_shell, skipSeps_string, hmore code npats]
  change some ((((shell posix ((tok, tokstr) :: rest) code npats).ecadd _).ecstr a).ecstr c, true) = _
  rw [ecadd_eq, emit_ecstr, emit_ecstr, emit_shell]
  rfl

theorem parCondWords_shell (p : CondPrim) (hp : p.InShell) (htok : tok.EndsPrim) :
    (shell posix (p.tokens text ++ more) code npats).parCondWords 0 =
      some (shell posix ((tok, tokstr) :: rest) (code ++ p.code npats) (npats + p.pats), true) := by
  have hend := hmore code npats
  have hne := htok.ne_word
  -- From the second word on.
  have htail (a b : Bytes) (words : List (CondTok × Option Bytes)) :
      (shell posix ((.string, some a) :: (.string, some b) :: words) code npats).parCondWords 0 =
        (shell posix ((.string, some b) :: words) code npats).parCondTail 0 a b
          (condDble false a) :=
    parCondWords_more (n := 0) rfl rfl (by rw [condlex_shell, skipSeps_string]) rfl rfl rfl
  cases p with
  | one s =>
    have hwords := parCondWords_one (p := shell posix ((.string, some s) :: more) code npats)
      (n := 0) rfl rfl (fun h ↦ absurd h.1 (by decide)) (.inl hp)
      (by rw [condlex_shell, hend]) hne
    rw [parCondDouble_n, emit_shell] at hwords
    exact hwords
  | two a b =>
    refine (htail a b more).trans ?_
    have hlast : ¬((shell posix ((tok, tokstr) :: rest) code npats).tok = .string ∧
        ¬condDble false b = true) := fun h ↦ hne.1 h.1
    simp only [parCondTail, nextWord_shell, hend, if_true, if_neg hlast, parCondDouble_eq hp,
      emit_shell]
    rfl
  | three a op c =>
    obtain ⟨hzero, hdble, horder, hop⟩ := hp
    refine (htail a op ((.string, some c) :: more)).trans ?_
    have hthird : (shell posix ((.string, some c) :: more) code npats).tok = .string ∧
        ¬condDble false op = true := ⟨rfl, by simp [hdble]⟩
    simp only [parCondTail, nextWord_shell, skipSeps_string, hend, if_true, if_pos hthird]
    change (if tok = .string then _ else _) = _
    rw [if_neg hne.1, parCondTriple_eq hzero horder hop, emit_shell]
    rfl
  | less a c => exact parCondOrder_shell text hmore .inang a c
  | greater a c => exact parCondOrder_shell text hmore .outang a c
  | many a args =>
    obtain ⟨ha, hlength, hdble⟩ := hp
    obtain ⟨s2, s3, s4, args, rfl⟩ : ∃ s2 s3 s4 l, args = s2 :: s3 :: s4 :: l := by
      match args, hlength with
      | s2 :: s3 :: s4 :: l, _ => exact ⟨s2, s3, s4, l, rfl⟩
    refine (htail a s2 _).trans ?_
    have hthird : (shell posix ((.string, some s3) :: (((s4 :: args).map fun s ↦ (.string, some s)) ++
        more)) code npats).tok = .string ∧ ¬condDble false s2 = true := ⟨rfl, by simpa using hdble⟩
    simp only [parCondTail, map_cons, cons_append, nextWord_shell, skipSeps_string, if_true,
      append_eq] at hthird ⊢
    rw [if_pos hthird]
    have htake : takeStrings ((((s4 :: args).map fun s ↦ ((.string, some s) : CondTok × Option Bytes))
        ++ more).tail.length + 2) (shell posix (((s4 :: args).map fun s ↦ (.string, some s)) ++
          more) code npats) [s2, s3] =
        some (shell posix ((tok, tokstr) :: rest) code npats, s2 :: s3 :: s4 :: args) := by
      rw [map_cons, cons_append, ← skipSeps_string]
      refine takeStrings_shell hmore htok (s4 :: args) [s2, s3] _ ?_
      simp only [tail_cons, length_append, length_map, length_cons]
      omega
    refine (congrArg (Option.map _) htake).trans ?_
    exact congrArg some (parCondMulti_eq ha _)

end

end CondParser

/-! ## Conditions -/

namespace CondExpr

/-- What holds of all simple conditions. -/
def All (P : CondPrim → Prop) : {level : CondLevel} → CondExpr level → Prop
  | _, prim p => P p
  | _, bang _ e => e.All P
  | _, paren _ _ e => e.All P
  | _, unit e => e.All P
  | _, and e _ _ e' => e.All P ∧ e'.All P
  | _, conj e => e.All P
  | _, or e _ _ e' => e.All P ∧ e'.All P

/-- The tokens of a condition. -/
def tokens (text : CondTok → Option Bytes) :
    {level : CondLevel} → CondExpr level → List (CondTok × Option Bytes)
  | _, prim p => p.tokens text
  | _, bang lines e => (.bang, text .bang) :: (CondParser.lineBreaks text lines ++ e.tokens text)
  | _, paren lines lines' e =>
    (.inpar, text .inpar) ::
      (CondParser.lineBreaks text lines ++ (e.tokens text ++
        (CondParser.lineBreaks text lines' ++ [(.outpar, text .outpar)])))
  | _, unit e => e.tokens text
  | _, and e lines lines' e' =>
    e.tokens text ++ (CondParser.lineBreaks text lines ++
      (.damper, text .damper) :: (CondParser.lineBreaks text lines' ++ e'.tokens text))
  | _, conj e => e.tokens text
  | _, or e lines lines' e' =>
    e.tokens text ++ (CondParser.lineBreaks text lines ++
      (.dbar, text .dbar) :: (CondParser.lineBreaks text lines' ++ e'.tokens text))

theorem tokens_pos (text : CondTok → Option Bytes) {level : CondLevel} (e : CondExpr level) :
    0 < (e.tokens text).length := by
  induction e with
  | prim p => cases p <;> exact Nat.succ_pos _
  | bang lines e ih => exact Nat.succ_pos _
  | paren lines lines' e ih => exact Nat.succ_pos _
  | unit e ih => exact ih
  | conj e ih => exact ih
  | and e lines lines' e' ih ih' | or e lines lines' e' ih ih' =>
    rw [tokens, length_append]
    exact Nat.add_pos_left ih _

variable {e₁ : CondExpr .unit} {e₂ e₁' : CondExpr .conj} {e₂' : CondExpr .disj} {lines lines' : ℕ}

theorem code_and : (and e₁ lines lines' e₂).code = fun n ↦
    wcbCond .and (e₁.code n ++ e₂.code (n + e₁.pats)).length ::
      (e₁.code n ++ e₂.code (n + e₁.pats)) := by
  funext n
  rw [code, length_append, code_length, code_length]

theorem code_or : (or e₁' lines lines' e₂').code = fun n ↦
    wcbCond .or (e₁'.code n ++ e₂'.code (n + e₁'.pats)).length ::
      (e₁'.code n ++ e₂'.code (n + e₁'.pats)) := by
  funext n
  rw [code, length_append, code_length, code_length]

end CondExpr

/-- What can stand behind a condition. -/
def CondTok.Ends (tok : CondTok) : CondLevel → Prop
  | .unit => tok.EndsPrim
  | .conj => tok = .dbar ∨ tok = .outpar ∨ tok = .doutbrack
  | .disj => tok = .outpar ∨ tok = .doutbrack

theorem CondTok.Ends.prim {tok : CondTok} {level : CondLevel} (h : tok.Ends level) :
    tok.EndsPrim := by
  cases level with
  | unit => exact h
  | conj => exact .inr h
  | disj => exact .inr (.inr h)

theorem CondTok.EndsPrim.ne_seper {tok : CondTok} (h : tok.EndsPrim) : tok ≠ .seper false := by
  rintro rfl
  simp [EndsPrim] at h

namespace CondParser

/-- The function for a level. -/
def parse : CondLevel → ℕ → CondParser → Option (CondParser × Bool)
  | .unit => parCond2
  | .conj => parCond1
  | .disj => parCond

/-- How many turns a function needs less than `par_cond`. -/
def slack : CondLevel → ℕ
  | .unit => 2
  | .conj => 1
  | .disj => 0

variable (p : CondParser) (l : List CondWord) (w : CondWord)

theorem skipSeps_fields : p.skipSeps.code = p.code ∧ p.skipSeps.npats = p.npats := by
  have hfrom (p : CondParser) (rest : List _) :
      (p.skipSepsFrom rest).code = p.code ∧ (p.skipSepsFrom rest).npats = p.npats := by
    induction rest generalizing p with
    | nil =>
      rw [skipSepsFrom]
      split_ifs <;> exact ⟨rfl, rfl⟩
    | cons token rest ih =>
      rw [skipSepsFrom]
      split_ifs
      · exact ih _
      · exact ⟨rfl, rfl⟩
  rw [skipSeps]
  cases p.source with
  | shell rest => exact hfrom p rest
  | test cur args => exact ⟨rfl, rfl⟩

theorem skipSeps_ecset (start : ℕ) (w : CondWord) :
    (p.ecset start w).skipSeps = p.skipSeps.ecset start w := by
  have hfrom (p : CondParser) (rest : List _) :
      (p.ecset start w).skipSepsFrom rest = (p.skipSepsFrom rest).ecset start w := by
    induction rest generalizing p with
    | nil =>
      rw [skipSepsFrom, skipSepsFrom]
      by_cases htok : p.tok = .seper false
      · rw [if_pos htok]
        exact if_pos htok
      · rw [if_neg htok]
        exact if_neg htok
    | cons token rest ih =>
      rw [skipSepsFrom, skipSepsFrom]
      have hnext := ih { p with tok := token.1, tokstr := token.2, source := .shell rest }
      by_cases htok : p.tok = .seper false
      · rw [if_pos htok, ← hnext]
        exact if_pos htok
      · rw [if_neg htok]
        exact if_neg htok
  have hkept : (p.ecset start w).source = p.source := rfl
  rw [skipSeps, skipSeps, hkept]
  cases p.source with
  | shell rest => exact hfrom p rest
  | test cur args => rfl

/-! ## Reading a condition -/

/-- Parsers at one place, each with the code emitted so far. -/
structure Cursor (place : List CondWord → ℕ → CondParser) : Prop where
  code : ∀ c n, (place c n).code = c
  emit : ∀ c n words pats, (place c n).emit words pats = place (c ++ words) (n + pats)

theorem emit_ecinsert (pats : ℕ) :
    (p.emit l pats).ecinsert p.code.length w = p.emit (w :: l) pats := by
  have hcode : (p.code ++ l).take p.code.length ++ w :: (p.code ++ l).drop p.code.length =
      p.code ++ w :: l := by
    rw [take_left, drop_left]
  exact congrArg (fun code ↦ { p with code := code, npats := p.npats + pats }) hcode

/-- The word of a connective is stored when both conditions are there. -/
theorem emit_ecset (w' : CondWord) (pats : ℕ) :
    (p.emit (w :: l) pats).ecset p.code.length w' = p.emit (w' :: l) pats := by
  have hset : (p.code ++ w :: l).set p.code.length w' = p.code ++ w' :: l := by
    rw [set_append_right _ _ le_rfl, Nat.sub_self, set_cons_zero]
  exact congrArg (fun code ↦ { p with code := code, npats := p.npats + pats }) hset

theorem emit_skip (pats : ℕ) :
    (p.emit (w :: l) pats).code.length - 1 - p.code.length = l.length := by
  change (p.code ++ w :: l).length - 1 - p.code.length = l.length
  rw [length_append, length_cons]
  omega

/-- The level of the conditions that a connective joins. -/
def below : CondLevel → CondLevel
  | .disj => .conj
  | _ => .unit

/-- The connective of a level. -/
def connective : CondLevel → CondTok × CondType
  | .disj => (.dbar, .or)
  | _ => (.damper, .and)

theorem ends_below {tok : CondTok} {level : CondLevel} (h : tok.Ends level) :
    tok.Ends (below level) := by
  cases level with
  | unit => exact h
  | conj => exact .inr h
  | disj => exact .inr h

theorem parse_succ {level : CondLevel} (hlevel : level ≠ .unit) (turns : ℕ) (p : CondParser) :
    parse level (turns + 1) p =
      match parse (below level) turns p with
      | none => none
      | some (q, r) =>
        if q.skipSeps.tok = (connective level).1 then
          match parse level turns (q.skipSeps.nextWord.ecinsert p.code.length
              (wcbCond (connective level).2 0)) with
          | none => none
          | some (q, _) => some (q.ecset p.code.length
              (wcbCond (connective level).2 (q.code.length - 1 - p.code.length)), true)
        else some (q.skipSeps, r) := by
  cases level with
  | unit => exact absurd rfl hlevel
  | conj => rfl
  | disj => rfl

/-- The parser gets from one place to another, but for line breaks, and emits code. -/
def Reads (level : CondLevel) (turns : ℕ) (before after : List CondWord → ℕ → CondParser)
    (code : ℕ → List CondWord) (pats : ℕ) : Prop :=
  ∀ c n, ∃ q, parse level turns (before c n) = some (q, true) ∧
    q.skipSeps = after (c ++ code n) (n + pats)

namespace Reads

variable {level : CondLevel} {turns : ℕ} {before inner middle next after : List CondWord → ℕ → CondParser}
  {code code' : ℕ → List CondWord} {pats pats' : ℕ}

theorem last (hlevel : level ≠ .unit) (h : Reads (below level) turns before after code pats)
    (hskip : ∀ c n, (after c n).skipSeps = after c n)
    (htok : ∀ c n, (after c n).tok ≠ (connective level).1) :
    Reads level (turns + 1) before after code pats := by
  intro c n
  obtain ⟨q, hq, hend⟩ := h c n
  refine ⟨q.skipSeps, ?_, by rw [hend, hskip]⟩
  rw [parse_succ hlevel, hq]
  exact if_neg (hend ▸ htok _ _)

theorem connect (level : CondLevel) (hlevel : level ≠ .unit) (hbefore : Cursor before) (hnext : Cursor next)
    (hafter : Cursor after) (h : Reads (below level) turns before middle code pats)
    (htok : ∀ c n, (middle c n).tok = (connective level).1)
    (hword : ∀ c n, (middle c n).nextWord = next c n)
    (h' : Reads level turns next after code' pats') :
    Reads level (turns + 1) before after (fun n ↦ wcbCond (connective level).2
      (code n ++ code' (n + pats)).length :: (code n ++ code' (n + pats))) (pats + pats') := by
  intro c n
  obtain ⟨q, hq, hend⟩ := h c n
  obtain ⟨q', hq', hend'⟩ := h' (c ++ wcbCond (connective level).2 0 :: code n) (n + pats)
  have hinsert := emit_ecinsert (next c n) (code n) (wcbCond (connective level).2 0) pats
  rw [hnext.code, hnext.emit, hnext.emit] at hinsert
  have hall : q'.skipSeps = (after c n).emit (wcbCond (connective level).2 0 ::
      (code n ++ code' (n + pats))) (pats + pats') := by
    rw [hend', hafter.emit, append_assoc, cons_append, Nat.add_assoc]
  have hskip : q'.code.length - 1 - c.length = (code n ++ code' (n + pats)).length := by
    have hlength := emit_skip (after c n) (code n ++ code' (n + pats))
      (wcbCond (connective level).2 0) (pats + pats')
    rw [hafter.code] at hlength
    rw [← (skipSeps_fields q').1, hall, hlength]
  refine ⟨q'.ecset c.length (wcbCond (connective level).2 (q'.code.length - 1 - c.length)), ?_, ?_⟩
  · rw [parse_succ hlevel, hq, hbefore.code]
    refine (if_pos (hend ▸ htok _ _)).trans ?_
    rw [hend, hword, hinsert, hq']
  · have hset := emit_ecset (after c n) (code n ++ code' (n + pats))
      (wcbCond (connective level).2 0) (wcbCond (connective level).2
        (code n ++ code' (n + pats)).length) (pats + pats')
    rw [hafter.code, hafter.emit c n (wcbCond _ (code n ++ code' (n + pats)).length :: _)] at hset
    rw [skipSeps_ecset, hskip, hall, hset]

theorem bang (h : Reads .unit turns inner after code pats)
    (hstep : ∀ c n, parCond2 (turns + 1) (before c n) =
      parCond2 turns (inner (c ++ [wcbCond .not 0]) n)) :
    Reads .unit (turns + 1) before after (fun n ↦ wcbCond .not 0 :: code n) pats := by
  intro c n
  obtain ⟨q, hq, hend⟩ := h (c ++ [wcbCond .not 0]) n
  exact ⟨q, (hstep c n).trans hq, by rw [hend, append_assoc]; rfl⟩

theorem paren (h : Reads .disj turns inner middle code pats)
    (hstep : ∀ c n, parCond2 (turns + 1) (before c n) =
      match parCond turns (inner c n) with
      | none => none
      | some (p, r) =>
        some (if p.skipSeps.tok = .outpar then (p.skipSeps.condlex, r) else p.skipSeps.yyerror))
    (htok : ∀ c n, (middle c n).tok = .outpar)
    (hlex : ∀ c n, (middle c n).condlex.skipSeps = after c n) :
    Reads .unit (turns + 1) before after code pats := by
  intro c n
  obtain ⟨q, hq, hend⟩ := h c n
  change parCond turns _ = _ at hq
  refine ⟨q.skipSeps.condlex, (hstep c n).trans ?_, by rw [hend, hlex]⟩
  rw [hq]
  exact congrArg some (if_pos (hend ▸ htok _ _))

end Reads

section

variable {posix : Bool} {rest more : List (CondTok × Option Bytes)} {code : List CondWord}
  {npats : ℕ} {tok : CondTok} {tokstr : Option Bytes} (text : CondTok → Option Bytes)

theorem cursor_shell (tokens : List (CondTok × Option Bytes)) : Cursor (shell posix tokens) :=
  ⟨fun _ _ ↦ rfl, fun _ _ _ _ ↦ rfl⟩

/-- A condition does not begin with a line break. -/
theorem skipSeps_tokens {level : CondLevel} (e : CondExpr level) :
    (shell posix (e.tokens text ++ rest) code npats).skipSeps =
      shell posix (e.tokens text ++ rest) code npats := by
  induction e generalizing rest with
  | prim p => cases p <;> exact skipSeps_string
  | bang lines e ih => exact skipSeps_token (by decide)
  | paren lines lines' e ih => exact skipSeps_token (by decide)
  | unit e ih => exact ih
  | conj e ih => exact ih
  | and e lines lines' e' ih ih' | or e lines lines' e' ih ih' =>
    rw [CondExpr.tokens, append_assoc]
    exact ih

theorem skipSeps_before {level : CondLevel} (j : ℕ) (e : CondExpr level) :
    (shell posix (lineBreaks text j ++ (e.tokens text ++ rest)) code npats).skipSeps =
      shell posix (e.tokens text ++ rest) code npats := by
  rw [skipSeps_lineBreaks, skipSeps_tokens]

theorem parCond2_shell (turns j : ℕ) (e : CondExpr .unit) {p : CondParser}
    (hp : shell posix (e.tokens text ++ rest) code npats = p) :
    (shell posix (lineBreaks text j ++ (e.tokens text ++ rest)) code npats).parCond2 (turns + 1) =
      if p.tok = .bang then parCond2 turns (p.condlex.ecadd (wcbCond .not 0))
      else if p.tok = .inpar then
        match parCond turns p.nextWord with
        | none => none
        | some (p, r) =>
          some (if p.skipSeps.tok = .outpar then (p.skipSeps.condlex, r) else p.skipSeps.yyerror)
      else p.parCondWords 0 := by
  have hbangs : (shell posix (lineBreaks text j ++ (e.tokens text ++ rest)) code
      npats).bangString = false := rfl
  rw [parCond2]
  simp only [skipSeps_before, hp, hbangs, Bool.false_eq_true, not_false_eq_true, and_true]
  rfl

theorem reads_shell {level : CondLevel} (e : CondExpr level) (he : e.All CondPrim.InShell)
    (htok : tok.Ends level) (hmore : Reaches posix more ((tok, tokstr) :: rest)) (turns j : ℕ)
    (hturns : 3 * (e.tokens text).length ≤ turns + slack level) :
    Reads level turns (shell posix (lineBreaks text j ++ (e.tokens text ++ more)))
      (shell posix ((tok, tokstr) :: rest)) e.code e.pats := by
  induction e generalizing tok tokstr rest more turns j with
  | prim p =>
    have hpos := (CondExpr.prim p).tokens_pos text
    rw [slack] at hturns
    obtain ⟨turns, rfl⟩ : ∃ k, turns = k + 1 := ⟨turns - 1, by omega⟩
    intro c n
    refine ⟨_, (parCond2_shell text turns j (.prim p) rfl).trans ?_,
      skipSeps_token htok.prim.ne_seper⟩
    have hstring : (shell posix ((CondExpr.prim p).tokens text ++ more) c n).tok = .string := by
      cases p <;> rfl
    rw [if_neg (by rw [hstring]; decide), if_neg (by rw [hstring]; decide)]
    exact parCondWords_shell text hmore p he htok.prim
  | bang lines e ih =>
    rw [CondExpr.tokens, length_cons, length_append, slack] at hturns
    obtain ⟨turns, rfl⟩ : ∃ k, turns = k + 1 := ⟨turns - 1, by omega⟩
    refine (ih he htok hmore turns lines (by rw [slack]; omega)).bang fun c n ↦ ?_
    refine (parCond2_shell text turns j (.bang lines e) rfl).trans ((if_pos rfl).trans ?_)
    rw [CondExpr.tokens, cons_append, condlex_shell, append_assoc]
    rfl
  | paren lines lines' e ih =>
    simp only [CondExpr.tokens, length_cons, length_append, slack] at hturns
    obtain ⟨turns, rfl⟩ : ∃ k, turns = k + 1 := ⟨turns - 1, by omega⟩
    have hnext (c : List CondWord) (n : ℕ) :
        (shell posix ((CondExpr.paren lines lines' e).tokens text ++ more) c n).nextWord =
          shell posix (lineBreaks text 0 ++ (e.tokens text ++ (lineBreaks text lines' ++
            (.outpar, text .outpar) :: more))) c n := by
      rw [CondExpr.tokens, cons_append, nextWord_shell, append_assoc,
        skipSeps_lineBreaks, append_assoc, skipSeps_tokens, append_assoc]
      rfl
    have hinner := ih he (.inl rfl) (reaches_lineBreaks more (text .outpar) text lines' (by decide)) turns 0 (by omega)
    refine hinner.paren (fun c n ↦ ?_) (fun c n ↦ rfl) fun c n ↦ ?_
    · rw [← hnext]
      exact (parCond2_shell text turns j (.paren lines lines' e) rfl).trans
        ((if_neg nofun).trans (if_pos rfl))
    · rw [condlex_shell, hmore]
  | unit e ih | conj e ih =>
    rw [CondExpr.tokens, slack] at hturns
    have hpos := e.tokens_pos text
    obtain ⟨turns, rfl⟩ : ∃ k, turns = k + 1 := ⟨turns - 1, by omega⟩
    refine (ih he (ends_below htok) hmore turns j (by rw [slack]; omega)).last nofun (fun c n ↦ skipSeps_token htok.prim.ne_seper)
      fun c n ↦ ?_
    rintro rfl
    simp [CondTok.Ends, connective] at htok
  | and e lines lines' e' ih ih' =>
    simp only [CondExpr.tokens, length_append, length_cons, slack] at hturns
    obtain ⟨turns, rfl⟩ : ∃ k, turns = k + 1 := ⟨turns - 1, by omega⟩
    have hfirst := ih he.1 (.inl rfl) (reaches_lineBreaks (lineBreaks text lines' ++ (e'.tokens text ++ more))
      (text .damper) text lines (by decide)) turns j
      (by omega)
    have hall := hfirst.connect .conj nofun (cursor_shell _)
      (cursor_shell (e'.tokens text ++ more)) (cursor_shell _) (fun _ _ ↦ rfl)
      (fun _ _ ↦ nextWord_shell.trans (skipSeps_before text lines' e'))
      (ih' he.2 htok hmore turns 0 (by omega))
    rw [CondExpr.code_and, CondExpr.tokens, append_assoc, append_assoc, cons_append,
      append_assoc]
    exact hall
  | or e lines lines' e' ih ih' =>
    simp only [CondExpr.tokens, length_append, length_cons, slack] at hturns
    obtain ⟨turns, rfl⟩ : ∃ k, turns = k + 1 := ⟨turns - 1, by omega⟩
    have hfirst := ih he.1 (.inl rfl) (reaches_lineBreaks (lineBreaks text lines' ++ (e'.tokens text ++ more))
      (text .dbar) text lines (by decide)) turns j
      (by omega)
    have hall := hfirst.connect .disj nofun (cursor_shell _)
      (cursor_shell (e'.tokens text ++ more)) (cursor_shell _) (fun _ _ ↦ rfl)
      (fun _ _ ↦ nextWord_shell.trans (skipSeps_before text lines' e'))
      (ih' he.2 htok hmore turns 0 (by omega))
    rw [CondExpr.code_or, CondExpr.tokens, append_assoc, append_assoc, cons_append,
      append_assoc]
    exact hall

end

theorem skipSeps_skipSeps : p.skipSeps.skipSeps = p.skipSeps := by
  have hfrom (rest : List _) (p : CondParser)
      (hp : p.source = .shell rest) : (p.skipSepsFrom rest).skipSeps = p.skipSepsFrom rest := by
    induction rest generalizing p with
    | nil =>
      rw [skipSepsFrom]
      split_ifs with htok
      · rfl
      · rw [skipSeps, hp]
        exact if_neg htok
    | cons token rest ih =>
      rw [skipSepsFrom]
      split_ifs with htok
      · exact ih _ rfl
      · rw [skipSeps, hp]
        exact if_neg htok
  cases hsource : p.source with
  | shell rest =>
    have hskip : p.skipSeps = p.skipSepsFrom rest := by rw [skipSeps, hsource]
    rw [hskip]
    exact hfrom rest p hsource
  | test cur args =>
    have hskip : p.skipSeps = p := by rw [skipSeps, hsource]
    rw [hskip, hskip]

/-- `par_cond` reads the line breaks behind the condition. -/
theorem parCond_skipSeps {turns : ℕ} {p q : CondParser} {r : Bool}
    (h : parCond turns p = some (q, r)) : q.skipSeps = q := by
  induction turns generalizing p q r with
  | zero => cases h
  | succ turns ih =>
    change parse .disj (turns + 1) p = _ at h
    rw [parse_succ (nofun : CondLevel.disj ≠ .unit)] at h
    split at h
    · exact nomatch h
    split_ifs at h with hdbar
    · split at h
      · exact nomatch h
      next hsecond =>
        cases h
        rw [skipSeps_ecset, ih hsecond]
    · cases h
      exact skipSeps_skipSeps _

/-- A condition of `[[ ]]` is read up to the closing brackets. -/
theorem parDinbrack_shell (text : CondTok → Option Bytes) (e : CondExpr .disj)
    (he : e.All CondPrim.InShell) (posix : Bool) (code : List CondWord) (npats j lines : ℕ)
    (rest : List (CondTok × Option Bytes)) (token : CondTok × Option Bytes)
    (tokstr : Option Bytes) :
    (shell posix (token :: (lineBreaks text j ++ (e.tokens text ++
        (lineBreaks text lines ++ (.doutbrack, tokstr) :: rest)))) code npats).parDinbrack =
      some (shell posix rest (code ++ e.code npats) (npats + e.pats), true) := by
  have hturns : 3 * (e.tokens text).length ≤ (shell posix (lineBreaks text j ++ (e.tokens text ++
      (lineBreaks text lines ++ (.doutbrack, tokstr) :: rest))) code npats).turns + slack .disj := by
    have hleft : (e.tokens text).length ≤ (lineBreaks text j ++ (e.tokens text ++
        (lineBreaks text lines ++ (.doutbrack, tokstr) :: rest))).tail.length + 2 := by
      simp only [length_tail, length_append]
      omega
    exact Nat.mul_le_mul_left 3 hleft
  obtain ⟨q, hq, hend⟩ := reads_shell text e he (.inr rfl) (reaches_lineBreaks rest tokstr text lines
    (by decide)) _ j hturns code npats
  change parCond _ _ = _ at hq
  rw [parCond_skipSeps hq] at hend
  rw [parDinbrack, condlex_shell, hq, hend]
  refine congrArg some ((if_pos rfl).trans ?_)
  rw [condlex_shell]

end CondParser

end Bsh.Shell
