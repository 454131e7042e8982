import Bsh.Shell.Arith

/-!
# The values on the stack

How many values are on the stack is nowhere recorded.  It follows from the alternation of operands
and operators: before a token that belongs to an operand there are as many values as at the start of
the expression, and before any other token there is one more.  So every reduction finds its
operands, and an expression without an error leaves one value.
-/

namespace Bsh.Shell.Arith

open Bsh.Library

variable {S F V : Type}

/-! ## What an operation leaves alone -/

/-- The reader, the level of `noeval` and an error that has been raised stay. -/
structure Frame (s r : ArithState S F V) : Prop where
  ptr : r.ptr = s.ptr
  mtok : r.mtok = s.mtok
  unary : r.unary = s.unary
  noeval : r.noeval = s.noeval
  errflag : s.errflag.isSome = true → r.errflag = s.errflag

namespace Frame

theorem refl (s : ArithState S F V) : Frame s s := ⟨rfl, rfl, rfl, rfl, fun _ ↦ rfl⟩

theorem trans {s t r : ArithState S F V} (h : Frame s t) (h' : Frame t r) : Frame s r where
  ptr := h'.ptr.trans h.ptr
  mtok := h'.mtok.trans h.mtok
  unary := h'.unary.trans h.unary
  noeval := h'.noeval.trans h.noeval
  errflag herr := by
    have ht : t.errflag = s.errflag := h.errflag herr
    exact (h'.errflag (ht ▸ herr)).trans ht

theorem errflag_none {s r : ArithState S F V} (h : Frame s r) (hr : r.errflag = none) :
    s.errflag = none := by
  cases hs : s.errflag with
  | none => rfl
  | some e =>
    have hsame := h.errflag (by rw [hs]; rfl)
    rw [hr, hs] at hsame
    cases hsame

theorem withStack {s r : ArithState S F V} (h : Frame s r) (stack : ValueStack F V) :
    Frame s { r with stack := stack } := ⟨h.ptr, h.mtok, h.unary, h.noeval, h.errflag⟩

end Frame

theorem or_of_isSome {α : Type} {a b : Option α} (h : a.isSome = true) : a.or b = a := by
  cases a with
  | none => cases h
  | some _ => rfl

theorem frame_zerr (s : ArithState S F V) (e : ArithError) : Frame s (s.zerr e) :=
  ⟨rfl, rfl, rfl, rfl, or_of_isSome⟩

theorem zerr_isSome (s : ArithState S F V) (e : ArithError) : (s.zerr e).errflag.isSome = true := by
  unfold ArithState.zerr
  cases s.errflag with
  | none => rfl
  | some _ => rfl

theorem frame_after (s : ArithState S F V) (error : Option Bytes) (world : World S) :
    Frame s (s.after error world) := ⟨rfl, rfl, rfl, rfl, or_of_isSome⟩

variable (host : Host S F V)

theorem fetch_spec (pval : V) (s : ArithState S F V) :
    Frame s (fetch host pval s).2 ∧ (fetch host pval s).2.stack = s.stack := by
  exact ⟨frame_after s _ _, rfl⟩

theorem getmathparam_spec (mptr : MathValue F V) (s : ArithState S F V) :
    Frame s (getmathparam host mptr s).2.2 ∧ (getmathparam host mptr s).2.2.stack = s.stack := by
  unfold getmathparam
  cases mptr.pval with
  | some pval => exact fetch_spec host pval s
  | none =>
    obtain ⟨found, error, world, hget⟩ : ∃ found error world,
        host.getvalue (mptr.lval.getD []) s.world = (found, error, world) := ⟨_, _, _, rfl⟩
    have hafter : Frame s (s.after error world) := frame_after s error world
    simp only [hget]
    cases found with
    | none =>
      cases host.unsetIsZero with
      | true => exact ⟨hafter, rfl⟩
      | false => exact ⟨hafter.trans (frame_zerr _ _), rfl⟩
    | some pval =>
      obtain ⟨hfetch, hstack⟩ := fetch_spec host pval _
      dsimp only
      split
      · exact ⟨hafter, rfl⟩
      · exact ⟨hafter.trans hfetch, hstack⟩

theorem retrieve_spec (mv : MathValue F V) (s : ArithState S F V) :
    Frame s (retrieve host mv s).2 ∧ (retrieve host mv s).2.stack = s.stack := by
  unfold retrieve
  split
  · exact ⟨.refl s, rfl⟩
  · exact getmathparam_spec host mv s

theorem setmathvar_spec (mvp : MathValue F V) (v : Mnumber F) (s : ArithState S F V) :
    Frame s (setmathvar host mvp v s).2 ∧ (setmathvar host mvp v s).2.stack = s.stack := by
  unfold setmathvar
  dsimp only
  split
  · split
    · exact ⟨.refl s, rfl⟩
    · exact ⟨frame_after s _ _, rfl⟩
  · split
    · exact ⟨frame_zerr s _, rfl⟩
    · split
      · exact ⟨.refl s, rfl⟩
      · exact ⟨frame_after s _ _, rfl⟩

/-! ## The depth of the stack -/

/-- The number of values on the stack; `sp` is one less. -/
def ArithState.depth (s : ArithState S F V) : ℕ := s.stack.values.length

variable {base noeval pc : ℕ} {log : List (MathToken × ArithState S F V)}
  {r s t : ArithState S F V} {tok what : MathToken}

theorem depth_withTop (h : 0 < s.depth) (mv : MathValue F V) :
    (s.stack.withTop mv).values.length = s.depth := by
  unfold ArithState.depth at h ⊢
  rw [ValueStack.withTop, List.length_cons, List.length_tail]
  omega

theorem push_spec (val : Option (Mnumber F)) (lval : Option Bytes) (s : ArithState S F V) :
    Frame s (push val lval s) ∧
      ((push val lval s).errflag = none → (push val lval s).depth = s.depth + 1) := by
  unfold push
  split
  · exact ⟨.withStack (.refl s) _, fun _ ↦ rfl⟩
  · refine ⟨.trans (.withStack (.refl s) _) (frame_zerr _ _), fun hnone ↦ ?_⟩
    have hsome := zerr_isSome { s with stack := s.stack.withTop ⟨lval, none, val⟩ }
      (.math .stackOverflow)
    rw [hnone] at hsome
    cases hsome

theorem pop_spec (noget : Bool) (h : 0 < s.depth) :
    ∃ v mv r, pop host noget s = .ok (v, mv, r) ∧ Frame s r ∧ r.depth + 1 = s.depth := by
  unfold ArithState.depth at h ⊢
  unfold pop
  cases hvalues : s.stack.values with
  | nil =>
    rw [hvalues] at h
    exact absurd h (Nat.lt_irrefl 0)
  | cons mv values =>
    dsimp only
    cases noget with
    | true =>
      refine ⟨_, _, _, rfl, .withStack (.refl s) _, ?_⟩
      simp [ValueStack.rest, hvalues]
    | false =>
      obtain ⟨hframe, hstack⟩ := retrieve_spec host mv s
      refine ⟨_, _, _, rfl, .withStack hframe _, ?_⟩
      rw [if_neg Bool.false_ne_true, hstack]
      simp [ValueStack.rest, hvalues]

theorem retrieveTop_spec (h : 0 < s.depth) :
    ∃ mv r, retrieveTop host s = .ok (mv, r) ∧ Frame s r ∧ r.depth = s.depth := by
  unfold retrieveTop
  cases hvalues : s.stack.values with
  | nil =>
    rw [ArithState.depth, hvalues] at h
    exact absurd h (Nat.lt_irrefl 0)
  | cons mv values =>
    obtain ⟨hframe, hstack⟩ := retrieve_spec host mv s
    refine ⟨_, _, rfl, .withStack hframe _, ?_⟩
    have hdepth : 0 < (retrieve host mv s).2.depth := by
      rw [ArithState.depth, hstack]
      exact h
    calc
      _ = (retrieve host mv s).2.depth := depth_withTop hdepth _
      _ = s.depth := by rw [ArithState.depth, hstack, ArithState.depth]

/-! ## Reductions -/

/-- The number of values that the reduction of an operator takes. -/
def operands (what : MathToken) : ℕ :=
  match what.type.kind with
  | .none | .op => if what = .quest then 3 else 1
  | _ => 2

/-- What a reduction leaves. -/
structure Reduces (what : MathToken) (s r : ArithState S F V) : Prop where
  frame : Frame s r
  depth : r.errflag = none → r.depth + operands what = s.depth + 1

theorem replaceTop_spec (h : Frame s t) (hstack : t.stack = s.stack)
    (hdepth : 0 < s.depth) (number : Mnumber F) :
    Frame s (replaceTop number t) ∧ (replaceTop number t).depth = s.depth := by
  refine ⟨.withStack h _, ?_⟩
  have ht : 0 < t.depth := by
    rw [ArithState.depth, hstack]
    exact hdepth
  calc
    (replaceTop number t).depth = t.depth := depth_withTop ht _
    _ = s.depth := by rw [ArithState.depth, hstack, ArithState.depth]

theorem unarySwitch_spec (hquest : what ≠ .quest) (mv : MathValue F V)
    (a : Mnumber F) (h : 0 < s.depth) :
    ∃ r, unarySwitch host what mv a s = .ok r ∧ Frame s r ∧ r.depth = s.depth := by
  have hkeep (number : Mnumber F) := replaceTop_spec (.refl s) rfl h number
  have hset (number v : Mnumber F) :=
    replaceTop_spec (setmathvar_spec host mv v s).1 (setmathvar_spec host mv v s).2 h number
  cases what with
  | quest => exact absurd rfl hquest
  | not => exact ⟨_, rfl, hkeep _⟩
  | comp => exact ⟨_, rfl, hkeep _⟩
  | postplus => exact ⟨_, rfl, hset _ _⟩
  | postminus => exact ⟨_, rfl, hset _ _⟩
  | uplus => exact ⟨_, rfl, hkeep _⟩
  | uminus => exact ⟨_, rfl, hkeep _⟩
  | colon => exact ⟨_, rfl, replaceTop_spec (frame_zerr s _) rfl h _⟩
  | preplus => exact ⟨_, rfl, hset _ _⟩
  | preminus => exact ⟨_, rfl, hset _ _⟩
  | _ => exact ⟨_, rfl, frame_zerr s _, rfl⟩

theorem questSwitch_spec (mv : MathValue F V) (a : Mnumber F)
    (h : 3 ≤ s.depth) :
    ∃ r, unarySwitch host .quest mv a s = .ok r ∧ Reduces .quest s r := by
  obtain ⟨c, _, s₁, hpop₁, hframe₁, hdepth₁⟩ := pop_spec host false (s := s) (by omega)
  obtain ⟨b, _, s₂, hpop₂, hframe₂, hdepth₂⟩ := pop_spec host false (s := s₁) (by omega)
  obtain ⟨a', _, s₃, hpop₃, hframe₃, hdepth₃⟩ := pop_spec host false (s := s₂) (by omega)
  have hframe : Frame s s₃ := (hframe₁.trans hframe₂).trans hframe₃
  unfold unarySwitch
  rw [hpop₁]
  dsimp only
  rw [hpop₂]
  dsimp only
  rw [hpop₃]
  dsimp only
  by_cases herr : s₃.errflag.isSome = true
  · rw [if_pos herr]
    refine ⟨s₃, rfl, hframe, fun hnone ↦ ?_⟩
    rw [hnone] at herr
    cases herr
  · rw [if_neg herr]
    obtain ⟨hpush, hlength⟩ := push_spec none none s₃
    refine ⟨_, rfl, hframe.trans (.withStack hpush _), fun hnone ↦ ?_⟩
    have hdepth : (push none none s₃).depth = s₃.depth + 1 := hlength hnone
    have htop : 0 < (push none none s₃).depth := by omega
    have hreplaced := depth_withTop htop (⟨none, none, some ((if (a'.getD zeroMnumber).truth
      host.numerics then b else c).getD zeroMnumber)⟩ : MathValue F V)
    calc
      _ = (push none none s₃).depth + 3 := congrArg (· + 3) hreplaced
      _ = s.depth + 1 := by omega

theorem binaryOp_spec (h : 2 ≤ s.depth) :
    ∃ r, binaryOp host what s = .ok r ∧ Frame s r ∧
      (r.errflag = none → r.depth + 1 = s.depth) := by
  obtain ⟨b, _, s₁, hpop₁, hframe₁, hdepth₁⟩ := pop_spec host false (s := s) (by omega)
  obtain ⟨a, mvp, s₂, hpop₂, hframe₂, hdepth₂⟩ :=
    pop_spec host _ (s := s₁) (by omega)
  have hframe : Frame s s₂ := hframe₁.trans hframe₂
  unfold binaryOp
  rw [hpop₁]
  dsimp only
  rw [hpop₂]
  dsimp only
  by_cases herr : s₂.errflag.isSome = true
  · rw [if_pos herr]
    refine ⟨s₂, rfl, hframe, fun hnone ↦ ?_⟩
    rw [hnone] at herr
    cases herr
  · rw [if_neg herr]
    split
    · next e _ =>
      refine ⟨_, rfl, hframe.trans (frame_zerr s₂ e), fun hnone ↦ ?_⟩
      have hsome := zerr_isSome s₂ e
      rw [hnone] at hsome
      cases hsome
    · next c _ =>
      split
      · obtain ⟨hset, hstack⟩ := setmathvar_spec host mvp c s₂
        obtain ⟨hpush, hdepth⟩ := push_spec (some _) mvp.lval
          _
        refine ⟨_, rfl, hframe.trans (hset.trans hpush), fun hnone ↦ ?_⟩
        have hpushed := hdepth hnone
        have hsame : (setmathvar host mvp c s₂).2.depth = s₂.depth := by
          rw [ArithState.depth, hstack, ArithState.depth]
        omega
      · obtain ⟨hpush, hdepth⟩ := push_spec (some c) none s₂
        refine ⟨_, rfl, hframe.trans hpush, fun hnone ↦ ?_⟩
        have hpushed := hdepth hnone
        omega

theorem unaryOp_spec (hone : operands what = if what = .quest then 3 else 1) (h : operands what ≤ s.depth) :
    ∃ r, unaryOp host what s = .ok r ∧ Reduces what s r := by
  have hpos : 0 < s.depth := by
    split at hone
    · omega
    · omega
  obtain ⟨mv, t, htop, hframe, hdepth⟩ := retrieveTop_spec host hpos
  unfold unaryOp
  rw [htop]
  dsimp only
  by_cases hsome : t.errflag.isSome = true
  · rw [if_pos hsome]
    refine ⟨t, rfl, hframe, fun hnone ↦ ?_⟩
    rw [hnone] at hsome
    cases hsome
  · rw [if_neg hsome]
    by_cases hquest : what = .quest
    · rw [if_pos hquest] at hone
      subst hquest
      obtain ⟨r, hr, hreduces⟩ :=
        questSwitch_spec host mv _ (s := t) (by omega)
      refine ⟨r, hr, hframe.trans hreduces.frame, fun hnone ↦ ?_⟩
      rw [← hdepth]
      exact hreduces.depth hnone
    · rw [if_neg hquest] at hone
      obtain ⟨r, hr, hframe', hdepth'⟩ :=
        unarySwitch_spec host hquest mv _ (s := t) (by omega)
      refine ⟨r, hr, hframe.trans hframe', fun _ ↦ ?_⟩
      rw [hone, hdepth', hdepth]

theorem op_spec (herr : s.errflag = none)
    (h : operands what ≤ s.depth) : ∃ r, op host what s = .ok r ∧ Reduces what s r := by
  have hone : (what.type.kind = .none ∨ what.type.kind = .op) →
      operands what = if what = .quest then 3 else 1 := by
    rintro (hkind | hkind) <;> rw [operands, hkind]
  have htwo : ¬ (what.type.kind = .none ∨ what.type.kind = .op) → operands what = 2 := by
    intro hkind
    unfold operands
    split
    · next h => exact absurd (.inl h) hkind
    · next h => exact absurd (.inr h) hkind
    · rfl
  have hvalues : s.stack.values ≠ [] := by
    intro hnil
    rw [ArithState.depth, hnil] at h
    have hpos : 0 < operands what := by
      by_cases hkind : what.type.kind = .none ∨ what.type.kind = .op
      · rw [hone hkind]
        split
        · exact Nat.succ_pos 2
        · exact Nat.one_pos
      · rw [htwo hkind]
        exact Nat.two_pos
    exact absurd h (not_le.mpr hpos)
  have hbinary (hkind : ¬ (what.type.kind = .none ∨ what.type.kind = .op)) :
      ∃ r, binaryOp host what s = .ok r ∧ Reduces what s r := by
    have hoperands := htwo hkind
    obtain ⟨r, hr, hframe, hdepth⟩ := binaryOp_spec host (hoperands ▸ h)
    refine ⟨r, hr, hframe, fun hnone ↦ ?_⟩
    have hless := hdepth hnone
    omega
  unfold op
  rw [if_neg (by rw [herr]; exact Bool.false_ne_true), if_neg hvalues]
  split
  · next hkind => exact unaryOp_spec host (hone (.inl hkind)) h
  · next hkind => exact unaryOp_spec host (hone (.inr hkind)) h
  · next hnone hop => exact hbinary (not_or.mpr ⟨hnone, hop⟩)

theorem op_of_error (h : s.errflag.isSome = true) :
    op host what s = .ok s := by
  rw [op, if_pos h]

theorem bop_spec (tk : MathToken) (h : 0 < s.depth) :
    ∃ r noeval, bop host tk s = .ok { r with noeval := noeval } ∧ Frame s r ∧
      r.depth = s.depth := by
  obtain ⟨mv, r, htop, hframe, hdepth⟩ := retrieveTop_spec host h
  unfold bop
  rw [htop]
  dsimp only
  split
  · exact ⟨r, _, rfl, hframe, hdepth⟩
  · exact ⟨r, _, rfl, hframe, hdepth⟩
  · exact ⟨r, _, rfl, hframe, hdepth⟩
  · exact ⟨r, _, rfl, hframe, hdepth⟩
  · exact ⟨r, r.noeval, rfl, hframe, hdepth⟩

theorem pushOperand_spec (s : ArithState S F V) :
    Frame s (pushOperand host s) ∧
      ((pushOperand host s).errflag = none → (pushOperand host s).depth = s.depth + 1) := by
  have hcall (val : Option (Mnumber F)) (error : Option Bytes) (world : World S) :
      Frame s (push val (some s.yylval) (s.after error world)) ∧
        ((push val (some s.yylval) (s.after error world)).errflag = none →
          (push val (some s.yylval) (s.after error world)).depth = s.depth + 1) := by
    obtain ⟨hframe, hdepth⟩ := push_spec val (some s.yylval) _
    exact ⟨(frame_after s error world).trans hframe, hdepth⟩
  unfold pushOperand
  split
  · exact push_spec _ _ s
  · exact push_spec _ _ s
  · split
    · exact hcall _ _ _
    · exact push_spec _ _ s
  · split
    · exact hcall _ _ _
    · exact push_spec _ _ s

/-! ## Tokens and levels -/

/-- The precedence to which the right side of an operator is parsed. -/
def Host.level (tok : MathToken) : ℕ :=
  host.prec tok - if tok.type.assoc = .rl then 0 else 1

theorem prec_operand (h : tok.type.kind = .none) : host.prec tok ≤ 2 := by
  unfold Host.prec
  cases tok <;> first | (cases host.cPrecedences <;> decide) | cases h

/-- A token that the loop takes can not end the input or close a parenthesis. -/
theorem not_closing (hpc : pc ≤ host.topPrec)
    (h : host.prec tok ≤ pc) : tok ≠ .outpar ∧ tok ≠ .eoi := by
  have htop := h.trans hpc
  unfold Host.topPrec Host.prec at htop
  constructor
  · rintro rfl
    revert htop
    cases host.cPrecedences <;> decide
  · rintro rfl
    revert htop
    cases host.cPrecedences <;> decide

theorem two_le_topPrec : 2 ≤ host.topPrec := by
  unfold Host.topPrec Host.prec
  cases host.cPrecedences <;> decide

/-- The tokens that the loop takes as operators. -/
def isOperator : MathToken → Bool
  | .num | .id | .cid | .func | .inpar | .quest | .outpar | .eoi => false
  | _ => true

theorem level_operator (h : isOperator tok = true) :
    2 ≤ host.level tok ∧ host.level tok < host.topPrec := by
  unfold Host.level Host.topPrec Host.prec
  cases tok <;> first | (cases host.cPrecedences <;> decide) | cases h

theorem level_quest : 2 ≤ host.prec .colon - 1 ∧ host.prec .colon - 1 < host.topPrec ∧
    2 ≤ host.prec .quest ∧ host.prec .quest < host.topPrec := by
  unfold Host.topPrec Host.prec
  cases host.cPrecedences <;> decide

/-- An operator stands before its operand, behind it or between two; or it is a `:`. -/
theorem operator_shape (h : isOperator tok = true) :
    operands tok = 1 ∧ tok.type.kind = .none ∧ tok.type.opf = false ∨
      operands tok = 1 ∧ tok.type.kind = .op ∧ tok.type.opf = true ∨
      operands tok = 2 ∧ tok.type.kind ≠ .none ∧ tok.type.opf = false ∨ tok = .colon := by
  cases tok <;> first | decide | cases h

theorem kind_bool (h : tok.type.assoc = .bool) : tok.type.kind ≠ .none := by
  revert h
  cases tok <;> decide

/-! ## Before a token -/

/-- An expression that starts with `base` values expects an operand, or it has one. -/
def Expecting (base : ℕ) (s : ArithState S F V) : Prop :=
  s.depth = base + if s.unary then 0 else 1

/-- The token that has been read is where it may be. -/
structure Level (base : ℕ) (s : ArithState S F V) : Prop where
  unary : s.unary = !s.mtok.type.opf
  depth : s.depth = base + if s.mtok.type.kind = .none then 0 else 1

theorem checkunary_noeval (s : ArithState S F V) : (checkunary s).noeval = s.noeval := by
  unfold checkunary
  dsimp only
  split
  · split
    · rfl
    · rfl
  · split
    · rfl
    · rfl

theorem checkunary_level (h : Expecting base s)
    (herr : (checkunary s).errflag = none) : Level base (checkunary s) := by
  have hstop (s : ArithState S F V) (e : ArithError) : (s.zerr e).errflag ≠ none := by
    intro hnone
    have hsome := zerr_isSome s e
    rw [hnone] at hsome
    cases hsome
  unfold Expecting at h
  unfold checkunary at herr ⊢
  cases hunary : s.unary with
  | true =>
    rw [hunary] at h herr
    by_cases hkind : s.mtok.type.kind = .none
    · rw [if_neg (not_not.mpr hkind), if_pos rfl]
      exact ⟨rfl, by rw [if_pos hkind]; exact h⟩
    · rw [if_pos hkind, if_pos rfl] at herr
      exact absurd herr (hstop _ _)
  | false =>
    rw [hunary] at h herr
    by_cases hkind : s.mtok.type.kind = .none
    · rw [if_neg (not_not.mpr hkind), if_neg Bool.false_ne_true] at herr
      exact absurd herr (hstop _ _)
    · rw [if_pos hkind, if_neg Bool.false_ne_true]
      exact ⟨rfl, by rw [if_neg hkind]; exact h⟩

theorem nextToken_level (h : Expecting base s)
    (herr : (nextToken host s).errflag = none) : Level base (nextToken host s) :=
  checkunary_level (s := lex host s) h herr

theorem nextToken_noeval (s : ArithState S F V) : (nextToken host s).noeval = s.noeval :=
  checkunary_noeval _

theorem nextToken_errflag_none (h : (nextToken host s).errflag = none) :
    s.errflag = none := by
  cases hs : s.errflag with
  | none => rfl
  | some e =>
    have hlex : (lex host s).errflag = some e := by
      rw [lex, hs]
      rfl
    have hcheck : (checkunary (lex host s)).errflag = some e := by
      unfold checkunary
      dsimp only
      split
      · split
        · rw [ArithState.zerr, hlex]
          rfl
        · exact hlex
      · split
        · exact hlex
        · rw [ArithState.zerr, hlex]
          rfl
    rw [nextToken, hcheck] at h
    cases h

/-! ## The parser, case by case -/

section Equations

variable {host} {pc : ℕ} {s : ArithState S F V}

theorem mathloop_stop (h : pc < host.prec s.mtok ∨ s.errflag.isSome) (fuel : ℕ) :
    mathloop host (fuel + 1) pc s = .ok s := by
  rw [mathloop, if_pos h]

variable (h : ¬ (pc < host.prec s.mtok ∨ s.errflag.isSome))
include h

theorem mathloop_operand
    (htok : s.mtok = .num ∨ s.mtok = .id ∨ s.mtok = .cid ∨ s.mtok = .func) (fuel : ℕ) :
    mathloop host (fuel + 1) pc s = mathloop host fuel pc (nextToken host (pushOperand host s)) := by
  rw [mathloop, if_neg h]
  obtain htok | htok | htok | htok := htok
  · simp only [htok]
  · simp only [htok]
  · simp only [htok]
  · simp only [htok]

theorem mathloop_inpar (htok : s.mtok = .inpar) (fuel : ℕ) :
    mathloop host (fuel + 1) pc s =
      match mathparse host fuel host.topPrec s with
      | .error stop => .error stop
      | .ok s =>
        if s.mtok = .outpar then mathloop host fuel pc (nextToken host s)
        else .ok (s.zerr (.math .closingExpected)) := by
  rw [mathloop, if_neg h]
  simp only [htok]
  all_goals rfl

theorem mathloop_quest (htok : s.mtok = .quest) (fuel : ℕ) :
    mathloop host (fuel + 1) pc s =
      match retrieveTop host s with
      | .error stop => .error stop
      | .ok (mv, s) =>
        match mathparse host fuel (host.prec .colon - 1)
            (suspend (!(mv.val.getD zeroMnumber).truth host.numerics) s) with
        | .error stop => .error stop
        | .ok s =>
          if s.mtok = .colon then
            match mathparse host fuel (host.prec .quest)
                (suspend ((mv.val.getD zeroMnumber).truth host.numerics)
                  (resume (!(mv.val.getD zeroMnumber).truth host.numerics) s)) with
            | .error stop => .error stop
            | .ok s =>
              match op host .quest (resume ((mv.val.getD zeroMnumber).truth host.numerics) s) with
              | .error stop => .error stop
              | .ok s => mathloop host fuel pc s
          else
            .ok ((resume (!(mv.val.getD zeroMnumber).truth host.numerics) s).zerr
              (.math .colonExpected)) := by
  rw [mathloop, if_neg h]
  simp only [htok]
  all_goals rfl

theorem mathloop_operator (htok : isOperator s.mtok = true) (fuel : ℕ) :
    mathloop host (fuel + 1) pc s =
      match (if s.mtok.type.assoc = .bool then bop host s.mtok s else .ok s) with
      | .error stop => .error stop
      | .ok s' =>
        match mathparse host fuel (host.level s.mtok) s' with
        | .error stop => .error stop
        | .ok s'' =>
          match op host s.mtok { s'' with noeval := s.noeval } with
          | .error stop => .error stop
          | .ok s => mathloop host fuel pc s := by
  rw [mathloop, if_neg h]
  cases hm : s.mtok with
  | num | id | cid | func | inpar | quest | outpar | eoi =>
    rw [hm] at htok
    cases htok
  | _ => rfl

end Equations

/-! ## The reductions of a run -/

mutual

/-- The operators that `mathparse` reduces, with the states in which it does. -/
def parseLog (host : Host S F V) : ℕ → ℕ → ArithState S F V → List (MathToken × ArithState S F V)
  | 0, _, _ => []
  | fuel + 1, pc, s =>
    if s.errflag.isSome then []
    else if pc = host.topPrec ∧ (lex host s).mtok = .eoi then []
    else loopLog host fuel pc (nextToken host s)

/-- Those of its loop. -/
def loopLog (host : Host S F V) : ℕ → ℕ → ArithState S F V → List (MathToken × ArithState S F V)
  | 0, _, _ => []
  | fuel + 1, pc, s =>
    if pc < host.prec s.mtok ∨ s.errflag.isSome then []
    else
      match s.mtok with
      | .num | .id | .cid | .func => loopLog host fuel pc (nextToken host (pushOperand host s))
      | .inpar =>
        parseLog host fuel host.topPrec s ++
          match mathparse host fuel host.topPrec s with
          | .ok s => if s.mtok = .outpar then loopLog host fuel pc (nextToken host s) else []
          | .error _ => []
      | .quest =>
        match retrieveTop host s with
        | .error _ => []
        | .ok (mv, s) =>
          let q := (mv.val.getD zeroMnumber).truth host.numerics
          parseLog host fuel (host.prec .colon - 1) (suspend (!q) s) ++
            match mathparse host fuel (host.prec .colon - 1) (suspend (!q) s) with
            | .error _ => []
            | .ok s =>
              if s.mtok = .colon then
                parseLog host fuel (host.prec .quest) (suspend q (resume (!q) s)) ++
                  match mathparse host fuel (host.prec .quest) (suspend q (resume (!q) s)) with
                  | .error _ => []
                  | .ok s =>
                    (.quest, resume q s) ::
                      match op host .quest (resume q s) with
                      | .error _ => []
                      | .ok s => loopLog host fuel pc s
              else []
      | otok =>
        match (if otok.type.assoc = .bool then bop host otok s else .ok s) with
        | .error _ => []
        | .ok s' =>
          parseLog host fuel (host.level otok) s' ++
            match mathparse host fuel (host.level otok) s' with
            | .error _ => []
            | .ok s'' =>
              (otok, { s'' with noeval := s.noeval }) ::
                match op host otok { s'' with noeval := s.noeval } with
                | .error _ => []
                | .ok s => loopLog host fuel pc s

end

/-- Every reduction without an error finds its operands. -/
def LogSafe (log : List (MathToken × ArithState S F V)) : Prop :=
  ∀ entry ∈ log, entry.2.errflag = none → operands entry.1 ≤ entry.2.depth

theorem LogSafe.append {log' : List (MathToken × ArithState S F V)} (h : LogSafe log)
    (h' : LogSafe log') : LogSafe (log ++ log') := by
  intro entry hentry
  obtain hentry | hentry := List.mem_append.mp hentry
  · exact h entry hentry
  · exact h' entry hentry

theorem LogSafe.cons (hs : s.errflag = none → operands what ≤ s.depth) (h : LogSafe log) :
    LogSafe ((what, s) :: log) := by
  intro entry hentry
  obtain rfl | hentry := List.mem_cons.mp hentry
  · exact hs
  · exact h entry hentry

theorem logSafe_nil : LogSafe ([] : List (MathToken × ArithState S F V)) :=
  fun _ hentry ↦ nomatch hentry

/-- What a run of the loop at a level leaves, unless the fuel runs out. -/
structure Leaves (base pc noeval : ℕ) (outcome : Except ArithStop (ArithState S F V))
    (log : List (MathToken × ArithState S F V)) : Prop where
  inBounds : outcome ≠ .error .underflow
  log : LogSafe log
  noeval : ∀ r, outcome = .ok r → r.noeval = noeval
  level : ∀ r, outcome = .ok r → r.errflag = none → Level base r ∧ pc < host.prec r.mtok

/-- And a run of `mathparse`, which may find the input empty. -/
structure ParseLeaves (base pc : ℕ) (s : ArithState S F V)
    (outcome : Except ArithStop (ArithState S F V)) (log : List (MathToken × ArithState S F V)) :
    Prop where
  inBounds : outcome ≠ .error .underflow
  log : LogSafe log
  noeval : ∀ r, outcome = .ok r → r.noeval = s.noeval
  level : ∀ r, outcome = .ok r → r.errflag = none → Level base r ∧ pc < host.prec r.mtok ∨
    pc = host.topPrec ∧ (lex host s).mtok = .eoi ∧ r = lex host s

variable {host}

theorem leaves_stop
    (hlevel : s.errflag = none → Level base s)
    (h : pc < host.prec s.mtok ∨ s.errflag.isSome = true) :
    Leaves host base pc s.noeval (.ok s) [] where
  inBounds h := by cases h
  log := logSafe_nil
  noeval r hr := by
    cases hr
    rfl
  level r hr herr := by
    cases hr
    refine ⟨hlevel herr, h.resolve_right fun hsome ↦ ?_⟩
    rw [herr] at hsome
    cases hsome

theorem leaves_fuel :
    Leaves host base pc noeval (.error .fuel : Except ArithStop (ArithState S F V)) [] where
  inBounds h := by cases h
  log := logSafe_nil
  noeval r h := by cases h
  level r h := by cases h

theorem leaves_error
    (herr : r.errflag.isSome = true) (hnoeval : r.noeval = noeval) (hlog : LogSafe log) :
    Leaves host base pc noeval (.ok r) log where
  inBounds h := by cases h
  log := hlog
  noeval r' hr := by
    cases hr
    exact hnoeval
  level r' hr hnone := by
    cases hr
    rw [hnone] at herr
    cases herr

theorem Leaves.prepend {outcome : Except ArithStop (ArithState S F V)} (h : Leaves host base pc noeval outcome log)
    {front : List (MathToken × ArithState S F V)} (hfront : LogSafe front) :
    Leaves host base pc noeval outcome (front ++ log) :=
  ⟨h.inBounds, hfront.append h.log, h.noeval, h.level⟩

theorem parseLeaves_ok (hnoeval : r.noeval = s.noeval)
    (hlevel : r.errflag = none → pc = host.topPrec ∧ (lex host s).mtok = .eoi ∧ r = lex host s) :
    ParseLeaves host base pc s (.ok r) [] where
  inBounds h := by cases h
  log := logSafe_nil
  noeval r' hr := by
    cases hr
    exact hnoeval
  level r' hr hnone := by
    cases hr
    exact .inr (hlevel hnone)

theorem parseLeaves_fuel :
    ParseLeaves host base pc s (.error .fuel) [] where
  inBounds h := by cases h
  log := logSafe_nil
  noeval r h := by cases h
  level r h := by cases h

theorem parseLeaves_level (h : ParseLeaves host base pc s (.ok r) log)
    (hlow : 2 ≤ pc) (hhigh : pc < host.topPrec) (hnone : r.errflag = none) :
    Level base r ∧ r.mtok.type.kind ≠ .none := by
  obtain ⟨hlevel, hprec⟩ | ⟨htop, -, -⟩ := h.level r rfl hnone
  · refine ⟨hlevel, fun hkind ↦ ?_⟩
    have hle := prec_operand host hkind
    omega
  · exact absurd htop hhigh.ne

/-- With some fuel, every run of `mathparse` is safe. -/
def ParseSafe (host : Host S F V) (fuel : ℕ) : Prop :=
  ∀ pc s base, 2 ≤ pc → pc ≤ host.topPrec → (s.errflag = none → Expecting base s) →
    ParseLeaves host base pc s (mathparse host fuel pc s) (parseLog host fuel pc s)

/-- And every run of its loop. -/
def LoopSafe (host : Host S F V) (fuel : ℕ) : Prop :=
  ∀ pc s base, 2 ≤ pc → pc ≤ host.topPrec → (s.errflag = none → Level base s) →
    Leaves host base pc s.noeval (mathloop host fuel pc s) (loopLog host fuel pc s)

theorem parseSafe_succ {fuel : ℕ} (hloop : LoopSafe host fuel) : ParseSafe host (fuel + 1) := by
  intro pc s base hlow hhigh hexpect
  rw [mathparse, parseLog]
  by_cases herr : s.errflag.isSome = true
  · rw [if_pos herr, if_pos herr]
    apply parseLeaves_ok rfl
    intro hnone
    rw [hnone] at herr
    cases herr
  · rw [if_neg herr, if_neg herr]
    by_cases hempty : pc = host.topPrec ∧ (lex host s).mtok = .eoi
    · rw [if_pos hempty, if_pos hempty]
      exact parseLeaves_ok rfl fun _ ↦ ⟨hempty.1, hempty.2, rfl⟩
    · rw [if_neg hempty, if_neg hempty]
      have hnone : s.errflag = none := by simpa using herr
      have hrun := hloop pc (nextToken host s) base hlow hhigh
        fun h ↦ nextToken_level host (hexpect hnone) h
      rw [nextToken_noeval] at hrun
      exact ⟨hrun.inBounds, hrun.log, hrun.noeval, fun r hr hr' ↦ .inl (hrun.level r hr hr')⟩

theorem level_reduced {base' : ℕ}
    (hr : Level base' r) (hkind : r.mtok.type.kind ≠ .none) (hreduces : Reduces what r t)
    (hnone : t.errflag = none) (hbase : base' + 1 = base + operands what) : Level base t := by
  have hdepth := hreduces.depth hnone
  have hold := hr.depth
  rw [if_neg hkind] at hold
  refine ⟨?_, ?_⟩
  · rw [hreduces.frame.unary, hreduces.frame.mtok]
    exact hr.unary
  · rw [hreduces.frame.mtok, if_neg hkind]
    omega

theorem loopSafe_reduce {fuel : ℕ} (base' : ℕ) (hlow : 2 ≤ pc)
    (hhigh : pc ≤ host.topPrec) (hloop : LoopSafe host fuel)
    (hr : r.errflag = none → Level base' r ∧ r.mtok.type.kind ≠ .none)
    (hbase : base' + 1 = base + operands what ∨
      what = .colon ∧ ∀ t, op host what r = .ok t → t.errflag.isSome = true)
    (hnoeval : r.noeval = noeval) :
    Leaves host base pc noeval
      (match op host what r with
        | .error stop => .error stop
        | .ok s => mathloop host fuel pc s)
      ((what, r) ::
        match op host what r with
        | .error _ => []
        | .ok s => loopLog host fuel pc s) := by
  subst hnoeval
  by_cases herr : r.errflag.isSome = true
  · rw [op_of_error host herr]
    have hrun := hloop pc r base hlow hhigh fun hnone ↦ by
      rw [hnone] at herr
      cases herr
    refine hrun.prepend (LogSafe.cons (fun hnone ↦ ?_) logSafe_nil)
    rw [hnone] at herr
    cases herr
  · have hnone : r.errflag = none := by simpa using herr
    obtain ⟨hlevel, hkind⟩ := hr hnone
    have hdepth := hlevel.depth
    rw [if_neg hkind] at hdepth
    have henough : operands what ≤ r.depth := by
      obtain hbase | ⟨rfl, -⟩ := hbase
      · omega
      · rw [hdepth]
        exact Nat.le_add_left 1 base'
    obtain ⟨t, ht, hreduces⟩ := op_spec host hnone henough
    rw [ht]
    have hrun := hloop pc t base hlow hhigh fun hnone' ↦ by
      obtain hbase | ⟨-, hcolon⟩ := hbase
      · exact level_reduced hlevel hkind hreduces hnone' hbase
      · have hsome := hcolon t ht
        rw [hnone'] at hsome
        cases hsome
    rw [hreduces.frame.noeval] at hrun
    exact hrun.prepend (LogSafe.cons (fun _ ↦ henough) logSafe_nil)

/-- A `:` without a `?` is an error. -/
theorem op_colon (h : op host .colon r = .ok t) :
    t.errflag.isSome = true := by
  unfold op at h
  split at h
  · next herr =>
    cases h
    exact herr
  · split at h
    · cases h
      exact zerr_isSome _ _
    · change unaryOp host .colon r = .ok t at h
      unfold unaryOp at h
      split at h
      · cases h
      · split at h
        · next herr =>
          cases h
          exact herr
        · cases h
          exact zerr_isSome _ _

/-- The levels of `noeval` pair up. -/
theorem resume_noeval {condition : Bool}
    (h : r.noeval = (suspend condition s).noeval) : (resume condition r).noeval = s.noeval := by
  cases condition with
  | false => exact h
  | true =>
    calc
      (resume true r).noeval = r.noeval - 1 := rfl
      _ = s.noeval + 1 - 1 := by rw [h]; rfl
      _ = s.noeval := Nat.add_sub_cancel s.noeval 1

section Loop

variable {fuel pc base : ℕ} {s : ArithState S F V} (hlow : 2 ≤ pc) (hhigh : pc ≤ host.topPrec)
  (hlevel : Level base s) (h : ¬ (pc < host.prec s.mtok ∨ s.errflag.isSome = true))
include hlow hhigh hlevel h

theorem loopSafe_operand (hloop : LoopSafe host fuel)
    (htok : s.mtok = .num ∨ s.mtok = .id ∨ s.mtok = .cid ∨ s.mtok = .func) :
    Leaves host base pc s.noeval (mathloop host (fuel + 1) pc s)
      (loopLog host (fuel + 1) pc s) := by
  have hlog : loopLog host (fuel + 1) pc s =
      loopLog host fuel pc (nextToken host (pushOperand host s)) := by
    rw [loopLog, if_neg h]
    obtain htok | htok | htok | htok := htok
    · simp only [htok]
    · simp only [htok]
    · simp only [htok]
    · simp only [htok]
  have htype : s.mtok.type.kind = .none ∧ s.mtok.type.opf = true := by
    obtain htok | htok | htok | htok := htok
    · rw [htok]
      exact ⟨rfl, rfl⟩
    · rw [htok]
      exact ⟨rfl, rfl⟩
    · rw [htok]
      exact ⟨rfl, rfl⟩
    · rw [htok]
      exact ⟨rfl, rfl⟩
  obtain ⟨hframe, hdepth⟩ := pushOperand_spec host s
  rw [mathloop_operand h htok, hlog]
  have hrun := hloop pc (nextToken host (pushOperand host s)) base hlow hhigh fun hnone ↦ by
    apply nextToken_level host _ hnone
    have hunary : (pushOperand host s).unary = false := by
      rw [hframe.unary, hlevel.unary, htype.2]
      rfl
    rw [Expecting, hunary, hdepth (nextToken_errflag_none host hnone), hlevel.depth,
      if_pos htype.1]
    rfl
  rwa [nextToken_noeval, hframe.noeval] at hrun

theorem loopSafe_inpar (hparse : ParseSafe host fuel) (hloop : LoopSafe host fuel)
    (htok : s.mtok = .inpar) :
    Leaves host base pc s.noeval (mathloop host (fuel + 1) pc s)
      (loopLog host (fuel + 1) pc s) := by
  have hlog : loopLog host (fuel + 1) pc s =
      parseLog host fuel host.topPrec s ++
        match mathparse host fuel host.topPrec s with
        | .ok s => if s.mtok = .outpar then loopLog host fuel pc (nextToken host s) else []
        | .error _ => [] := by
    rw [loopLog, if_neg h]
    simp only [htok]
  have hexpect : Expecting base s := by
    rw [Expecting, hlevel.unary, hlevel.depth, htok]
    rfl
  have hinner := hparse host.topPrec s base (two_le_topPrec host) le_rfl fun _ ↦ hexpect
  rw [mathloop_inpar h htok, hlog]
  cases hout : mathparse host fuel host.topPrec s with
  | error stop =>
    rw [hout] at hinner
    cases stop with
    | fuel => exact leaves_fuel.prepend hinner.log
    | underflow => exact absurd rfl hinner.inBounds
  | ok r =>
    rw [hout] at hinner
    have hnoeval : r.noeval = s.noeval := hinner.noeval r rfl
    dsimp only
    by_cases hclose : r.mtok = .outpar
    · rw [if_pos hclose, if_pos hclose]
      have hrun := hloop pc (nextToken host r) base hlow hhigh fun hnone ↦ by
        apply nextToken_level host _ hnone
        obtain ⟨hr, -⟩ | ⟨-, heoi, hr⟩ :=
          hinner.level r rfl (nextToken_errflag_none host hnone)
        · rw [Expecting, hr.unary, hr.depth, hclose]
          rfl
        · rw [hr, heoi] at hclose
          cases hclose
      rw [nextToken_noeval, hnoeval] at hrun
      exact hrun.prepend hinner.log
    · rw [if_neg hclose, if_neg hclose]
      exact leaves_error (zerr_isSome _ _) hnoeval (hinner.log.append logSafe_nil)

theorem loopSafe_operator (hparse : ParseSafe host fuel) (hloop : LoopSafe host fuel)
    (htok : isOperator s.mtok = true) :
    Leaves host base pc s.noeval (mathloop host (fuel + 1) pc s)
      (loopLog host (fuel + 1) pc s) := by
  have hlog : loopLog host (fuel + 1) pc s =
      match (if s.mtok.type.assoc = .bool then bop host s.mtok s else .ok s) with
      | .error _ => []
      | .ok s' =>
        parseLog host fuel (host.level s.mtok) s' ++
          match mathparse host fuel (host.level s.mtok) s' with
          | .error _ => []
          | .ok s'' =>
            (s.mtok, { s'' with noeval := s.noeval }) ::
              match op host s.mtok { s'' with noeval := s.noeval } with
              | .error _ => []
              | .ok s => loopLog host fuel pc s := by
    rw [loopLog, if_neg h]
    cases hm : s.mtok with
    | num | id | cid | func | inpar | quest | outpar | eoi =>
      rewrite [hm] at htok
      cases htok
    | _ => rfl
  obtain ⟨hlevelLow, hlevelHigh⟩ := level_operator host htok
  rw [mathloop_operator h htok, hlog]
  -- A short-circuiting operator retrieves its left side.
  obtain ⟨s', n, hleft, hframe, hdepth⟩ : ∃ s' n,
      (if s.mtok.type.assoc = .bool then bop host s.mtok s else .ok s) =
        .ok _ ∧ Frame s s' ∧ s'.depth = s.depth := by
    by_cases hbool : s.mtok.type.assoc = .bool
    · rw [if_pos hbool]
      have hpos : 0 < s.depth := by
        rw [hlevel.depth, if_neg (kind_bool hbool)]
        omega
      exact bop_spec host s.mtok hpos
    · rw [if_neg hbool]
      exact ⟨s, s.noeval, rfl, .refl s, rfl⟩
  rw [hleft]
  dsimp only
  -- The values that are there when the right side begins.
  obtain ⟨base', hexpect, hbase⟩ : ∃ base', Expecting base' { s' with noeval := n } ∧
      (base' + 1 = base + operands s.mtok ∨ s.mtok = .colon) := by
    have hunary : s'.unary = !s.mtok.type.opf := hframe.unary.trans hlevel.unary
    have hd : s'.depth = base + if s.mtok.type.kind = .none then 0 else 1 :=
      hdepth.trans hlevel.depth
    change ∃ base', s'.depth = base' + (if s'.unary = true then 0 else 1) ∧ _
    rw [hunary, hd]
    obtain ⟨hone, hkind, hopf⟩ | ⟨hone, hkind, hopf⟩ | ⟨htwo, hkind, hopf⟩ | hcolon :=
      operator_shape htok
    · refine ⟨base, ?_, .inl (by rw [hone])⟩
      rw [hkind, hopf]
      rfl
    · refine ⟨base, ?_, .inl (by rw [hone])⟩
      rw [hkind, hopf]
      rfl
    · refine ⟨base + 1, ?_, .inl (by rw [htwo])⟩
      rw [if_neg hkind, hopf]
      rfl
    · refine ⟨base + 1, ?_, .inr hcolon⟩
      rw [hcolon]
      rfl
  have hinner := hparse (host.level s.mtok) _ base' hlevelLow
    hlevelHigh.le fun _ ↦ hexpect
  cases hout : mathparse host fuel (host.level s.mtok) _ with
  | error stop =>
    rw [hout] at hinner
    cases stop with
    | fuel => exact leaves_fuel.prepend hinner.log
    | underflow => exact absurd rfl hinner.inBounds
  | ok r =>
    rw [hout] at hinner
    refine Leaves.prepend ?_ hinner.log
    apply loopSafe_reduce base' hlow hhigh hloop
    · intro hnone
      obtain ⟨hr, hkind⟩ := parseLeaves_level hinner hlevelLow hlevelHigh hnone
      exact ⟨⟨hr.unary, hr.depth⟩, hkind⟩
    · exact hbase.imp_right fun hcolon ↦ ⟨hcolon, fun t ht ↦ op_colon (hcolon ▸ ht)⟩
    · rfl

/-- The three values of `?`, each parsed behind the one before. -/
theorem loopSafe_quest (hparse : ParseSafe host fuel) (hloop : LoopSafe host fuel)
    (htok : s.mtok = .quest) :
    Leaves host base pc s.noeval (mathloop host (fuel + 1) pc s)
      (loopLog host (fuel + 1) pc s) := by
  have hdepth : s.depth = base + 1 := by
    rw [hlevel.depth, htok]
    rfl
  have hunary : s.unary = true := by
    rw [hlevel.unary, htok]
    rfl
  obtain ⟨hcolonLow, hcolonHigh, hquestLow, hquestHigh⟩ := level_quest host
  obtain ⟨mv, t, htop, hframe, htopDepth⟩ := retrieveTop_spec host (s := s) (by omega)
  have hlog : loopLog host (fuel + 1) pc s =
      parseLog host fuel (host.prec .colon - 1)
        (suspend (!(mv.val.getD zeroMnumber).truth host.numerics) t) ++
      match mathparse host fuel (host.prec .colon - 1)
        (suspend (!(mv.val.getD zeroMnumber).truth host.numerics) t) with
      | .error _ => []
      | .ok s =>
        if s.mtok = .colon then
          parseLog host fuel (host.prec .quest)
            (suspend ((mv.val.getD zeroMnumber).truth host.numerics)
              (resume (!(mv.val.getD zeroMnumber).truth host.numerics) s)) ++
          match mathparse host fuel (host.prec .quest)
            (suspend ((mv.val.getD zeroMnumber).truth host.numerics)
              (resume (!(mv.val.getD zeroMnumber).truth host.numerics) s)) with
          | .error _ => []
          | .ok s =>
            (.quest, resume ((mv.val.getD zeroMnumber).truth host.numerics) s) ::
            match op host .quest (resume ((mv.val.getD zeroMnumber).truth host.numerics) s) with
            | .error _ => []
            | .ok s => loopLog host fuel pc s
        else [] := by
    rw [loopLog, if_neg h]
    simp only [htok, htop]
  rw [mathloop_quest h htok, hlog, htop]
  dsimp only
  generalize (mv.val.getD zeroMnumber).truth host.numerics = q
  have hexpect : Expecting (base + 1) (suspend (!q) t) := by
    change t.depth = base + 1 + if t.unary = true then 0 else 1
    rw [htopDepth, hframe.unary, hunary, hdepth]
    rfl
  have hfirst := hparse _ (suspend (!q) t) (base + 1) hcolonLow hcolonHigh.le
    fun _ ↦ hexpect
  cases hout : mathparse host fuel _ (suspend (!q) t) with
  | error stop =>
    rw [hout] at hfirst
    cases stop with
    | fuel => exact leaves_fuel.prepend hfirst.log
    | underflow => exact absurd rfl hfirst.inBounds
  | ok r =>
    rw [hout] at hfirst
    have hnoeval : (resume (!q) r).noeval = s.noeval :=
      (resume_noeval (hfirst.noeval r rfl)).trans hframe.noeval
    dsimp only
    by_cases hcolon : r.mtok = .colon
    · rw [if_pos hcolon, if_pos hcolon]
      have hexpect' (hnone : r.errflag = none) :
          Expecting (base + 2) (suspend q (resume (!q) r)) := by
        obtain ⟨hr, -⟩ := parseLeaves_level hfirst hcolonLow hcolonHigh hnone
        change r.depth = base + 2 + if r.unary = true then 0 else 1
        rw [hr.unary, hr.depth, hcolon]
        rfl
      have hsecond := hparse (host.prec .quest) (suspend q (resume (!q) r)) (base + 2) hquestLow
        hquestHigh.le hexpect'
      refine Leaves.prepend ?_ hfirst.log
      cases hout' : mathparse host fuel (host.prec .quest) _ with
      | error stop =>
        rw [hout'] at hsecond
        cases stop with
        | fuel => exact leaves_fuel.prepend hsecond.log
        | underflow => exact absurd rfl hsecond.inBounds
      | ok r' =>
        rw [hout'] at hsecond
        refine Leaves.prepend ?_ hsecond.log
        apply loopSafe_reduce (base + 2) hlow hhigh hloop
        · intro hnone
          obtain ⟨hr, hkind⟩ := parseLeaves_level hsecond hquestLow hquestHigh hnone
          exact ⟨⟨hr.unary, hr.depth⟩, hkind⟩
        · exact .inl rfl
        · exact (resume_noeval (hsecond.noeval r' rfl)).trans hnoeval
    · rw [if_neg hcolon, if_neg hcolon]
      have hsame : ((resume (!q) r).zerr (.math .colonExpected)).noeval = s.noeval := hnoeval
      exact leaves_error (zerr_isSome _ _) hsame (hfirst.log.append logSafe_nil)

end Loop

theorem run_safe (host : Host S F V) (fuel : ℕ) : ParseSafe host fuel ∧ LoopSafe host fuel := by
  induction fuel with
  | zero =>
    constructor
    · intro pc s base _ _ _
      exact parseLeaves_fuel
    · intro pc s base _ _ _
      exact leaves_fuel
  | succ fuel ih =>
    obtain ⟨hparse, hloop⟩ := ih
    refine ⟨parseSafe_succ hloop, fun pc s base hlow hhigh hlevel ↦ ?_⟩
    by_cases h : pc < host.prec s.mtok ∨ s.errflag.isSome = true
    · rw [mathloop_stop h, loopLog, if_pos h]
      exact leaves_stop hlevel h
    · have hnone : s.errflag = none := by
        have herr := (not_or.mp h).2
        simpa using herr
      have hs := hlevel hnone
      obtain ⟨hclose, heoi⟩ := not_closing host hhigh (not_lt.mp (not_or.mp h).1)
      cases htok : s.mtok with
      | num => exact loopSafe_operand hlow hhigh hs h hloop (.inl htok)
      | id => exact loopSafe_operand hlow hhigh hs h hloop (.inr (.inl htok))
      | cid => exact loopSafe_operand hlow hhigh hs h hloop (.inr (.inr (.inl htok)))
      | func => exact loopSafe_operand hlow hhigh hs h hloop (.inr (.inr (.inr htok)))
      | inpar => exact loopSafe_inpar hlow hhigh hs h hparse hloop htok
      | quest => exact loopSafe_quest hlow hhigh hs h hparse hloop htok
      | outpar => exact absurd htok hclose
      | eoi => exact absurd htok heoi
      | _ => exact loopSafe_operator hlow hhigh hs h hparse hloop (by rw [htok]; rfl)

end Bsh.Shell.Arith
