import Bsh.Shell.MathText

/-!
# The text of a printed expression and its tokens

A layout of pieces is any text that has the pieces in their order with blanks between them, as long
as no two signs run together.  The lexer finds in it the tokens of the pieces; a minus sign before
a constant becomes part of the constant.
-/

namespace Bsh.Shell

open Bsh.Library Decimal List

abbrev MathPiece := Piece (Fin (2 ^ 63)) MathPrefix MathInfix

def pieceText : MathPiece → Bytes
  | .const n => decimal n.val
  | .prefixOp op => op.text
  | .infixOp op => op.text
  | .opening => [char '(']
  | .closing => [char ')']

/-- The text behind a sign must not start with the same sign. -/
def SignFree (text rest : Bytes) : Prop :=
  (text = [char '+'] → headIs '+' rest = false) ∧ (text = [char '-'] → headIs '-' rest = false)

/-- The texts that show some pieces. -/
inductive Layout : List MathPiece → Bytes → Prop where
  | nil {blanks : Bytes} (hblanks : ∀ c ∈ blanks, inblank c = true) : Layout [] blanks
  | cons {blanks rest : Bytes} {piece : MathPiece} {pieces : List MathPiece}
    (hblanks : ∀ c ∈ blanks, inblank c = true) (hsign : SignFree (pieceText piece) rest)
    (h : Layout pieces rest) : Layout (piece :: pieces) (blanks ++ (pieceText piece ++ rest))

/-- The pieces with a blank in front of each of them. -/
def spaced : List MathPiece → Bytes
  | [] => []
  | piece :: pieces => char ' ' :: (pieceText piece ++ spaced pieces)

theorem layout_spaced (pieces : List MathPiece) : Layout pieces (spaced pieces) := by
  induction pieces with
  | nil => exact .nil (by rintro c ⟨⟩)
  | cons piece pieces ih =>
    have hsign (text : Bytes) : SignFree text (spaced pieces) := by
      cases pieces with
      | nil => exact ⟨fun _ ↦ rfl, fun _ ↦ rfl⟩
      | cons piece pieces => exact ⟨fun _ ↦ rfl, fun _ ↦ rfl⟩
    have hblank : ∀ c ∈ [char ' '], inblank c = true := by
      rintro c hc
      cases List.mem_singleton.mp hc
      rfl
    exact .cons hblank (hsign _) ih

/-! ## First bytes -/

/-- A byte that may follow an operator. -/
def operandByte (c : UInt8) : Bool :=
  inblank c || idigit c || c = char '(' || c = char '!' || c = char '~' || c = char '+' ||
    c = char '-'

/-- A byte that may follow an operand. -/
def operatorByte (c : UInt8) : Bool :=
  inblank c || c = char ')' || c = char '*' || c = char '/' || c = char '%' || c = char '+' ||
    c = char '-' || c = char '<' || c = char '>' || c = char '=' || c = char '!' ||
    c = char '&' || c = char '|' || c = char '^' || c = char ','

/-- A piece that an operand starts with. -/
def StartsOperand : MathPiece → Prop
  | .const _ => True
  | .prefixOp _ => True
  | .opening => True
  | _ => False

theorem headIs_eq_false {p : UInt8 → Bool} {c : Char} (hc : p (char c) = false) {s : Bytes}
    (hs : ∀ d, s.head? = some d → p d = true) : headIs c s = false := by
  refine decide_eq_false fun h ↦ ?_
  have hp := hs _ h
  rw [hc] at hp
  cases hp

theorem idigit_head_decimal (n : ℕ) : ∃ c rest, decimal n = c :: rest ∧ idigit c = true ∧
    (c = char '0' → n = 0) := by
  rcases decimalCodes_head n with h | ⟨d, rest, hd0, hd10, h⟩
  · refine ⟨char '0', [], by rw [decimal, h]; rfl, rfl, fun _ ↦ ?_⟩
    have hvalue := digitsValue_decimalCodes n
    rw [h] at hvalue
    exact hvalue.symm
  · refine ⟨UInt8.ofNat (digitCode d), codeBytes rest, by rw [decimal, h]; rfl, ?_, ?_⟩
    · interval_cases d <;> rfl
    · interval_cases d <;> exact fun h ↦ absurd h (by decide)

variable {c : UInt8} {n : ℕ} {t : Bytes} (env : MathEnv) (unary : Bool)

theorem layout_head_operand {piece : MathPiece} {pieces : List MathPiece}
    (h : Layout (piece :: pieces) t) (hpiece : StartsOperand piece) :
    ∃ c rest, t = c :: rest ∧ operandByte c = true := by
  obtain ⟨⟩ | @⟨blanks, rest, _, _, hblanks, -, -⟩ := h
  cases blanks with
  | cons c blanks =>
    refine ⟨c, _, rfl, ?_⟩
    rw [operandByte, hblanks c mem_cons_self]
    rfl
  | nil =>
    cases piece with
    | const n =>
      obtain ⟨c, tail, htext, hdigit, -⟩ := idigit_head_decimal n.val
      refine ⟨c, tail ++ rest, by rw [pieceText, htext]; rfl, ?_⟩
      simp [operandByte, hdigit]
    | prefixOp op => cases op <;> exact ⟨_, _, rfl, rfl⟩
    | opening => exact ⟨_, _, rfl, rfl⟩
    | infixOp op => exact hpiece.elim
    | closing => exact hpiece.elim

/-- What follows an operand: closing parentheses, then the end or an infix operator with the start
of its operand. -/
def AfterOperand : List MathPiece → Prop
  | [] => True
  | .infixOp _ :: piece :: _ => StartsOperand piece
  | .closing :: rest => AfterOperand rest
  | _ => False

theorem layout_head_operator {pieces : List MathPiece} (h : Layout pieces t)
    (hpieces : AfterOperand pieces) : ∀ c, t.head? = some c → operatorByte c = true := by
  have hblank {c : UInt8} (hc : inblank c = true) : operatorByte c = true := by
    rw [operatorByte, hc]
    rfl
  intro c hc
  obtain ⟨hblanks⟩ | @⟨blanks, rest, piece, _, hblanks, -, -⟩ := h
  · exact hblank (hblanks c (mem_of_head? hc))
  · cases blanks with
    | cons d blanks =>
      cases hc
      exact hblank (hblanks _ mem_cons_self)
    | nil =>
      cases piece with
      | infixOp op =>
        cases op <;>
        · cases hc
          rfl
      | closing =>
        cases hc
        rfl
      | const n => exact hpieces.elim
      | prefixOp op => exact hpieces.elim
      | opening => exact hpieces.elim

/-! ## Blanks -/

theorem zzlex_blanks {blanks : Bytes}
    (hblanks : ∀ c ∈ blanks, inblank c = true) (t : Bytes) :
    zzlex env unary (blanks ++ t) = zzlex env unary t := by
  induction blanks with
  | nil => rfl
  | cons c blanks ih =>
    have hc := hblanks c mem_cons_self
    have hrest := ih fun d hd ↦ hblanks d (mem_cons_of_mem _ hd)
    simp only [inblank, Bool.or_eq_true, decide_eq_true_eq] at hc
    rcases hc with (rfl | rfl) | rfl
    · exact hrest
    · exact hrest
    · exact hrest

/-! ## Constants -/

theorem digitOf_digitCode {d : ℕ} (hd : d < 10) :
    digitOf 10 (UInt8.ofNat (digitCode d)) = some d := by
  interval_cases d <;> rfl

theorem digit_ne (hc : idigit c = true) {x : UInt8} (hx : idigit x = false) :
    c ≠ x := by
  rintro rfl
  rw [hx] at hc
  cases hc

theorem zstrtolDigits_append (digits : List ℕ) (hdigits : ∀ d ∈ digits, d < 10) (value : ℕ)
    (hvalue : digits.foldl (fun value d ↦ value * 10 + d) value < 2 ^ 63)
    (ht : ∀ c, t.head? = some c → c ≠ char '_' ∧ digitOf 10 c = none) :
    zstrtolDigits 10 true (codeBytes (digits.map digitCode) ++ t) (BitVec.ofNat 64 value) false =
      (BitVec.ofNat 64 (digits.foldl (fun value d ↦ value * 10 + d) value), false, t) := by
  induction digits generalizing value with
  | nil =>
    cases t with
    | nil => rfl
    | cons c t =>
      obtain ⟨hunderscore, hnone⟩ := ht c rfl
      change zstrtolDigits 10 true (c :: t) _ _ = _
      rw [zstrtolDigits, if_neg (fun h ↦ hunderscore h.2), hnone]
      rfl
  | cons d digits ih =>
    have hd := hdigits d mem_cons_self
    have hle (digits : List ℕ) (value : ℕ) :
        value ≤ digits.foldl (fun value d ↦ value * 10 + d) value := by
      induction digits generalizing value with
      | nil => exact le_rfl
      | cons d digits ih => exact le_trans (by omega) (ih (value * 10 + d))
    have hnext := (hle digits (value * 10 + d)).trans_lt hvalue
    have hne : UInt8.ofNat (digitCode d) ≠ char '_' := by
      interval_cases d <;> decide
    have hcalc : BitVec.ofNat 64 value * BitVec.ofNat 64 10 + BitVec.ofNat 64 d =
        BitVec.ofNat 64 (value * 10 + d) := by
      rw [BitVec.ofNat_add, BitVec.ofNat_mul]
    have hnot : ¬ (BitVec.ofNat 64 (value * 10 + d) < BitVec.ofNat 64 value) := by
      rw [BitVec.lt_def, BitVec.toNat_ofNat, BitVec.toNat_ofNat, Nat.mod_eq_of_lt (by omega),
        Nat.mod_eq_of_lt (by omega)]
      omega
    change zstrtolDigits 10 true (UInt8.ofNat (digitCode d) :: (codeBytes (digits.map digitCode)
      ++ t)) _ _ = _
    rw [zstrtolDigits, if_neg (fun h ↦ hne h.2), digitOf_digitCode hd]
    simp only [hcalc, Bool.false_eq_true, false_or, if_neg hnot]
    exact ih (fun d hd ↦ hdigits d (mem_cons_of_mem _ hd)) _ hvalue

theorem decimal_digits (n : ℕ) : ∃ digits : List ℕ, (∀ d ∈ digits, d < 10) ∧
    decimalCodes n = digits.map digitCode ∧ digits.foldl (fun value d ↦ value * 10 + d) 0 = n := by
  have hfold (digits : List ℕ) (value : ℕ) :
      (digits.map digitCode).foldl (fun value code ↦ value * 10 + (code - 0x30)) value =
        digits.foldl (fun value d ↦ value * 10 + d) value := by
    rw [foldl_map]
    simp [digitCode]
  have hvalue := digitsValue_decimalCodes n
  unfold digitsValue at hvalue
  by_cases hn : n = 0
  · subst hn
    exact ⟨[0], by simp, rfl, rfl⟩
  · have hcodes : decimalCodes n = (Nat.digits 10 n).reverse.map digitCode := if_neg hn
    refine ⟨(Nat.digits 10 n).reverse, fun d hd ↦ ?_, hcodes, ?_⟩
    · exact Nat.digits_lt_base (by norm_num) (List.mem_reverse.mp hd)
    · rw [← hfold, ← hcodes, hvalue]

set_option maxRecDepth 4000 in
theorem idigit_not_blank : ∀ c, idigit c = true → inblank c = false ∧ isDash c = false :=
  Bytes.forall_byte (by decide)

set_option maxRecDepth 4000 in
theorem operatorByte_stops (hc : operatorByte c = true) :
    idigit c = false ∧ c ≠ char '_' ∧ digitOf 10 c = none := by
  have hall : ∀ c, operatorByte c = true →
      idigit c = false ∧ c ≠ char '_' ∧ digitOf 10 c = none :=
    Bytes.forall_byte (by decide)
  exact hall c hc

/-- The lexer reads a constant of less than 64 bits. -/
theorem zstrtolUnderscore_decimal (hn : n < 2 ^ 63)
    (ht : ∀ c, t.head? = some c → operatorByte c = true) :
    zstrtolUnderscore (decimal n ++ t) 10 true = some (BitVec.ofNat 64 n, t) := by
  obtain ⟨c, rest, hhead, hdigit, -⟩ := idigit_head_decimal n
  obtain ⟨hblank, hdash⟩ := idigit_not_blank c hdigit
  have hplus : c ≠ char '+' := digit_ne hdigit rfl
  obtain ⟨digits, hdigits, hcodes, hvalue⟩ := decimal_digits n
  have hloop := zstrtolDigits_append digits hdigits 0 (hvalue.trans_lt hn)
    (fun c hc ↦ (operatorByte_stops (ht c hc)).2)
  rw [hvalue] at hloop
  have hmsb : (BitVec.ofNat 64 n).msb = false := by
    rw [BitVec.msb_eq_decide, BitVec.toNat_ofNat, Nat.mod_eq_of_lt (by omega)]
    exact decide_eq_false (by omega)
  have hdrop : (decimal n ++ t).dropWhile inblank = decimal n ++ t := by
    rw [hhead, cons_append, dropWhile_cons, hblank]
    rfl
  have hneg : (decimal n ++ t).head?.any isDash = false := by
    rw [hhead]
    exact hdash
  have hsign : headIs '+' (decimal n ++ t) = false := by
    rw [hhead]
    exact decide_eq_false fun h ↦ hplus (Option.some.inj h)
  unfold zstrtolUnderscore
  simp only [hdrop, hneg, hsign, Bool.or_self, Bool.false_eq_true, if_false]
  have hdecimal : decimal n = codeBytes (digits.map digitCode) := by rw [decimal, hcodes]
  rw [hdecimal]
  have hbase (s : Bytes) : (if (10 : ℕ) = 0 then announcedBase s else (10, s)) = (10, s) := rfl
  have hrange : ¬ ((10 : ℕ) < 2 ∨ 36 < 10) := by norm_num
  have hstart : (0 : Zlong) = BitVec.ofNat 64 0 := rfl
  simp only [hbase, hrange, if_false, hstart, hloop, hmsb]
  simp

theorem skipDigits_decimal (n : ℕ)
    (ht : ∀ c, t.head? = some c → operatorByte c = true) : skipDigits (decimal n ++ t) = t := by
  unfold skipDigits
  rw [dropWhile_append_of_pos]
  · cases t with
    | nil => rfl
    | cons c t =>
      obtain ⟨hdigit, hunderscore, -⟩ := operatorByte_stops (ht c rfl)
      rw [dropWhile_cons, if_neg (by simp [hdigit, hunderscore])]
  · intro c hc
    rw [idigit_of_mem_decimal hc]
    rfl

/-- `lexconstant` reads a decimal constant in front of an operator. -/
theorem lexconstant_decimal (hn : n < 2 ^ 63)
    (ht : ∀ c, t.head? = some c → operatorByte c = true) :
    lexconstant env (decimal n ++ t) = number (BitVec.ofNat 64 n) t := by
  have hnot (x : Char) (hx : operatorByte (char x) = false) : headIs x t = false :=
    headIs_eq_false hx ht
  obtain ⟨c, rest, hhead, hdigit, hzero⟩ := idigit_head_decimal n
  have hneg : (decimal n ++ t).head?.any isDash = false := by
    rw [hhead]
    exact (idigit_not_blank c hdigit).2
  have hlex : lexDecimal (decimal n ++ t) = number (BitVec.ofNat 64 n) t := by
    unfold lexDecimal
    simp only [hneg, Bool.false_eq_true, if_false, skipDigits_decimal n ht,
      zstrtolUnderscore_decimal hn ht, hnot '.' rfl, hnot 'e' rfl, hnot 'E' rfl, hnot '#' rfl,
      Bool.or_self]
  unfold lexconstant
  simp only [hneg, Bool.false_eq_true, if_false]
  split
  · next hstart =>
    -- A leading zero is the whole constant.
    have hn0 : n = 0 := by
      apply hzero
      rw [hhead] at hstart
      exact Option.some.inj (of_decide_eq_true hstart)
    subst hn0
    have htail : (decimal 0 ++ t).tail = t := rfl
    have hskip : skipDigits t = t := by
      cases t with
      | nil => rfl
      | cons c t =>
        obtain ⟨hdigit, hunderscore, -⟩ := operatorByte_stops (ht c rfl)
        unfold skipDigits
        rw [dropWhile_cons, if_neg (by simp [hdigit, hunderscore])]
    simp only [htail, hnot 'x' rfl, hnot 'X' rfl, hnot 'b' rfl, hnot 'B' rfl, Bool.or_self,
      Bool.false_eq_true, if_false, hskip, lt_irrefl, decide_false, Bool.and_false,
      Bool.false_and]
    exact hlex
  · exact hlex

theorem zzlex_digit (hc : idigit c = true)
    (s : Bytes) : zzlex env unary (c :: s) = lexconstant env (c :: s) := by
  have hne {x : UInt8} (hx : idigit x = false) : c ≠ x := digit_ne hc hx
  obtain ⟨hblank, hdash⟩ := idigit_not_blank c hc
  rw [zzlex, if_neg (hne rfl), if_neg (by simp [hdash]), if_neg (hne rfl), if_neg (hne rfl),
    if_neg (hne rfl), if_neg (hne rfl), if_neg (hne rfl), if_neg (hne rfl), if_neg (hne rfl),
    if_neg (hne rfl), if_neg (hne rfl), if_neg (hne rfl), if_neg (hne rfl), if_neg (hne rfl),
    if_neg (hne rfl), if_neg (hne rfl), if_neg (hne rfl), if_neg (hne rfl), if_neg (hne rfl),
    if_neg (by simp [hblank, hne (x := char '"') rfl, hne (x := 0x9E) rfl]), if_pos hc]

theorem zzlex_const (hn : n < 2 ^ 63)
    (ht : ∀ c, t.head? = some c → operatorByte c = true) :
    zzlex env unary (decimal n ++ t) = number (BitVec.ofNat 64 n) t := by
  rw [← lexconstant_decimal env hn ht]
  obtain ⟨c, rest, hhead, hdigit, -⟩ := idigit_head_decimal n
  rw [hhead]
  exact zzlex_digit env unary hdigit _

/-- A minus sign right before a constant belongs to it. -/
theorem zzlex_negated (hn : n < 2 ^ 63)
    (ht : ∀ c, t.head? = some c → operatorByte c = true) :
    zzlex env true (char '-' :: (decimal n ++ t)) = number (-BitVec.ofNat 64 n) t := by
  obtain ⟨c, rest, hhead, hdigit, -⟩ := idigit_head_decimal n
  have hdash := (idigit_not_blank c hdigit).2
  have hany : (decimal n ++ t).head?.any isDash = false := by
    rw [hhead]
    exact hdash
  have hdigits : (decimal n ++ t).head?.any idigit = true := by
    rw [hhead]
    exact hdigit
  have hequals : headIs '=' (decimal n ++ t) = false := by
    rw [hhead]
    exact decide_eq_false fun h ↦ digit_ne hdigit rfl (Option.some.inj h)
  have hlex : zzlex env true (char '-' :: (decimal n ++ t)) =
      (lexconstant env (decimal n ++ t)).map negated := by
    have hminus : isDash (char '-') = true := rfl
    rw [zzlex, if_neg (by decide), if_pos hminus, if_neg (Bool.eq_false_iff.mp hany),
      if_neg (Bool.eq_false_iff.mp hequals), if_pos rfl, if_pos hdigits]
  rw [hlex, lexconstant_decimal env hn ht]
  rfl

/-! ## Operators and parentheses -/

set_option maxRecDepth 4000 in
theorem not_isDash_head (ht : ∀ c, t.head? = some c → operandByte c = true)
    (hminus : headIs '-' t = false) : ¬ t.head?.any isDash = true := by
  cases t with
  | nil => simp
  | cons c t =>
    have hc := ht c rfl
    have hne : c ≠ char '-' := by
      rintro rfl
      exact absurd rfl (of_decide_eq_false hminus)
    have hall : ∀ c, operandByte c = true → c ≠ char '-' → ¬ isDash c = true :=
      Bytes.forall_byte (by decide)
    exact hall c hc hne

theorem zzlex_infix (op : MathInfix)
    (ht : ∀ c, t.head? = some c → operandByte c = true) (hsign : SignFree op.text t) :
    zzlex env false (op.text ++ t) = operator op.token t := by
  have hnot (x : Char) (hx : operandByte (char x) = false) : ¬ headIs x t = true :=
    Bool.eq_false_iff.mp (headIs_eq_false hx ht)
  cases op with
  | power => exact if_neg (hnot '=' rfl)
  | mul => exact (if_neg (hnot '*' rfl)).trans (if_neg (hnot '=' rfl))
  | div => exact if_neg (hnot '=' rfl)
  | mod => exact if_neg (hnot '=' rfl)
  | plus =>
    exact (if_neg (Bool.eq_false_iff.mp (hsign.1 rfl))).trans (if_neg (hnot '=' rfl))
  | minus =>
    exact (if_neg (not_isDash_head ht (hsign.2 rfl))).trans (if_neg (hnot '=' rfl))
  | shleft => exact if_neg (hnot '=' rfl)
  | shright => exact if_neg (hnot '=' rfl)
  | les => exact (if_neg (hnot '<' rfl)).trans (if_neg (hnot '=' rfl))
  | leq => rfl
  | gre => exact (if_neg (hnot '>' rfl)).trans (if_neg (hnot '=' rfl))
  | geq => rfl
  | deq => rfl
  | neq => rfl
  | and => exact (if_neg (hnot '&' rfl)).trans (if_neg (hnot '=' rfl))
  | xor => exact (if_neg (hnot '^' rfl)).trans (if_neg (hnot '=' rfl))
  | or => exact (if_neg (hnot '|' rfl)).trans (if_neg (hnot '=' rfl))
  | dxor => exact if_neg (hnot '=' rfl)
  | comma => rfl

/-- A prefix operator in front of an operand that is no constant right behind a minus sign. -/
theorem zzlex_prefix (op : MathPrefix)
    (ht : ∀ c, t.head? = some c → operandByte c = true) (hsign : SignFree op.text t)
    (hdigit : op = .uminus → ¬ t.head?.any idigit = true) :
    zzlex env true (op.text ++ t) = operator op.token t := by
  have hnot (x : Char) (hx : operandByte (char x) = false) : ¬ headIs x t = true :=
    Bool.eq_false_iff.mp (headIs_eq_false hx ht)
  cases op with
  | not => exact if_neg (hnot '=' rfl)
  | comp => rfl
  | uplus =>
    exact (if_neg (Bool.eq_false_iff.mp (hsign.1 rfl))).trans (if_neg (hnot '=' rfl))
  | uminus =>
    exact (if_neg (not_isDash_head ht (hsign.2 rfl))).trans ((if_neg (hnot '=' rfl)).trans
      ((if_neg (hdigit rfl)).trans (if_neg (hnot '.' rfl))))

end Bsh.Shell
