import Bsh.Library.Operators
import Bsh.Shell.Math
import Mathlib.Data.Int.Init

/-!
# Expressions over the integers and their texts

Expressions over integer constants, the prefix operators and the infix operators that do not
short-circuit, with their values in two's complement and their texts: the pieces of a printed
expression with blanks between them.
-/

namespace Bsh.Shell

open Bsh.Library Decimal

/-! ## Operators -/

inductive MathPrefix where
  | not
  | comp
  | uplus
  | uminus
  deriving DecidableEq

inductive MathInfix where
  | power
  | mul
  | div
  | mod
  | plus
  | minus
  | shleft
  | shright
  | les
  | leq
  | gre
  | geq
  | deq
  | neq
  | and
  | xor
  | or
  | dxor
  | comma
  deriving DecidableEq

def MathPrefix.token : MathPrefix → MathToken
  | .not => .not
  | .comp => .comp
  | .uplus => .uplus
  | .uminus => .uminus

def MathInfix.token : MathInfix → MathToken
  | .power => .power
  | .mul => .mul
  | .div => .div
  | .mod => .mod
  | .plus => .plus
  | .minus => .minus
  | .shleft => .shleft
  | .shright => .shright
  | .les => .les
  | .leq => .leq
  | .gre => .gre
  | .geq => .geq
  | .deq => .deq
  | .neq => .neq
  | .and => .and
  | .xor => .xor
  | .or => .or
  | .dxor => .dxor
  | .comma => .comma

def MathPrefix.text : MathPrefix → Bytes
  | .not => [char '!']
  | .comp => [char '~']
  | .uplus => [char '+']
  | .uminus => [char '-']

def MathInfix.text : MathInfix → Bytes
  | .power => [char '*', char '*']
  | .mul => [char '*']
  | .div => [char '/']
  | .mod => [char '%']
  | .plus => [char '+']
  | .minus => [char '-']
  | .shleft => [char '<', char '<']
  | .shright => [char '>', char '>']
  | .les => [char '<']
  | .leq => [char '<', char '=']
  | .gre => [char '>']
  | .geq => [char '>', char '=']
  | .deq => [char '=', char '=']
  | .neq => [char '!', char '=']
  | .and => [char '&']
  | .xor => [char '^']
  | .or => [char '|']
  | .dxor => [char '^', char '^']
  | .comma => [char ',']

/-- The precedences of the table in use; `**` and the comma associate to the right. -/
def mathTable (env : MathEnv) : OperatorTable MathInfix where
  prefixPrec := 2
  prec op := env.prec op.token
  rightAssoc op := op = .power || op = .comma
  prefix_pos := by decide
  prefix_lt op := by
    unfold MathEnv.prec
    cases env.cPrecedences <;> cases op <;> decide
  assoc_eq op op' := by
    unfold MathEnv.prec
    cases env.cPrecedences <;> cases op <;> cases op' <;> decide

/-- The associativity bits of the table `type` are as documented. -/
theorem assoc_token (op : MathInfix) :
    op.token.type.assoc = if op = .power ∨ op = .comma then .rl else .lr := by
  cases op <;> rfl

/-! ## Values -/

/-- The integer that 64 bits of two's complement keep. -/
def wrap (n : ℤ) : ℤ := n.bmod (2 ^ 64)

/-- Constants that a text can show. -/
abbrev MathExpr := Expression (Fin (2 ^ 63)) MathPrefix MathInfix

def prefixValue : MathPrefix → ℤ → ℤ
  | .not, a => if a = 0 then 1 else 0
  | .comp, a => -a - 1
  | .uplus, a => a
  | .uminus, a => wrap (-a)

/-- A bit operation on two's complement. -/
def bitwise (f : Zlong → Zlong → Zlong) (a b : ℤ) : ℤ :=
  (f (BitVec.ofInt 64 a) (BitVec.ofInt 64 b)).toInt

def truth (p : Prop) [Decidable p] : ℤ := if p then 1 else 0

/-- The value of an operation; there is none for a division by zero. -/
def infixValue : MathInfix → ℤ → ℤ → Option ℤ
  | .power, a, b => some (wrap (a ^ b.toNat))
  | .mul, a, b => some (wrap (a * b))
  | .div, a, b => if b = 0 then none else some (wrap (a.tdiv b))
  | .mod, a, b => if b = 0 then none else some (a.tmod b)
  | .plus, a, b => some (wrap (a + b))
  | .minus, a, b => some (wrap (a - b))
  | .shleft, a, b => some (wrap (a * 2 ^ b.toNat))
  | .shright, a, b => some (a / 2 ^ b.toNat)
  | .les, a, b => some (truth (a < b))
  | .leq, a, b => some (truth (a ≤ b))
  | .gre, a, b => some (truth (b < a))
  | .geq, a, b => some (truth (b ≤ a))
  | .deq, a, b => some (truth (a = b))
  | .neq, a, b => some (truth (a ≠ b))
  | .and, a, b => some (bitwise (· &&& ·) a b)
  | .xor, a, b => some (bitwise (· ^^^ ·) a b)
  | .or, a, b => some (bitwise (· ||| ·) a b)
  | .dxor, a, b => some (truth ((a ≠ 0 ∧ b = 0) ∨ (a = 0 ∧ b ≠ 0)))
  | .comma, _, b => some b

/-- Exponents are not negative, and shift counts are less than the width. -/
def InDomain : MathInfix → ℤ → ℤ → Prop
  | .power, _, b => 0 ≤ b
  | .shleft, _, b => 0 ≤ b ∧ b < 64
  | .shright, _, b => 0 ≤ b ∧ b < 64
  | _, _, _ => True

namespace MathExpr

/-- The value of an expression. -/
def value (e : MathExpr) : Option ℤ :=
  e.eval (fun n ↦ (n.val : ℤ)) prefixValue infixValue

/-- The operations of an expression stay in their domains. -/
def InDomain (e : MathExpr) : Prop :=
  e.Within (fun n ↦ (n.val : ℤ)) prefixValue infixValue Shell.InDomain

end MathExpr

/-! ## The values that the code computes -/

theorem toInt_ofBool (b : Bool) : (ofBool b).toInt = truth (b = true) := by
  cases b <;> rfl

theorem toInt_prefixOp (op : MathPrefix) (a : Zlong) :
    (match op with
      | .not => ofBool (a = 0)
      | .comp => ~~~a
      | .uplus => a
      | .uminus => -a).toInt = prefixValue op a.toInt := by
  cases op with
  | not =>
    rw [toInt_ofBool]
    unfold truth prefixValue
    simp [← BitVec.toInt_inj]
  | comp =>
    change (~~~a).toInt = -a.toInt - 1
    rw [BitVec.toInt_eq_toNat_cond, BitVec.toInt_eq_toNat_cond, BitVec.toNat_not]
    split <;> split <;> omega
  | uplus => rfl
  | uminus => exact BitVec.toInt_neg

theorem toInt_powerLoop (a : Zlong) (n : ℕ) (c : Zlong) :
    (powerLoop a n c).toInt = wrap (c.toInt * a.toInt ^ n) := by
  induction n generalizing c with
  | zero =>
    unfold powerLoop wrap
    rw [pow_zero, mul_one, BitVec.toInt_bmod_cancel]
  | succ n ih =>
    rw [powerLoop, ih, BitVec.toInt_mul]
    unfold wrap
    rw [Int.bmod_mul_bmod]
    ring

theorem toNat_toInt_of_nonneg {b : Zlong} (h : 0 ≤ b.toInt) : b.toInt.toNat = b.toNat := by
  have hmsb : b.msb = false := by
    rw [BitVec.msb_eq_toInt]
    exact decide_eq_false (not_lt.mpr h)
  rw [BitVec.toInt_eq_toNat_of_msb hmsb, Int.toNat_natCast]

theorem toInt_shiftLeft_eq (a : Zlong) (n : ℕ) :
    (a <<< n).toInt = wrap (a.toInt * 2 ^ n) := by
  rw [BitVec.toInt_shiftLeft, BitVec.toInt_eq_toNat_bmod, Nat.shiftLeft_eq]
  push_cast
  exact Int.bmod_mul_bmod.symm

theorem truth_congr {p q : Prop} [Decidable p] [Decidable q] (h : p ↔ q) : truth p = truth q := by
  unfold truth
  by_cases hp : p
  · rw [if_pos hp, if_pos (h.mp hp)]
  · rw [if_neg hp, if_neg (mt h.mpr hp)]

theorem toInt_eq_zero {b : Zlong} : b.toInt = 0 ↔ b = 0 := by
  rw [← BitVec.toInt_inj]
  rfl

/-- An operation on 64 bits is the operation on the integers that they stand for. -/
theorem binaryValue_spec (op : MathInfix) (a b : Zlong)
    (hdomain : InDomain op a.toInt b.toInt) :
    match infixValue op a.toInt b.toInt with
    | some v => ∃ c, binaryValue op.token a b = .ok (.ok c) ∧ c.toInt = v
    | none => binaryValue op.token a b = .ok (.error .divisionByZero) := by
  cases op with
  | power =>
    have hmsb : b.msb = false := by
      rw [BitVec.msb_eq_toInt]
      exact decide_eq_false (not_lt.mpr hdomain)
    refine ⟨powerLoop a b.toNat 1, if_neg (by simp [hmsb]), ?_⟩
    have hone : (1 : Zlong).toInt = 1 := rfl
    rw [toInt_powerLoop, hone, one_mul, toNat_toInt_of_nonneg hdomain]
  | mul => exact ⟨a * b, rfl, BitVec.toInt_mul a b⟩
  | div =>
    by_cases hb : b = 0
    · subst hb
      rfl
    · have hvalue : infixValue .div a.toInt b.toInt = some (wrap (a.toInt.tdiv b.toInt)) :=
        if_neg (mt toInt_eq_zero.mp hb)
      rw [hvalue]
      refine ⟨_, if_neg hb, ?_⟩
      split
      · next hone =>
        subst hone
        have hminus : (-1 : Zlong).toInt = -1 := rfl
        rw [hminus, Int.tdiv_neg, Int.tdiv_one]
        exact BitVec.toInt_neg
      · exact BitVec.toInt_sdiv a b
  | mod =>
    by_cases hb : b = 0
    · subst hb
      rfl
    · have hvalue : infixValue .mod a.toInt b.toInt = some (a.toInt.tmod b.toInt) :=
        if_neg (mt toInt_eq_zero.mp hb)
      rw [hvalue]
      refine ⟨_, if_neg hb, ?_⟩
      split
      · next hone =>
        subst hone
        have hminus : (-1 : Zlong).toInt = -1 := rfl
        rw [hminus, Int.tmod_neg, Int.tmod_one]
        rfl
      · exact BitVec.toInt_srem a b
  | plus => exact ⟨a + b, rfl, BitVec.toInt_add a b⟩
  | minus => exact ⟨a - b, rfl, BitVec.toInt_sub⟩
  | shleft =>
    have hcount := toNat_toInt_of_nonneg hdomain.1
    have hlt : b.toNat < 64 := by
      have := hdomain.2
      omega
    refine ⟨a <<< b.toNat, if_pos hlt, ?_⟩
    rw [toInt_shiftLeft_eq, hcount]
  | shright =>
    have hcount := toNat_toInt_of_nonneg hdomain.1
    have hlt : b.toNat < 64 := by
      have := hdomain.2
      omega
    refine ⟨a.sshiftRight b.toNat, if_pos hlt, ?_⟩
    rw [BitVec.toInt_sshiftRight, Int.shiftRight_eq_div_pow, hcount]
    rfl
  | les => exact ⟨_, rfl, (toInt_ofBool _).trans (truth_congr BitVec.slt_iff_toInt_lt)⟩
  | leq => exact ⟨_, rfl, (toInt_ofBool _).trans (truth_congr BitVec.sle_iff_toInt_le)⟩
  | gre => exact ⟨_, rfl, (toInt_ofBool _).trans (truth_congr BitVec.slt_iff_toInt_lt)⟩
  | geq => exact ⟨_, rfl, (toInt_ofBool _).trans (truth_congr BitVec.sle_iff_toInt_le)⟩
  | deq =>
    refine ⟨_, rfl, (toInt_ofBool _).trans (truth_congr ?_)⟩
    rw [decide_eq_true_eq, BitVec.toInt_inj]
  | neq =>
    refine ⟨_, rfl, (toInt_ofBool _).trans (truth_congr ?_)⟩
    rw [decide_eq_true_eq, Ne, Ne, BitVec.toInt_inj]
  | and =>
    refine ⟨a &&& b, rfl, ?_⟩
    unfold bitwise
    rw [BitVec.ofInt_toInt, BitVec.ofInt_toInt]
  | xor =>
    refine ⟨a ^^^ b, rfl, ?_⟩
    unfold bitwise
    rw [BitVec.ofInt_toInt, BitVec.ofInt_toInt]
  | or =>
    refine ⟨a ||| b, rfl, ?_⟩
    unfold bitwise
    rw [BitVec.ofInt_toInt, BitVec.ofInt_toInt]
  | dxor =>
    refine ⟨_, rfl, (toInt_ofBool _).trans (truth_congr ?_)⟩
    simp only [Ne, toInt_eq_zero, Bool.or_eq_true, Bool.and_eq_true, decide_eq_true_eq]
  | comma => exact ⟨b, rfl, rfl⟩

end Bsh.Shell
