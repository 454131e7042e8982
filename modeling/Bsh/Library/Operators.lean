import Mathlib.Order.Basic
import Mathlib.Data.Nat.Basic

/-!
# Expressions with operators and their texts

Trees over constants, prefix and infix operators, and the pieces that a tree is printed as when it
gets only the parentheses that a table of precedences and associativities requires.  A lower
precedence number binds tighter, and prefix operators bind tighter than all infix operators.
-/

namespace Bsh.Library

/-- Precedence and associativity of the infix operators. -/
structure OperatorTable (β : Type*) where
  prefixPrec : ℕ
  prec : β → ℕ
  rightAssoc : β → Bool
  prefix_pos : 0 < prefixPrec
  prefix_lt : ∀ b, prefixPrec < prec b
  assoc_eq : ∀ b c, prec b = prec c → rightAssoc b = rightAssoc c

/-- Constants `ν`, prefix operators `υ` and infix operators `β`. -/
inductive Expression (ν υ β : Type*) where
  | const (n : ν)
  | unary (op : υ) (operand : Expression ν υ β)
  | binary (op : β) (left right : Expression ν υ β)

/-- What a printed expression consists of. -/
inductive Piece (ν υ β : Type*) where
  | const (n : ν)
  | prefixOp (op : υ)
  | infixOp (op : β)
  | opening
  | closing

namespace OperatorTable

variable {β : Type*} (table : OperatorTable β)

/-- The loosest precedence that an operand may have without parentheses. -/
def leftBound (op : β) : ℕ :=
  if table.rightAssoc op then table.prec op - 1 else table.prec op

def rightBound (op : β) : ℕ :=
  if table.rightAssoc op then table.prec op else table.prec op - 1

theorem leftBound_le (op : β) : table.leftBound op ≤ table.prec op := by
  unfold leftBound
  split
  · exact Nat.sub_le _ _
  · exact le_rfl

theorem rightBound_le (op : β) : table.rightBound op ≤ table.prec op := by
  unfold rightBound
  split
  · exact le_rfl
  · exact Nat.sub_le _ _

theorem prefix_le_leftBound (op : β) : table.prefixPrec ≤ table.leftBound op := by
  have h := table.prefix_lt op
  unfold leftBound
  split
  · exact Nat.le_sub_one_of_lt h
  · exact h.le

theorem prefix_le_rightBound (op : β) : table.prefixPrec ≤ table.rightBound op := by
  have h := table.prefix_lt op
  unfold rightBound
  split
  · exact h.le
  · exact Nat.le_sub_one_of_lt h

end OperatorTable

namespace Expression

variable {ν υ β α : Type*}

/-- The precedence of a tree's root. -/
def level (table : OperatorTable β) : Expression ν υ β → ℕ
  | const _ => 0
  | unary _ _ => table.prefixPrec
  | binary op _ _ => table.prec op

/-- The loosest operator that would be taken into the tree if it came behind its text. -/
def tight (table : OperatorTable β) : Expression ν υ β → ℕ
  | const _ => 0
  | unary _ _ => table.prefixPrec
  | binary op _ _ => table.rightBound op

/-- Parentheses around a text. -/
def enclose (parentheses : Bool) (text : List (Piece ν υ β)) : List (Piece ν υ β) :=
  if parentheses then .opening :: (text ++ [.closing]) else text

/-- The text of a tree. -/
def pieces (table : OperatorTable β) : Expression ν υ β → List (Piece ν υ β)
  | const n => [.const n]
  | unary op e =>
    .prefixOp op :: enclose (table.prefixPrec < e.level table) (e.pieces table)
  | binary op l r =>
    enclose (table.leftBound op < l.level table) (l.pieces table) ++
      .infixOp op :: enclose (table.rightBound op < r.level table) (r.pieces table)

/-- The value of a tree; the operands are evaluated from left to right. -/
def eval (constant : ν → α) (prefixValue : υ → α → α) (infixValue : β → α → α → Option α) :
    Expression ν υ β → Option α
  | const n => some (constant n)
  | unary op e => (e.eval constant prefixValue infixValue).map (prefixValue op)
  | binary op l r =>
    match l.eval constant prefixValue infixValue, r.eval constant prefixValue infixValue with
    | some a, some b => infixValue op a b
    | _, _ => none

/-- Every operation of an evaluation is applied within its domain. -/
def Within (constant : ν → α) (prefixValue : υ → α → α) (infixValue : β → α → α → Option α)
    (domain : β → α → α → Prop) : Expression ν υ β → Prop
  | const _ => True
  | unary _ e => e.Within constant prefixValue infixValue domain
  | binary op l r =>
    l.Within constant prefixValue infixValue domain ∧
      r.Within constant prefixValue infixValue domain ∧
        ∀ a b, l.eval constant prefixValue infixValue = some a →
          r.eval constant prefixValue infixValue = some b → domain op a b

/-- How many values an evaluation from left to right keeps at once. -/
def depth : Expression ν υ β → ℕ
  | const _ => 1
  | unary _ e => e.depth
  | binary _ l r => max l.depth (r.depth + 1)

theorem tight_le_level (table : OperatorTable β) (e : Expression ν υ β) :
    e.tight table ≤ e.level table := by
  cases e with
  | const n => exact le_rfl
  | unary op e => exact le_rfl
  | binary op l r => exact table.rightBound_le op

/-- An operator does not take its left operand apart. -/
theorem tight_lt_prec (table : OperatorTable β) {op : β} {l : Expression ν υ β}
    (h : l.level table ≤ table.leftBound op) : l.tight table < table.prec op := by
  have hfront := table.prefix_lt op
  cases l with
  | const n => exact Nat.zero_lt_of_lt hfront
  | unary op' e => exact hfront
  | binary op' l r =>
    change table.prec op' ≤ table.leftBound op at h
    change table.rightBound op' < table.prec op
    have hright := table.rightBound_le op'
    unfold OperatorTable.leftBound at h
    cases hop : table.rightAssoc op with
    | true =>
      rw [hop, if_pos rfl] at h
      omega
    | false =>
      rw [hop, if_neg Bool.false_ne_true] at h
      rcases h.lt_or_eq with hlt | heq
      · omega
      · unfold OperatorTable.rightBound
        rw [table.assoc_eq op' op heq, hop, if_neg Bool.false_ne_true]
        omega

end Expression

end Bsh.Library
