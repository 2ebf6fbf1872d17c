import Cutflow.Number

/-!
# Operators

The operators of the expression language with their symbols and their meaning on numbers.
Arithmetic and comparisons are *pointwise*: they combine numbers one by one. The two connectives
are kept apart from them, because they may leave their right operand unevaluated.
-/

namespace Cutflow

/-- The operators that stand before one operand. -/
inductive UnaryOp where
  /-- The number with its sign changed. -/
  | neg
  /-- The number itself. -/
  | plus
  /-- `1` for zero, `0` for every other number. -/
  | not
  deriving DecidableEq

/-- The binary operators that always evaluate both operands. -/
inductive Pointwise where
  /-- The sum. -/
  | add
  /-- The difference. -/
  | sub
  /-- The product. -/
  | mul
  /-- The quotient. -/
  | div
  /-- The remainder of the truncated quotient. -/
  | rem
  /-- Whether the numbers are equal; NaN equals nothing. -/
  | eq
  /-- Whether the numbers differ. -/
  | ne
  /-- Whether the left number is less. -/
  | lt
  /-- Whether the left number is less or equal. -/
  | le
  /-- Whether the left number is greater. -/
  | gt
  /-- Whether the left number is greater or equal. -/
  | ge
  deriving DecidableEq

/-- The logical connectives. -/
inductive Connective where
  /-- True if both operands are. -/
  | and
  /-- True if one operand is. -/
  | or
  deriving DecidableEq

/-- The operators that stand between two operands. -/
inductive BinaryOp where
  /-- An operator that evaluates both operands. -/
  | pointwise (op : Pointwise)
  /-- A connective. -/
  | connective (op : Connective)
  deriving DecidableEq

/-- The spelling of an operator. -/
def UnaryOp.symbol : UnaryOp → String
  | .neg => "-"
  | .plus => "+"
  | .not => "!"

@[inherit_doc UnaryOp.symbol]
def Pointwise.symbol : Pointwise → String
  | .add => "+"
  | .sub => "-"
  | .mul => "*"
  | .div => "/"
  | .rem => "%"
  | .eq => "=="
  | .ne => "!="
  | .lt => "<"
  | .le => "<="
  | .gt => ">"
  | .ge => ">="

@[inherit_doc UnaryOp.symbol]
def Connective.symbol : Connective → String
  | .and => "&&"
  | .or => "||"

@[inherit_doc UnaryOp.symbol]
def BinaryOp.symbol : BinaryOp → String
  | .pointwise op => op.symbol
  | .connective op => op.symbol

open Number

/-- The operator on one number. -/
def UnaryOp.apply : UnaryOp → Float → Float
  | .neg, x => -x
  | .plus, x => x
  | .not, x => ofTruth (!isTrue x)

/-- The operator on two numbers; comparisons answer `1` or `0`. -/
def Pointwise.apply : Pointwise → Float → Float → Float
  | .add, x, y => x + y
  | .sub, x, y => x - y
  | .mul, x, y => x * y
  | .div, x, y => x / y
  | .rem, x, y => remainder x y
  | .eq, x, y => ofTruth (x == y)
  | .ne, x, y => ofTruth (x != y)
  | .lt, x, y => ofTruth (decide (x < y))
  | .le, x, y => ofTruth (decide (x ≤ y))
  | .gt, x, y => ofTruth (decide (y < x))
  | .ge, x, y => ofTruth (decide (y ≤ x))

/-- The connective on two truth values. -/
def Connective.apply : Connective → Bool → Bool → Bool
  | .and, a, b => a && b
  | .or, a, b => a || b

/-- The truth value of a left operand that decides the connective alone. -/
def Connective.deciding : Connective → Bool
  | .and => false
  | .or => true

theorem Connective.apply_deciding (op : Connective) (b : Bool) :
    op.apply op.deciding b = op.deciding := by
  cases op <;> rfl

theorem Connective.apply_of_ne (op : Connective) {a : Bool} (h : a ≠ op.deciding) (b : Bool) :
    op.apply a b = b := by
  cases op <;> cases a <;> simp_all [apply, deciding]

end Cutflow
