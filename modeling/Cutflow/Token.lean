import Cutflow.Decimal

/-!
# Tokens

The lexemes of an expression, each with the bytes of the text it was read from, and the labels
by which messages name them.
-/

namespace Cutflow

/-- What a token is. -/
inductive Token.Kind where
  /-- An identifier. -/
  | ident (name : String)
  /-- A number. -/
  | number (value : Float)
  /-- The word `true` or `false`. -/
  | bool (value : Bool)
  /-- `(` -/
  | lparen
  /-- `)` -/
  | rparen
  /-- `[` -/
  | lbracket
  /-- `]` -/
  | rbracket
  /-- `+` -/
  | plus
  /-- `-` -/
  | minus
  /-- `*` -/
  | star
  /-- `/` -/
  | slash
  /-- `%` -/
  | percent
  /-- `!` -/
  | bang
  /-- `==` -/
  | eqEq
  /-- `!=` -/
  | ne
  /-- `<` -/
  | lt
  /-- `<=` -/
  | le
  /-- `>` -/
  | gt
  /-- `>=` -/
  | ge
  /-- `&&` -/
  | andAnd
  /-- `||` -/
  | orOr
  /-- The end of the text. -/
  | eof
  deriving DecidableEq

/-- A lexeme and its place in the text, from byte `start` up to but not including byte `stop`. -/
structure Token where
  kind : Token.Kind
  start : Nat
  stop : Nat
  deriving DecidableEq

namespace Token

/-- Numbers in messages about tokens: a point in every whole number, an exponent from `10 ^ 16`
on and below `10 ^ (-4)`. -/
def layout : Decimal.Layout where
  tie := .up
  positional p := -4 ≤ p && p ≤ 15
  wholePoint := true
  exponentPlus := false
  nan := "NaN"
  infinity := "inf"
  minusInfinity := "-inf"

/-- The label of a token in messages. -/
def Kind.label : Kind → String
  | .ident name => "Ident(\"" ++ name ++ "\")"
  | .number x => "Number(" ++ layout.write x ++ ")"
  | .bool true => "True"
  | .bool false => "False"
  | .lparen => "LParen"
  | .rparen => "RParen"
  | .lbracket => "LBracket"
  | .rbracket => "RBracket"
  | .plus => "Plus"
  | .minus => "Minus"
  | .star => "Star"
  | .slash => "Slash"
  | .percent => "Percent"
  | .bang => "Bang"
  | .eqEq => "EqEq"
  | .ne => "Ne"
  | .lt => "Lt"
  | .le => "Le"
  | .gt => "Gt"
  | .ge => "Ge"
  | .andAnd => "AndAnd"
  | .orOr => "OrOr"
  | .eof => "Eof"

end Token

end Cutflow
