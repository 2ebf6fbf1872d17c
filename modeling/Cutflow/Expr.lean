import Cutflow.Operator
import Cutflow.Token.Lexer

/-!
# Expressions

The trees that expression texts stand for, and their reading by recursive descent over the tokens
of a text. Parentheses leave no trace in a tree.

## The model

Binary operators have six levels, from the connective `||` at level 6 to the multiplications at
level 1; all of them associate to the left. Below them, at level 0, come the operators that stand
before an operand, then indexing, then the primaries: numbers, truth values, identifiers and
parenthesised expressions.

Each function reads one phrase off the front of a list of tokens. A phrase has at least one
token, so what follows it is shorter than the list, and `Parsed` carries that fact: it is why
the descent ends. The token at the end of a text is looked at but never read past.
-/

namespace Cutflow

/-- An expression. -/
inductive Expr where
  /-- A number. -/
  | number (value : Float)
  /-- A truth value. -/
  | bool (value : Bool)
  /-- A variable of the event or a registered function. -/
  | ident (name : String)
  /-- An operator before its operand. -/
  | unary (op : UnaryOp) (operand : Expr)
  /-- An operator between its operands. -/
  | binary (op : BinaryOp) (left right : Expr)
  /-- Entry `index` of the vector `base`. -/
  | index (base index : Expr)
  deriving DecidableEq

namespace Expr

/-! ### Reading -/

/-- The binary operator a token stands for. -/
def binaryOp? : Token.Kind → Option BinaryOp
  | .plus => some (.pointwise .add)
  | .minus => some (.pointwise .sub)
  | .star => some (.pointwise .mul)
  | .slash => some (.pointwise .div)
  | .percent => some (.pointwise .rem)
  | .eqEq => some (.pointwise .eq)
  | .ne => some (.pointwise .ne)
  | .lt => some (.pointwise .lt)
  | .le => some (.pointwise .le)
  | .gt => some (.pointwise .gt)
  | .ge => some (.pointwise .ge)
  | .andAnd => some (.connective .and)
  | .orOr => some (.connective .or)
  | _ => none

/-- The operator a token stands for before an operand. -/
def unaryOp? : Token.Kind → Option UnaryOp
  | .minus => some .neg
  | .plus => some .plus
  | .bang => some .not
  | _ => none

/-- The level of a binary operator; a higher level binds less tightly. -/
def level : BinaryOp → Nat
  | .connective .or => 6
  | .connective .and => 5
  | .pointwise .eq | .pointwise .ne => 4
  | .pointwise .lt | .pointwise .le | .pointwise .gt | .pointwise .ge => 3
  | .pointwise .add | .pointwise .sub => 2
  | .pointwise .mul | .pointwise .div | .pointwise .rem => 1

/-- The level of whole expressions. -/
def topLevel : Nat := 6

/-- The binary operator of level `n` at the front of a list of tokens. -/
def operatorAt? (n : Nat) (ts : List Token) : Option BinaryOp :=
  (ts.head?.bind fun t => binaryOp? t.kind).filter fun op => level op = n

/-- A phrase read off the front of `ts`, and what follows it. -/
structure Parsed (ts : List Token) where
  expr : Expr
  rest : List Token
  shorter : rest.length < ts.length

/-- What follows the token `wanted`, which has to come first. -/
def expect (wanted : Token.Kind) (ts : List Token) :
    Except Error { rest : List Token // rest.length < ts.length } :=
  match ts with
  | [] => .error (.parse 0 (.expected wanted .eof))
  | t :: rest =>
    if t.kind = wanted then .ok ⟨rest, by simp⟩
    else .error (.parse t.start (.expected wanted t.kind))

theorem length_of_operatorAt? {n : Nat} {ts : List Token} {op : BinaryOp}
    (h : operatorAt? n ts = some op) : ts.tail.length < ts.length := by
  cases ts with
  | nil => simp [operatorAt?] at h
  | cons t ts => simp

mutual

/-- An expression whose binary operators outside parentheses have level `n` at most. -/
def parseLevel (n : Nat) (ts : List Token) : Except Error (Parsed ts) :=
  match n with
  | 0 => parseUnary ts
  | n + 1 => do
    let first ← parseLevel n ts
    parseChain n first
termination_by (ts.length, n + 3)
decreasing_by
  · exact .right _ (by omega)
  · exact .right _ (by omega)
  · exact .left _ _ first.shorter

/-- The phrase `left`, taken on by the operators of level `n + 1` that follow it, each with its
right operand of level `n`. -/
def parseChain (n : Nat) {ts : List Token} (left : Parsed ts) : Except Error (Parsed ts) :=
  match h : operatorAt? (n + 1) left.rest with
  | none => .ok left
  | some op => do
    let right ← parseLevel n left.rest.tail
    parseChain n ⟨.binary op left.expr right.expr, right.rest, by
      have := left.shorter
      have := right.shorter
      have := length_of_operatorAt? h
      omega⟩
termination_by (left.rest.length, n + 3)
decreasing_by
  · exact .left _ _ (length_of_operatorAt? h)
  · exact .left _ _ (Nat.lt_trans right.shorter (length_of_operatorAt? h))

/-- An operand with the operators that stand before it. -/
def parseUnary (ts : List Token) : Except Error (Parsed ts) :=
  match ts with
  | [] => parseIndexed []
  | t :: rest =>
    match unaryOp? t.kind with
    | none => parseIndexed (t :: rest)
    | some op => do
      let p ← parseUnary rest
      return ⟨.unary op p.expr, p.rest, Nat.lt_succ_of_lt p.shorter⟩
termination_by (ts.length, 2)

/-- A primary with the indices that follow it. -/
def parseIndexed (ts : List Token) : Except Error (Parsed ts) := do
  let base ← parsePrimary ts
  parseIndices base
termination_by (ts.length, 1)
decreasing_by
  · exact .right _ (by omega)
  · exact .left _ _ base.shorter

/-- The phrase `base`, taken on by the bracketed indices that follow it. -/
def parseIndices {ts : List Token} (base : Parsed ts) : Except Error (Parsed ts) :=
  match h : base.rest with
  | [] => .ok base
  | t :: rest =>
    if t.kind = .lbracket then do
      let entry ← parseLevel topLevel rest
      let ⟨rest', shorter'⟩ ← expect .rbracket entry.rest
      parseIndices ⟨.index base.expr entry.expr, rest', by
        have := base.shorter
        have := entry.shorter
        simp_all
        omega⟩
    else .ok base
termination_by (base.rest.length, 1)
decreasing_by
  all_goals
    apply Prod.Lex.left
    simp only [h, List.length_cons]
  · omega
  · have := entry.shorter
    omega

/-- A number, a truth value, an identifier or an expression in parentheses. -/
def parsePrimary (ts : List Token) : Except Error (Parsed ts) :=
  match ts with
  | [] => .error (.parse 0 .unexpectedEnd)
  | t :: rest =>
    match t.kind with
    | .number x => .ok ⟨.number x, rest, by simp⟩
    | .bool b => .ok ⟨.bool b, rest, by simp⟩
    | .ident name => .ok ⟨.ident name, rest, by simp⟩
    | .lparen => do
      let inner ← parseLevel topLevel rest
      let ⟨rest', shorter'⟩ ← expect .rparen inner.rest
      return ⟨inner.expr, rest', by
        have := inner.shorter
        simp
        omega⟩
    | .eof => .error (.parse t.start .unexpectedEnd)
    | other => .error (.parse t.start (.unexpectedToken other))
termination_by (ts.length, 0)

end

/-- The expression a list of tokens stands for. -/
def ofTokens (ts : List Token) : Except Error Expr := do
  let p ← parseLevel topLevel ts
  let _ ← expect .eof p.rest
  return p.expr

/-- The expression a text stands for. -/
def parse (text : String) : Except Error Expr := do
  ofTokens (← Token.lex text)

end Expr

end Cutflow
