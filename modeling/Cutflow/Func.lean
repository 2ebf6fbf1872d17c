import Cutflow.Evaluator
import Cutflow.Text

/-!
# Functions

A function of the event is an evaluator with a name. The name is expression text: that of a
constant or a variable reads back as it, and the operators put the names of their operands in
parentheses around their symbol, so a composed function is named by its own formula.

Names hold no blanks. `Func.ofEvaluator` and `Func.rename` take them out of the text they are
given; `Func.absorb`, which changes a function in place, joins two names without looking at them.
-/

namespace Cutflow

/-- A named evaluator. -/
structure Func where
  name : String
  evaluator : Evaluator

namespace Func

/-- Numbers in names: an exponent from `10 ^ 16` on and below `10 ^ (-6)`, no point in a whole
number, and a quotient for what no digits can say. -/
def constantLayout : Decimal.Layout where
  tie := .up
  positional p := -6 ≤ p && p ≤ 15
  wholePoint := false
  exponentPlus := false
  nan := "(0/0)"
  infinity := "(1/0)"
  minusInfinity := "(-1/0)"

/-! ### Building functions -/

/-- A function with the given name, its blanks taken out. -/
def ofEvaluator (name : String) (evaluator : Evaluator) : Func :=
  ⟨Text.withoutBlanks name, evaluator⟩

/-- The function that gives the same number on every record, named by that number. -/
def constant (x : Float) : Func :=
  ofEvaluator (constantLayout.write x) (.scalar fun _ => return x)

/-- The function that reads a quantity off the record; it fails on a record that has no quantity
of that name and shape. -/
def ofVariable (name : String) : Shape → Func
  | .scalar => ofEvaluator name <| .scalar fun r =>
    match r.scalar? name with
    | some x => return x
    | none => .fail (.missingVariable name)
  | .vector => ofEvaluator name <| .vector fun r =>
    match r.vector? name with
    | some xs => return xs
    | none => .fail (.missingVariable name)

/-- The evaluator of a hand-written leaf: each call is noted under `id` and ends the same way,
with a value or an error. -/
def leafEvaluator (id : String) (value : Value) (failure : Option Error) : Evaluator :=
  match value with
  | .scalar x => .scalar fun _ => ⟨[id], failure.elim (.ok x) .error⟩
  | .vector xs => .vector fun _ => ⟨[id], failure.elim (.ok xs) .error⟩

/-! ### Changing and inspecting functions -/

/-- The function under another name, its blanks taken out. -/
def rename (f : Func) (name : String) : Func := { f with name := Text.withoutBlanks name }

/-- The name with another evaluator. -/
def withEvaluator (f : Func) (evaluator : Evaluator) : Func := { f with evaluator }

/-- The shape of the function's values. -/
def shape (f : Func) : Shape := f.evaluator.shape

/-- The number the function gives on a record; only scalar functions give one. -/
def evalScalar (f : Func) (r : Record) : Outcome Float :=
  match f.evaluator with
  | .scalar run => run r
  | .vector _ => .fail (.invalidShape f.name .scalar)

/-- The list the function gives on a record; only vector functions give one. -/
def evalVector (f : Func) (r : Record) : Outcome (List Float) :=
  match f.evaluator with
  | .vector run => run r
  | .scalar _ => .fail (.invalidShape f.name .vector)

/-- The function on a record, evaluated at a given shape. -/
def evalAs (f : Func) (r : Record) : Shape → Outcome Value
  | .scalar => return .scalar (← f.evalScalar r)
  | .vector => return .vector (← f.evalVector r)

/-- The function on a record, evaluated at its own shape. -/
def eval (f : Func) (r : Record) : Outcome Value := f.evalAs r f.shape

/-! ### Operators -/

/-- The name of two operands joined by an operator. -/
def joinedName (left symbol right : String) : String :=
  "(" ++ left ++ ")" ++ symbol ++ "(" ++ right ++ ")"

/-- An operator before a function. -/
def unary (op : UnaryOp) (f : Func) : Func :=
  ofEvaluator (op.symbol ++ "(" ++ f.name ++ ")") <|
    match op with
    | .plus => f.evaluator
    | op => f.evaluator.map op.apply

/-- The evaluators of two operands, combined. -/
def combineEvaluators (op : BinaryOp) (a b : Evaluator) : Evaluator :=
  match op with
  | .pointwise op => .pointwise op.apply a b
  | .connective op => .connective op a b

/-- An operator between two functions. -/
def binary (op : BinaryOp) (f g : Func) : Func :=
  ofEvaluator (joinedName f.name op.symbol g.name)
    (combineEvaluators op f.evaluator g.evaluator)

/-- The function `f`, changed in place into `f op g`. -/
def absorb (op : BinaryOp) (f g : Func) : Func :=
  { f with
    name := joinedName f.name op.symbol g.name
    evaluator := combineEvaluators op f.evaluator g.evaluator }

/-- The entry of a vector function at the index a scalar function gives. -/
def index (f i : Func) : Except Error Func := do
  let label := "(" ++ f.name ++ ")[" ++ i.name ++ "]"
  return ofEvaluator label (← Evaluator.index label f.evaluator i.evaluator)

end Func

end Cutflow
