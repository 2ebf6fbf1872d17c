import Cutflow.Batch
import Cutflow.Compiler
import Cutflow.Text

/-!
# Sessions

A session is a bench for building functions step by step: it has a compiler, a list of records
and named registers that hold functions, and it counts how often each hand-written leaf has been
called. A step that is refused changes nothing.

## The model

The operators come in two forms that mean the same. `Form.fresh` builds a new function out of its
operands (`Func.binary`); `Form.inPlace` changes the left operand (`Func.absorb`).
-/

namespace Cutflow

/-- How an operator step makes its result. -/
inductive Form where
  /-- As a new function. -/
  | fresh
  /-- By changing the left operand. -/
  | inPlace
  deriving DecidableEq

/-- An operator between two functions, in one of its forms. -/
def Func.combine : Form → BinaryOp → Func → Func → Func
  | .fresh => Func.binary
  | .inPlace => Func.absorb

/-- A function displayed with its name and shape. -/
def Func.description (f : Func) : String :=
  let shape := match f.shape with
    | .scalar => "Scalar"
    | .vector => "Vector"
  "NamedFunc \x7b name: " ++ Text.literal f.name ++ ", shape: " ++ shape ++ " \x7d"

namespace Session

/-- An operand of a step: a register, or a number in place of the function that gives it. -/
inductive Operand where
  /-- The function in a register. -/
  | register (name : String)
  /-- The function that gives this number. -/
  | number (x : Float)
  deriving DecidableEq

/-- What can be done in a session; `target` names the register that receives the result. -/
inductive Step where
  /-- Makes the function that gives a number. -/
  | constant (target : String) (x : Float)
  /-- Makes the function that reads a quantity. -/
  | variable (target name : String) (shape : Shape)
  /-- Copies a function. -/
  | copy (target a : String)
  /-- Makes a hand-written function that always gives `value`, or always fails. -/
  | leaf (target name id : String) (value : Value) (failure : Option Error)
  /-- Compiles a text. -/
  | compile (target text : String)
  /-- Registers a function with the compiler. -/
  | register (name a : String)
  /-- Asks for the number of variables the compiler knows. -/
  | schemaSize
  /-- Saves the compiler on top of the saved ones. -/
  | snapshot
  /-- Takes the last saved compiler back, if there is one. -/
  | restore
  /-- Puts an operator before a function. -/
  | unary (target : String) (op : UnaryOp) (a : String)
  /-- Joins two functions by an operator. -/
  | binary (target : String) (op : BinaryOp) (form : Form) (a b : Operand)
  /-- Indexes a function. -/
  | index (target a : String) (i : Operand)
  /-- Renames a function. -/
  | rename (a name : String)
  /-- Gives a function the evaluator of a hand-written one. -/
  | setLeaf (a id : String) (value : Value)
  /-- Gives a function the evaluator of another one, if one is named. -/
  | setEvaluator (a : String) (source : Option String)
  /-- Looks at a function. -/
  | describe (a : String)
  /-- Evaluates a function on one record, at its own shape unless another one is asked for; a
  record beyond the last one is empty. -/
  | eval (a : String) (record : Nat) (shape : Option Shape)
  /-- Evaluates a function on all records. -/
  | batch (a : String) (shape : Shape) (threading : Threading)
  /-- Counts the records that pass all cuts. -/
  | count (cuts : List String) (threading : Threading)

/-- What an evaluating step computes. -/
inductive Answer where
  /-- The value on one record. -/
  | value (v : Value)
  /-- One number for each record. -/
  | numbers (xs : List Float)
  /-- One list for each record. -/
  | lists (xss : List (List Float))
  /-- The number of records that pass. -/
  | count (n : Nat)

/-- What a step tells. -/
inductive Reply where
  /-- The function made or changed. -/
  | function (f : Func)
  /-- The function looked at. -/
  | description (f : Func)
  /-- How many variables the compiler knows, or how many compilers are saved. -/
  | size (n : Nat)
  /-- Nothing but that the step was run. -/
  | done
  /-- How an evaluation ended. -/
  | evaluated (result : Except Error Answer)

/-- Why a step is refused. -/
inductive Refusal where
  /-- The register holds no function. -/
  | emptyRegister (name : String)
  /-- The function cannot be built. -/
  | error (e : Error)

end Session

/-- The state of a session. -/
structure Session where
  compiler : Compiler
  records : List Record
  registers : NameMap Func := ∅
  snapshots : List Compiler := []
  /-- How often each leaf has been called. -/
  counts : NameMap Nat := ∅

namespace Session

/-- The session at its beginning. -/
def start (schema : Schema) (records : List Record) : Session :=
  { compiler := .ofSchema schema, records }

/-- The function in a register. -/
def fetch (s : Session) (name : String) : Except Refusal Func :=
  match s.registers.find? name with
  | some f => .ok f
  | none => .error (.emptyRegister name)

/-- The function an operand stands for. -/
def operand (s : Session) : Operand → Except Refusal Func
  | .register name => s.fetch name
  | .number x => .ok (.constant x)

/-- Puts a function into a register. -/
def store (s : Session) (target : String) (f : Func) : Session × Reply :=
  ({ s with registers := s.registers.insert target f }, .function f)

/-- Begins to count the calls of a leaf. -/
def beginCount (s : Session) (id : String) : Session :=
  match s.counts.find? id with
  | some _ => s
  | none => { s with counts := s.counts.insert id 0 }

/-- Counts one call of a leaf. -/
def countCall (s : Session) (id : String) : Session :=
  { s with counts := s.counts.insert id ((s.counts.find? id).getD 0 + 1) }

/-- Notes the calls of an evaluation and tells its result. -/
def report {α : Type} (s : Session) (answer : α → Answer) (outcome : Outcome α) :
    Session × Reply :=
  (outcome.calls.foldl countCall s, .evaluated (outcome.result.map answer))

/-- Runs one step. -/
def step (pool : Pool) (s : Session) : Step → Except Refusal (Session × Reply)
  | .constant target x => .ok (s.store target (.constant x))
  | .variable target name shape => .ok (s.store target (.ofVariable name shape))
  | .copy target a => return s.store target (← s.fetch a)
  | .leaf target name id value failure =>
    .ok ((s.beginCount id).store target (.ofEvaluator name (Func.leafEvaluator id value failure)))
  | .compile target text => return s.store target (← (s.compiler.compile text).mapError .error)
  | .register name a => do
    let compiler ← (s.compiler.register name (← s.fetch a)).mapError .error
    return ({ s with compiler }, .done)
  | .schemaSize => .ok (s, .size s.compiler.schema.size)
  | .snapshot =>
    .ok ({ s with snapshots := s.compiler :: s.snapshots }, .size (s.snapshots.length + 1))
  | .restore =>
    match s.snapshots with
    | [] => .ok (s, .size 0)
    | compiler :: snapshots => .ok ({ s with compiler, snapshots }, .size snapshots.length)
  | .unary target op a => return s.store target (.unary op (← s.fetch a))
  | .binary target op form a b => do
    let f ← s.operand a
    let g ← s.operand b
    return s.store target (f.combine form op g)
  | .index target a i => do
    let f ← s.fetch a
    let g ← s.operand i
    return s.store target (← (f.index g).mapError .error)
  | .rename a name => return s.store a ((← s.fetch a).rename name)
  | .setLeaf a id value => do
    let f ← s.fetch a
    return (s.beginCount id).store a (f.withEvaluator (Func.leafEvaluator id value none))
  | .setEvaluator a none => return s.store a (← s.fetch a)
  | .setEvaluator a (some source) => do
    let f ← s.fetch a
    let g ← s.fetch source
    return s.store a (f.withEvaluator g.evaluator)
  | .describe a => return (s, .description (← s.fetch a))
  | .eval a record shape => do
    let f ← s.fetch a
    return s.report .value (f.evalAs (s.records[record]?.getD ∅) (shape.getD f.shape))
  | .batch a .scalar threading => do
    return s.report .numbers (Batch.evalScalar pool threading (← s.fetch a) s.records)
  | .batch a .vector threading => do
    return s.report .lists (Batch.evalVector pool threading (← s.fetch a) s.records)
  | .count cuts threading => do
    return s.report .count (Batch.countPassing pool threading (← cuts.mapM s.fetch) s.records)

end Session

end Cutflow
