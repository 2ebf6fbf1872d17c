import Cutflow.Expr
import Cutflow.Func
import Cutflow.Schema

/-!
# Compiling expressions

A compiler knows the variables of a schema and the functions registered with it, and turns an
expression text into a function. An identifier means the registered function of that name, else
the schema's variable.
-/

namespace Cutflow

/-- What identifiers mean. -/
structure Compiler where
  schema : Schema
  functions : NameMap Func

namespace Compiler

/-- The compiler that knows the variables of a schema only. -/
def ofSchema (schema : Schema) : Compiler := ⟨schema, ∅⟩

/-- The compiler with a function registered, in place of an earlier one of that name. -/
def register (c : Compiler) (name : String) (f : Func) : Except Error Compiler :=
  if Text.isIdentifier name then .ok { c with functions := c.functions.insert name f }
  else .error (.functionName name)

/-- The meaning of an identifier; a registered function goes by the name it is called by. -/
def resolve (c : Compiler) (name : String) : Except Error Func :=
  match c.functions.find? name with
  | some f => .ok (f.rename name)
  | none =>
    match c.schema.shapeOf? name with
    | some shape => .ok (.ofVariable name shape)
    | none => .error (.missingVariable name)

/-- The function an expression stands for. -/
def lower (c : Compiler) : Expr → Except Error Func
  | .number x => .ok (.constant x)
  | .bool b => .ok ((Func.constant (Number.ofTruth b)).rename (if b then "true" else "false"))
  | .ident name => c.resolve name
  | .unary op e => do
    return .unary op (← c.lower e)
  | .binary op e₁ e₂ => do
    let f ← c.lower e₁
    let g ← c.lower e₂
    return .binary op f g
  | .index base i => do
    let f ← c.lower base
    let g ← c.lower i
    f.index g

/-- The function a text stands for, named by the text without its blanks. -/
def compile (c : Compiler) (text : String) : Except Error Func := do
  return (← c.lower (← Expr.parse text)).rename text

end Compiler

end Cutflow
