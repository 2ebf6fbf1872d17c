import Cutflow.Proofs.Lowering
import Cutflow.Session

/-!
# Compositions

A finite composition of the operator algebra over leaves of any kind, as a tree. What the operators
do to functions is `Composition.build`; a composition need not build a function, because indexing asks
for operands of the right shapes.

## What is proved

* `build_unary`, `build_binary`, `build_index`: a composition is built if its operands are, and for an
  entry if the index evaluator is.
* `Func.name_combine`: both forms of an operator name their result alike.
-/

namespace Cutflow

open Text

/-- A composition of operators over leaves. -/
inductive Composition (α : Type) where
  /-- A leaf. -/
  | leaf (a : α)
  /-- An operator before its operand. -/
  | unary (op : UnaryOp) (operand : Composition α)
  /-- An operator between its operands, in one of its forms. -/
  | binary (form : Form) (op : BinaryOp) (left right : Composition α)
  /-- Entry `index` of the vector `base`. -/
  | index (base index : Composition α)
  deriving DecidableEq

namespace Func

theorem evaluator_combine (form : Form) (op : BinaryOp) (f g : Func) :
    (combine form op f g).evaluator = combineEvaluators op f.evaluator g.evaluator := by
  cases form <;> rfl

theorem name_combine (form : Form) (op : BinaryOp) {f g : Func} (hf : Blankless f.name)
    (hg : Blankless g.name) : (combine form op f g).name = joinedName f.name op.symbol g.name := by
  cases form with
  | fresh => exact name_binary op hf hg
  | inPlace => rfl

end Func

namespace Composition

variable {α : Type}

/-- The leaves from left to right. -/
def leaves : Composition α → List α
  | leaf a => [a]
  | unary _ t => t.leaves
  | binary _ _ a b => a.leaves ++ b.leaves
  | index base i => base.leaves ++ i.leaves

/-- The function that is composed of the functions of the leaves. -/
def build (leafFunc : α → Func) : Composition α → Except Error Func
  | leaf a => .ok (leafFunc a)
  | unary op t => do
    return .unary op (← t.build leafFunc)
  | binary form op a b => do
    let f ← a.build leafFunc
    let g ← b.build leafFunc
    return f.combine form op g
  | index base i => do
    let f ← base.build leafFunc
    let g ← i.build leafFunc
    f.index g

variable {leafFunc : α → Func} {f g h : Func} {a b t : Composition α}

theorem build_unary {op : UnaryOp} :
    (unary op t).build leafFunc = .ok h ↔ ∃ f, t.build leafFunc = .ok f ∧ .unary op f = h := by
  simp only [build, bind_eq_ok, pure_eq_ok]

theorem build_binary {form : Form} {op : BinaryOp} :
    (binary form op a b).build leafFunc = .ok h ↔ ∃ f, a.build leafFunc = .ok f ∧
      ∃ g, b.build leafFunc = .ok g ∧ f.combine form op g = h := by
  simp only [build, bind_eq_ok, pure_eq_ok]

theorem build_index :
    (index a b).build leafFunc = .ok h ↔ ∃ f, a.build leafFunc = .ok f ∧
      ∃ g, b.build leafFunc = .ok g ∧ f.index g = .ok h := by
  simp only [build, bind_eq_ok]

end Composition

end Cutflow
