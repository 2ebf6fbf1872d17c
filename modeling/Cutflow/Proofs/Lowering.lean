import Cutflow.Compiler
import Cutflow.Proofs.Name

/-!
# Lowering trees to functions

What `Compiler.lower` makes of a tree, said on the tree alone: the shape of the function
(`Compiler.shapeOf`), its name (`Expr.formula`) and, one lemma for each kind of tree, the functions
of the operands it is put together from.

## What is proved

* `Compiler.shape_of_lower`, `name_of_lower`: the function has the inferred shape and is named by
  its formula.
* `Compiler.lower_unary`, `lower_binary`, `lower_index`: a tree is lowered if its operands are,
  and for an entry if the base is a vector and the index a scalar.
-/

namespace Cutflow

open Text

/-- The shape of two operands combined: a vector if either of them is one. -/
def Shape.join : Shape → Shape → Shape
  | .scalar, .scalar => .scalar
  | _, _ => .vector

theorem Shape.join_eq_scalar {s t : Shape} : s.join t = .scalar ↔ s = .scalar ∧ t = .scalar := by
  cases s <;> cases t <;> simp [join]

/-- The text of a tree with every operand in parentheses. -/
def Expr.formula : Expr → String
  | .number x => (Func.constant x).name
  | .bool b => if b then "true" else "false"
  | .ident name => withoutBlanks name
  | .unary op e => Func.unaryName op.symbol e.formula
  | .binary op a b => Func.joinedName a.formula op.symbol b.formula
  | .index base i => Func.entryName base.formula i.formula

/-- The identifiers in a tree, from left to right. -/
def Expr.idents : Expr → List String
  | .number _ | .bool _ => []
  | .ident name => [name]
  | .unary _ e => e.idents
  | .binary _ a b | .index a b => a.idents ++ b.idents

theorem Expr.blankless_formula : ∀ e : Expr, Blankless e.formula
  | .number x => Func.blankless_name_constant x
  | .bool true => by decide
  | .bool false => by decide
  | .ident name => blankless_withoutBlanks name
  | .unary op e => Func.blankless_unaryName op e.blankless_formula
  | .binary op a b => Func.blankless_joinedName op a.blankless_formula b.blankless_formula
  | .index base i => Func.blankless_entryName base.blankless_formula i.blankless_formula

namespace Evaluator

/-- Unary plus is no exception among the operators before an operand: mapping it changes nothing. -/
theorem map_plus (a : Evaluator) : a.map UnaryOp.plus.apply = a := by
  cases a with
  | scalar a => simp [map, UnaryOp.apply]
  | vector a =>
    have hp : UnaryOp.plus.apply = id := funext fun _ => rfl
    simp [map, hp]

theorem shape_map (op : Float → Float) (a : Evaluator) : (a.map op).shape = a.shape := by
  cases a <;> rfl

theorem shape_combine (op : BinaryOp) (a b : Evaluator) :
    (Func.combineEvaluators op a b).shape = a.shape.join b.shape := by
  cases op <;> cases a <;> cases b <;> rfl

theorem index_eq_ok_iff {label : String} {a b : Evaluator} :
    (∃ e, index label a b = .ok e) ↔ a.shape = .vector ∧ b.shape = .scalar := by
  cases a <;> cases b <;> simp [index, shape]

theorem shape_index {label : String} {a b e : Evaluator} (h : index label a b = .ok e) :
    e.shape = .scalar := by
  cases a <;> cases b <;> cases h
  rfl

end Evaluator

theorem Func.evaluator_unary (op : UnaryOp) (f : Func) :
    (unary op f).evaluator = f.evaluator.map op.apply := by
  cases op
  · rfl
  · exact (Evaluator.map_plus f.evaluator).symm
  · rfl

namespace Compiler

/-- The shape of a tree: numbers and truth values are scalars, an identifier has the shape of
what it means, an operator that of its operands joined, and an entry is a scalar. -/
def shapeOf (c : Compiler) : Expr → Shape
  | .number _ | .bool _ | .index _ _ => .scalar
  | .ident name =>
    match c.functions.find? name with
    | some f => f.shape
    | none => (c.schema.shapeOf? name).getD .scalar
  | .unary _ e => c.shapeOf e
  | .binary _ a b => (c.shapeOf a).join (c.shapeOf b)

variable {c : Compiler} {f g h : Func}

/-! ### What a tree is lowered to -/

theorem lower_ident {name : String} :
    c.lower (.ident name) = .ok f ↔
      (∃ g, c.functions.find? name = some g ∧ g.rename name = f) ∨
      (c.functions.find? name = none ∧
        ∃ s, c.schema.shapeOf? name = some s ∧ .ofVariable name s = f) := by
  simp only [lower, resolve]
  cases c.functions.find? name with
  | some g => simp
  | none => cases c.schema.shapeOf? name <;> simp

theorem lower_unary {op : UnaryOp} {e : Expr} :
    c.lower (.unary op e) = .ok h ↔ ∃ f, c.lower e = .ok f ∧ .unary op f = h := by
  simp only [lower, bind_eq_ok, pure_eq_ok]

theorem lower_binary {op : BinaryOp} {a b : Expr} :
    c.lower (.binary op a b) = .ok h ↔
      ∃ f, c.lower a = .ok f ∧ ∃ g, c.lower b = .ok g ∧ .binary op f g = h := by
  simp only [lower, bind_eq_ok, pure_eq_ok]

theorem name_of_lower {e : Expr} (hf : c.lower e = .ok f) : f.name = e.formula := by
  induction e generalizing f with
  | number x => cases hf; rfl
  | bool b => cases hf; cases b <;> rfl
  | ident name =>
    rcases lower_ident.mp hf with ⟨g, -, rfl⟩ | ⟨-, s, -, rfl⟩
    · rfl
    · cases s <;> rfl
  | unary op e ih =>
    obtain ⟨g, hg, rfl⟩ := lower_unary.mp hf
    rw [Func.name_unary op (ih hg ▸ e.blankless_formula), ih hg, Expr.formula]
  | binary op a b iha ihb =>
    obtain ⟨g, hg, h, hh, rfl⟩ := lower_binary.mp hf
    rw [Func.name_binary op (iha hg ▸ a.blankless_formula) (ihb hh ▸ b.blankless_formula),
      iha hg, ihb hh, Expr.formula]
  | index base i ihb ihi =>
    simp only [lower, bind_eq_ok] at hf
    obtain ⟨g, hg, h, hh, hf⟩ := hf
    have hf := (Func.index_eq_ok (ihb hg ▸ base.blankless_formula)
      (ihi hh ▸ i.blankless_formula)).mp hf
    rw [hf.1, ihb hg, ihi hh, Expr.formula]

theorem blankless_name_of_lower {e : Expr} (hf : c.lower e = .ok f) : Blankless f.name :=
  name_of_lower hf ▸ e.blankless_formula

theorem lower_index {base i : Expr} :
    c.lower (.index base i) = .ok h ↔
      ∃ f, c.lower base = .ok f ∧ ∃ g, c.lower i = .ok g ∧ h.name = (Expr.index base i).formula ∧
        Evaluator.index (Expr.index base i).formula f.evaluator g.evaluator = .ok h.evaluator := by
  simp only [lower, bind_eq_ok, Expr.formula]
  refine exists_congr fun f => and_congr_right fun hf => exists_congr fun g =>
    and_congr_right fun hg => ?_
  rw [Func.index_eq_ok (blankless_name_of_lower hf) (blankless_name_of_lower hg),
    name_of_lower hf, name_of_lower hg]

theorem shape_of_lower {e : Expr} (hf : c.lower e = .ok f) : f.shape = c.shapeOf e := by
  induction e generalizing f with
  | number x => cases hf; rfl
  | bool b => cases hf; rfl
  | ident name =>
    rcases lower_ident.mp hf with ⟨g, hg, rfl⟩ | ⟨hn, s, hs, rfl⟩
    · simp only [shapeOf, hg]
      rfl
    · simp only [shapeOf, hn, hs]
      cases s <;> rfl
  | unary op e ih =>
    obtain ⟨g, hg, rfl⟩ := lower_unary.mp hf
    rw [shapeOf, ← ih hg, Func.shape, Func.evaluator_unary, Evaluator.shape_map, Func.shape]
  | binary op a b iha ihb =>
    obtain ⟨g, hg, h, hh, rfl⟩ := lower_binary.mp hf
    rw [shapeOf, ← iha hg, ← ihb hh]
    exact Evaluator.shape_combine op _ _
  | index base i _ _ =>
    obtain ⟨g, -, h, -, -, he⟩ := lower_index.mp hf
    exact Evaluator.shape_index he

/-! ### Texts -/

theorem compile_eq_ok {text : String} :
    c.compile text = .ok f ↔
      ∃ e, Expr.parse text = .ok e ∧ ∃ g, c.lower e = .ok g ∧ g.rename text = f := by
  simp only [compile, bind_eq_ok, pure_eq_ok]

end Compiler

end Cutflow
