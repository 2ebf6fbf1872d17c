import Cutflow.Proofs.Lowering
import Cutflow.Proofs.TaggedValue

/-!
# Interpreting trees

The functions that trees are lowered to fix all shapes before the first record is seen. An
interpreter needs none of that: it walks the tree on the record at hand and looks at the values
it meets, whether they are numbers or lists (`Value.combine`, `Value.entry`). There is one thing
the values do not tell, the shape of an operand that is not evaluated, so `&&` and `||` ask for the
inferred shape of their right operand (`Connective.connect`).

## What is proved

* `interpret_of_lower`: lowering refines the interpreter: same values, same errors with the same
  labels, same calls of leaf functions in the same order.
* `eval_of_compile`: the same of a compiled text.
-/

namespace Cutflow

open Number

namespace Func

theorem eval_eq (f : Func) (r : Record) : f.eval r = f.evaluator.eval r := by
  obtain ⟨name, a | a⟩ := f <;> rfl

theorem shape_eq_of_eval {f : Func} {r : Record} {x : Value} (h : (f.eval r).result = .ok x) :
    x.shape = f.shape := by
  rw [eval_eq] at h
  exact Evaluator.shape_eq_of_eval r h

theorem eval_unary (op : UnaryOp) (f : Func) (r : Record) :
    (unary op f).eval r = f.eval r >>= fun x => pure (x.map op.apply) := by
  rw [eval_eq, eval_eq, evaluator_unary, Evaluator.eval_map]

theorem eval_pointwise (op : Pointwise) (f g : Func) (r : Record) :
    (binary (.pointwise op) f g).eval r = do
      let x ← f.eval r
      let y ← g.eval r
      return .combine op.apply x y := by
  rw [eval_eq, eval_eq, eval_eq]
  exact Evaluator.eval_pointwise r op.apply f.evaluator g.evaluator

theorem eval_connective (op : Connective) (f g : Func) (r : Record) :
    (binary (.connective op) f g).eval r = f.eval r >>= op.connect g.shape (g.eval r) := by
  rw [eval_eq, eval_eq, eval_eq]
  exact Evaluator.eval_connective r op f.evaluator g.evaluator

end Func

namespace Compiler

/-- What an identifier gives on a record: a registered function is evaluated, a variable of the
schema is read off the record, which has to hold it with its shape. -/
def read (c : Compiler) (r : Record) (name : String) : Outcome Value :=
  match c.functions.find? name with
  | some f => f.evaluator.eval r
  | none =>
    match r.values.find? name with
    | some v =>
      if c.schema.shapeOf? name = some v.shape then return v else .fail (.missingVariable name)
    | none => .fail (.missingVariable name)

/-- The value of a tree on a record. -/
def interpret (c : Compiler) (r : Record) : Expr → Outcome Value
  | .number x => return .scalar x
  | .bool b => return .scalar (ofTruth b)
  | .ident name => c.read r name
  | .unary op e => return (← c.interpret r e).map op.apply
  | .binary (.pointwise op) a b => do
    let x ← c.interpret r a
    let y ← c.interpret r b
    return .combine op.apply x y
  | .binary (.connective op) a b => do
    op.connect (c.shapeOf b) (c.interpret r b) (← c.interpret r a)
  | .index base i => do
    let x ← c.interpret r base
    let y ← c.interpret r i
    .ofExcept (Value.entry (Expr.index base i).formula x y)

variable {c : Compiler} {f : Func} (r : Record)

theorem eval_ofVariable {name : String} {s : Shape} (hn : c.functions.find? name = none)
    (hs : c.schema.shapeOf? name = some s) :
    (Func.ofVariable name s).evaluator.eval r = c.read r name := by
  rw [read, hn, hs]
  cases s with
  | scalar =>
    simp only [Func.ofVariable, Func.ofEvaluator, Evaluator.eval, Record.scalar?]
    rcases r.values.find? name with _ | _ | _ <;> rfl
  | vector =>
    simp only [Func.ofVariable, Func.ofEvaluator, Evaluator.eval, Record.vector?]
    rcases r.values.find? name with _ | _ | _ <;> rfl

theorem interpret_of_lower {e : Expr} (hf : c.lower e = .ok f) :
    f.evaluator.eval r = c.interpret r e := by
  induction e generalizing f with
  | number x => cases hf; rfl
  | bool b => cases hf; rfl
  | ident name =>
    rcases lower_ident.mp hf with ⟨g, hg, rfl⟩ | ⟨hn, s, hs, rfl⟩
    · rw [interpret, read, hg]
      rfl
    · exact eval_ofVariable r hn hs
  | unary op e ih =>
    obtain ⟨g, hg, rfl⟩ := lower_unary.mp hf
    rw [interpret, ← ih hg, ← Evaluator.eval_map, Func.evaluator_unary]
  | binary op a b iha ihb =>
    obtain ⟨g, hg, h, hh, rfl⟩ := lower_binary.mp hf
    cases op with
    | pointwise op =>
      rw [interpret, ← iha hg, ← ihb hh, ← Evaluator.eval_pointwise]
      rfl
    | connective op =>
      rw [interpret, ← iha hg, ← ihb hh, ← shape_of_lower hh]
      exact Evaluator.eval_connective r op g.evaluator h.evaluator
  | index base i ihb ihi =>
    obtain ⟨g, hg, h, hh, -, he⟩ := lower_index.mp hf
    rw [interpret, ← ihb hg, ← ihi hh]
    exact Evaluator.eval_index r he

/-- **Compiled functions refine the interpreter**: a text that compiles stands for a tree, and on
every record the function gives what the interpreter gives on that tree. -/
theorem eval_of_compile {text : String} (h : c.compile text = .ok f) :
    ∃ e, Expr.parse text = .ok e ∧ f.shape = c.shapeOf e ∧ f.eval r = c.interpret r e := by
  obtain ⟨e, he, g, hg, rfl⟩ := compile_eq_ok.mp h
  have hs : (g.rename text).shape = c.shapeOf e := shape_of_lower (f := g) hg
  have hr : (g.rename text).evaluator.eval r = c.interpret r e := interpret_of_lower (f := g) r hg
  exact ⟨e, he, hs, (Func.eval_eq _ r).trans hr⟩

/-- Indices are cut off, not rounded: a number between two places reads the entry at the first of them. A
negative number reads none, though its whole part may be zero, and an entry that is not asked for is not
missed. -/
theorem eval_of_compile_entries :
    let c := ofSchema ((Schema.empty.declare "v" .vector).declare "x" .scalar)
    let event (x : Float) : Record := (Record.empty.insert "v" (.vector [3, 4])).insert "x" (.scalar x)
    ∃ f e, c.compile "x && v * v[x]" = .ok f ∧ Expr.parse "x && v * v[x]" = .ok e ∧
      (∀ x, f.eval (event x) = c.interpret (event x) e) ∧
      f.eval (event 1.75) = ⟨[], .ok (.vector [3 * 4, 4 * 4])⟩ ∧
      f.eval (event (-0.5)) = ⟨[], .error (.indexOutOfRange "(v)[x]" (-0.5) 2)⟩ ∧
      f.eval (event 2) = ⟨[], .error (.indexOutOfRange "(v)[x]" 2 2)⟩ ∧
      f.eval (event 0) = ⟨[], .ok (.vector [])⟩ := by
  intro c event
  have hp : Expr.parse "x && v * v[x]" = .ok (.binary (.connective .and) (.ident "x")
      (.binary (.pointwise .mul) (.ident "v") (.index (.ident "v") (.ident "x")))) := by cbv
  have hf : c.compile "x && v * v[x]" = .ok _ := compile_eq_ok.mpr ⟨_, hp, _, rfl, rfl⟩
  refine ⟨_, _, hf, hp, fun x => ?_, rfl, rfl, rfl, rfl⟩
  obtain ⟨e, he, -, hr⟩ := eval_of_compile (event x) hf
  cases hp.symm.trans he
  exact hr

end Compiler

end Cutflow
