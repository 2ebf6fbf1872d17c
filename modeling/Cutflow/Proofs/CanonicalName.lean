import Cutflow.Proofs.Agreement
import Cutflow.Proofs.Composition
import Cutflow.Proofs.Constant
import Cutflow.Proofs.Interpreter

/-!
# Canonical names

The name of a function composed of constants and variables is a text for it: where the variables are
declared, the name compiles to a function that computes the same. Neither side knows of the other, for
the name is put together from the names of the operands, and compiling it goes through lexemes, levels
of operators and a tree. They meet in `Composition.tree`: the name stands for this tree, and the tree is
lowered to operators on the same leaves. Only a label can differ, as an entry names the constants under
it by their numbers on one side and by the formulas of their trees on the other.

## What is proved

* `Composition.stands_name`: the name of a composed function stands for the tree of the composition.
* `Composition.agree_tree`: the tree is lowered to an evaluator that agrees with the composed one.
* `Composition.compile_name_of_build`: the name compiles to a function that computes the same.
-/

namespace Cutflow

open Text

/-- The leaves that have names of their own. -/
inductive Leaf where
  /-- A number. -/
  | constant (x : Float)
  /-- A quantity of the event. -/
  | quantity (name : String) (shape : Shape)
  deriving DecidableEq

namespace Leaf

/-- The function of a leaf. -/
def func : Leaf → Func
  | constant x => .constant x
  | quantity name shape => .ofVariable name shape

/-- The tree that the name of a leaf stands for. -/
def tree : Leaf → Expr
  | constant x => .ofFloat x
  | quantity name _ => .ident name

/-- An expression over the schema can mention the leaf: the name of a variable is an identifier, no
truth value, and declared with the shape of the variable. -/
def Fits (s : Schema) : Leaf → Prop
  | constant _ => True
  | quantity name shape =>
    isIdentifier name = true ∧ name ≠ "true" ∧ name ≠ "false" ∧ s.shapeOf? name = some shape

theorem stands_name {s : Schema} {l : Leaf} (h : l.Fits s) : Expr.Stands l.func.name l.tree := by
  cases l with
  | constant x => exact Expr.stands_constant x
  | quantity name shape =>
    obtain ⟨hi, ht, hf, -⟩ := h
    have hs := Expr.stands_ident hi ht hf
    have hn : (Func.ofVariable name shape).name = name := by
      cases shape <;> exact hs.blankless
    rw [func, hn]
    exact hs

theorem lower_tree {s : Schema} {l : Leaf} (h : l.Fits s) :
    ∃ g, (Compiler.ofSchema s).lower l.tree = .ok g ∧ g.evaluator.Agree l.func.evaluator := by
  cases l with
  | constant x =>
    obtain ⟨g, hg, he⟩ := Compiler.lower_ofFloat (c := .ofSchema s) x
    exact ⟨g, hg, he ▸ .refl _⟩
  | quantity name shape =>
    obtain ⟨-, -, -, hs⟩ := h
    exact ⟨_, Compiler.lower_ident.mpr (.inr ⟨NameMap.find?_empty name, shape, hs, rfl⟩), .refl _⟩

end Leaf

namespace Composition

/-- The tree that the name of a composed function stands for. -/
def tree : Composition Leaf → Expr
  | leaf l => l.tree
  | unary op t => .unary op t.tree
  | binary _ op a b => .binary op a.tree b.tree
  | index base i => .index base.tree i.tree

variable {s : Schema} {t : Composition Leaf} {f : Func}

/-- The name of a composed function stands for the tree of the composition. -/
theorem stands_name (hf : t.build Leaf.func = .ok f) (ht : ∀ l ∈ t.leaves, l.Fits s) :
    Expr.Stands f.name t.tree := by
  induction t generalizing f with
  | leaf l =>
    cases hf
    exact Leaf.stands_name (ht l List.mem_cons_self)
  | unary op t ih =>
    obtain ⟨g, hg, rfl⟩ := build_unary.mp hf
    have hs := ih hg ht
    rw [Func.name_unary op hs.blankless]
    exact hs.unary op
  | binary form op a b iha ihb =>
    obtain ⟨g, hg, h, hh, rfl⟩ := build_binary.mp hf
    have ha := iha hg fun l hl => ht l (List.mem_append_left _ hl)
    have hb := ihb hh fun l hl => ht l (List.mem_append_right _ hl)
    rw [Func.name_combine form op ha.blankless hb.blankless]
    exact ha.binary op hb
  | index base i ihb ihi =>
    obtain ⟨g, hg, h, hh, hi⟩ := build_index.mp hf
    have hb := ihb hg fun l hl => ht l (List.mem_append_left _ hl)
    have hi' := ihi hh fun l hl => ht l (List.mem_append_right _ hl)
    rw [((Func.index_eq_ok hb.blankless hi'.blankless).mp hi).1]
    exact hb.index hi'

/-- The tree is lowered to an evaluator that agrees with the composed one. -/
theorem agree_tree (hf : t.build Leaf.func = .ok f) (ht : ∀ l ∈ t.leaves, l.Fits s) :
    ∃ g, (Compiler.ofSchema s).lower t.tree = .ok g ∧ g.evaluator.Agree f.evaluator := by
  induction t generalizing f with
  | leaf l =>
    cases hf
    exact Leaf.lower_tree (ht l List.mem_cons_self)
  | unary op t ih =>
    obtain ⟨p, hp, rfl⟩ := build_unary.mp hf
    obtain ⟨g, hg, ha⟩ := ih hp ht
    refine ⟨_, Compiler.lower_unary.mpr ⟨g, hg, rfl⟩, ?_⟩
    rw [Func.evaluator_unary, Func.evaluator_unary]
    exact ha.map op.apply
  | binary form op a b iha ihb =>
    obtain ⟨p, hp, q, hq, rfl⟩ := build_binary.mp hf
    obtain ⟨g, hg, ha⟩ := iha hp fun l hl => ht l (List.mem_append_left _ hl)
    obtain ⟨h, hh, hb⟩ := ihb hq fun l hl => ht l (List.mem_append_right _ hl)
    refine ⟨_, Compiler.lower_binary.mpr ⟨g, hg, h, hh, rfl⟩, ?_⟩
    rw [Func.evaluator_combine]
    exact ha.combine op hb
  | index base i ihb ihi =>
    have htb : ∀ l ∈ base.leaves, l.Fits s := fun l hl => ht l (List.mem_append_left _ hl)
    have hti : ∀ l ∈ i.leaves, l.Fits s := fun l hl => ht l (List.mem_append_right _ hl)
    obtain ⟨p, hp, q, hq, hi⟩ := build_index.mp hf
    obtain ⟨g, hg, ha⟩ := ihb hp htb
    obtain ⟨h, hh, hb⟩ := ihi hq hti
    have hi := (Func.index_eq_ok (stands_name hp htb).blankless (stands_name hq hti).blankless).mp hi
    obtain ⟨e, he, hae⟩ := ha.symm.exists_index hb.symm hi.2 (Expr.index base.tree i.tree).formula
    exact ⟨⟨_, e⟩, Compiler.lower_index.mpr ⟨g, hg, h, hh, rfl, he⟩, hae.symm⟩

/-- **Canonical names are faithful**: the name of a function composed of constants and variables is a
text that compiles, over every schema that declares the variables, to a function of the same name and
shape that gives the same value on every record, or fails with the same error up to the label of an
entry. -/
theorem compile_name_of_build (hf : t.build Leaf.func = .ok f) (ht : ∀ l ∈ t.leaves, l.Fits s) :
    ∃ g, (Compiler.ofSchema s).compile f.name = .ok g ∧ g.name = f.name ∧ g.shape = f.shape ∧
      ∀ r, (g.eval r).unlabelled = (f.eval r).unlabelled := by
  have hs := stands_name hf ht
  obtain ⟨g, hg, hag⟩ := agree_tree hf ht
  refine ⟨g.rename f.name, Compiler.compile_eq_ok.mpr ⟨_, hs.parse, g, hg, rfl⟩, hs.blankless,
    hag.shape, ?_⟩
  intro r
  rw [Func.eval_eq, Func.eval_eq]
  exact hag.eval r

/-- An entry out of range, of a vector with a negative number added to it in place. -/
theorem compile_name_of_build_negative :
    let s := (Schema.empty.declare "v" .vector).declare "x" .scalar
    let v : Composition Leaf := .leaf (.quantity "v" .vector)
    let t := index (binary .inPlace (.pointwise .add) v (.leaf (.constant (-1))))
      (.leaf (.quantity "x" .scalar))
    let r := (Record.empty.insert "v" (.vector [0, 2])).insert "x" (.scalar 3)
    ∃ f g, t.build Leaf.func = .ok f ∧ f.name = "((v)+(-1))[x]" ∧
      (Compiler.ofSchema s).compile f.name = .ok g ∧ g.shape = .scalar ∧
      (g.eval r).unlabelled = (f.eval r).unlabelled ∧
      (f.eval r).unlabelled = ⟨[], .error (.indexOutOfRange "" 3 2)⟩ := by
  intro s v t r
  obtain ⟨f, hf, hn, hs, hr⟩ : ∃ f, t.build Leaf.func = .ok f ∧ f.name = "((v)+(-1))[x]" ∧
      f.shape = .scalar ∧ (f.eval r).unlabelled = ⟨[], .error (.indexOutOfRange "" 3 2)⟩ :=
    ⟨_, rfl, by decide +kernel, rfl, rfl⟩
  have ht : ∀ l ∈ t.leaves, l.Fits s := by
    intro l hl
    simp only [t, v, leaves, List.mem_append, List.mem_singleton] at hl
    rcases hl with (rfl | rfl) | rfl
    · exact ⟨by decide, by decide, by decide, rfl⟩
    · trivial
    · exact ⟨by decide, by decide, by decide, rfl⟩
  obtain ⟨g, hg, -, hgs, hgr⟩ := compile_name_of_build hf ht
  exact ⟨f, g, hf, hn, hg, hgs.trans hs, hgr r, hr⟩

end Composition

end Cutflow
