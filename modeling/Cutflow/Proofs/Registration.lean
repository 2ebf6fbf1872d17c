import Cutflow.Proofs.Agreement
import Cutflow.Proofs.Expr.Substitution
import Cutflow.Proofs.Interpreter

/-!
# Registered functions

A function that was compiled from a text is as good as the text. Where a text mentions it by the name it
was registered with, the text it was compiled from could stand in parentheses instead: the other compiler,
which does not know the function, makes the same of that, or refuses it as well. The name may have meant
something else before, in the text of the function too. What was compiled keeps its meaning.

The two functions are made of two trees, of which one has the tree of the registered function in place of
its name. On both sides each operator does the same to operands that do the same, and the labels of entries
alone tell the sides apart, for they are made of names.

## What is proved

* `Compiler.alike_lower_substitute`: the name of a registered function is lowered like the tree of it.
* `Compiler.compile_replaceIdent`: a text that mentions a registered function compiles if the text with
  the text of that function in place of its name does, and both compute the same.
-/

namespace Cutflow

open Text

namespace Func

/-- Two attempts at a function have the same success: both fail, or both give functions that compute the
same. -/
inductive Alike : Except Error Func → Except Error Func → Prop where
  | ok {f g : Func} : f.evaluator.Agree g.evaluator → Alike (.ok f) (.ok g)
  | error {e e' : Error} : Alike (.error e) (.error e')

namespace Alike

variable {a b : Except Error Func}

theorem refl : ∀ a, Alike a a
  | .ok f => .ok (.refl f.evaluator)
  | .error _ => .error

/-- Steps after attempts that are alike may count on functions that compute the same. -/
theorem bind {k k' : Func → Except Error Func} (h : Alike a b)
    (hk : ∀ {f g : Func}, f.evaluator.Agree g.evaluator → Alike (k f) (k' g)) :
    Alike (a >>= k) (b >>= k') := by
  cases h with
  | ok h => exact hk h
  | error => exact .error

theorem exists_ok_iff (h : Alike a b) : (∃ f, a = .ok f) ↔ ∃ g, b = .ok g := by
  cases h with
  | ok h => exact ⟨fun _ => ⟨_, rfl⟩, fun _ => ⟨_, rfl⟩⟩
  | error => simp

/-- Whether there is an entry depends on shapes only. -/
theorem index {f f' i i' : Func} (hf : f.evaluator.Agree f'.evaluator)
    (hi : i.evaluator.Agree i'.evaluator) : Alike (f.index i) (f'.index i') := by
  simp only [Func.index]
  generalize "(" ++ f.name ++ ")[" ++ i.name ++ "]" = label
  generalize "(" ++ f'.name ++ ")[" ++ i'.name ++ "]" = label'
  cases he : Evaluator.index label f.evaluator i.evaluator with
  | ok e =>
    obtain ⟨e', he', ha⟩ := hf.exists_index hi he label'
    rw [he']
    exact .ok ha
  | error _ =>
    cases he' : Evaluator.index label' f'.evaluator i'.evaluator with
    | ok e' =>
      obtain ⟨e, he'', -⟩ := hf.symm.exists_index hi.symm he' label
      cases he.symm.trans he''
    | error _ => exact .error

end Alike

end Func

namespace Compiler

open Func (Alike)

variable {c : Compiler} {f g : Func} {x t u : String} {a : Expr} {ts : List Token}

/-- The name of a registered function is lowered like the tree that the function was lowered from. -/
theorem alike_lower_substitute (ha : c.lower a = .ok g) (hf : f.evaluator = g.evaluator) (e : Expr) :
    Alike ({ c with functions := c.functions.insert x f }.lower e) (c.lower (e.substitute x a)) := by
  induction e with
  | number y => exact .refl _
  | bool b => exact .refl _
  | ident name =>
    rw [Expr.substitute]
    by_cases hn : name = x
    · subst hn
      rw [if_pos rfl, ha]
      simp only [lower, resolve, NameMap.find?_insert_self]
      exact .ok (hf ▸ .refl f.evaluator)
    · rw [if_neg hn]
      simp only [lower, resolve, NameMap.find?_insert_of_ne _ _ hn]
      exact .refl _
  | unary op e ih =>
    refine ih.bind fun {p q} h => .ok ?_
    rw [Func.evaluator_unary, Func.evaluator_unary]
    exact h.map op.apply
  | binary op e₁ e₂ ih₁ ih₂ => exact ih₁.bind fun h₁ => ih₂.bind fun h₂ => .ok (h₁.combine op h₂)
  | index base i ihb ihi => exact ihb.bind fun hb => ihi.bind fun hi => .index hb hi

/-- A text that mentions a registered function compiles like the text with the text of that function in
place of its name. -/
theorem alike_compile_replaceIdent (hf : c.compile t = .ok f) (hu : Token.lex u = .ok ts) :
    Alike ({ c with functions := c.functions.insert x f }.compile u)
      (c.compile (String.ofList (Token.replaceIdent x t.toList 0 u.toList ts))) := by
  obtain ⟨a, ha, g, hg, rfl⟩ := compile_eq_ok.mp hf
  have hp := fun e => Expr.parse_replaceIdent (x := x) (e := e) hu ha
  simp only [compile]
  cases he : Expr.parse u with
  | ok e =>
    rw [(hp _).mpr ⟨e, he, rfl⟩]
    have hl := alike_lower_substitute (x := x) hg (f := g.rename t) rfl e
    exact hl.bind fun h => .ok h
  | error _ =>
    cases he' : Expr.parse (String.ofList (Token.replaceIdent x t.toList 0 u.toList ts)) with
    | ok e =>
      obtain ⟨b, hb, -⟩ := (hp e).mp he'
      cases he.symm.trans hb
    | error _ => exact .error

/-- **Registering a function is substituting its text**: when a function compiled from a text is
registered, a text that is cut into tokens compiles if it compiles without the function once its name is
replaced by its text in parentheses. The functions have the same shape and give the same value on every
record, or fail with the same error up to the label of an entry, and call the same leaves. -/
theorem compile_replaceIdent (hx : isIdentifier x = true) (hf : c.compile t = .ok f)
    (hu : Token.lex u = .ok ts) :
    let u' := String.ofList (Token.replaceIdent x t.toList 0 u.toList ts)
    ∃ c', c.register x f = .ok c' ∧
      ((∃ g, c'.compile u = .ok g) ↔ ∃ h, c.compile u' = .ok h) ∧
      ∀ {g h}, c'.compile u = .ok g → c.compile u' = .ok h →
        g.shape = h.shape ∧ ∀ r, (g.eval r).unlabelled = (h.eval r).unlabelled := by
  intro u'
  have ha := alike_compile_replaceIdent (x := x) hf hu
  refine ⟨_, if_pos hx, ha.exists_ok_iff, ?_⟩
  intro g h hg hh
  rw [hg, hh] at ha
  obtain ⟨ha⟩ := ha
  refine ⟨ha.shape, fun r => ?_⟩
  rw [Func.eval_eq, Func.eval_eq]
  exact ha.eval r

/-- A function takes the name of a quantity it mentions itself, and goes on meaning the quantity. -/
theorem compile_replaceIdent_shadowing :
    let c := ofSchema ((Schema.empty.declare "v" .vector).declare "x" .scalar)
    let r := (Record.empty.insert "v" (.vector [0, 2])).insert "x" (.scalar 1)
    ∃ f c' g h, c.compile "v[x]" = .ok f ∧ c.register "x" f = .ok c' ∧
      c'.compile "v[x]" = .ok g ∧ c.compile "v[(v[x])]" = .ok h ∧ g.shape = h.shape ∧
      (g.eval r).unlabelled = (h.eval r).unlabelled ∧
      g.eval r = ⟨[], .error (.indexOutOfRange "(v)[x]" 2 2)⟩ := by
  intro c r
  have hp : Expr.parse "v[x]" = .ok (.index (.ident "v") (.ident "x")) := by cbv
  have hu : Token.lex "v[x]" = .ok [⟨.ident "v", 0, 1⟩, ⟨.lbracket, 1, 2⟩, ⟨.ident "x", 2, 3⟩,
      ⟨.rbracket, 3, 4⟩, ⟨.eof, 4, 4⟩] := by cbv
  obtain ⟨f, hf, g, hg, hge⟩ : ∃ f, c.compile "v[x]" = .ok f ∧
      ∃ g, { c with functions := c.functions.insert "x" f }.compile "v[x]" = .ok g ∧
        g.eval r = ⟨[], .error (.indexOutOfRange "(v)[x]" 2 2)⟩ :=
    ⟨_, compile_eq_ok.mpr ⟨_, hp, _, rfl, rfl⟩, _, compile_eq_ok.mpr ⟨_, hp, _, rfl, rfl⟩, rfl⟩
  obtain ⟨c', hc, hiff, heval⟩ := compile_replaceIdent (x := "x") (by decide) hf hu
  have hc' : c' = { c with functions := c.functions.insert "x" f } :=
    Except.ok.inj (hc.symm.trans (if_pos (by decide)))
  subst hc'
  obtain ⟨h, hh⟩ := hiff.mp ⟨g, hg⟩
  obtain ⟨hs, he⟩ := heval hg hh
  exact ⟨f, _, g, h, hf, hc, hg, hh, hs, he r, hge⟩

end Compiler

end Cutflow
