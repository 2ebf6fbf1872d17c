import Cutflow.Proofs.Expr.Reading
import Cutflow.Proofs.Lowering

/-!
# Compiling names

A compiled function goes by its text without blanks. As blanks do not matter to the tree a text
stands for, this name is a text of its own that compiles to the same function: an expression can
be kept as the name of its function.

## What is proved

* `Compiler.compile_name`: the text of a tree can do without its blanks, and the name of a compiled
  function compiles to this very function.
-/

namespace Cutflow.Compiler

open Text

variable {c : Compiler} {f : Func} {text : String}

theorem name_of_compile (h : c.compile text = .ok f) : f.name = withoutBlanks text := by
  obtain ⟨e, -, g, -, rfl⟩ := compile_eq_ok.mp h
  rfl

theorem compile_withoutBlanks (h : c.compile text = .ok f) :
    c.compile (withoutBlanks text) = .ok f := by
  obtain ⟨e, he, g, hg, rfl⟩ := compile_eq_ok.mp h
  refine compile_eq_ok.mpr ⟨e, Expr.parse_withoutBlanks_of_eq_ok he, g, hg, ?_⟩
  rw [Func.rename, Func.rename, blankless_withoutBlanks]

/-- **Blanks never change what an expression means**: a text that stands for a tree stands for it
without its blanks as well, and when a compiler makes a function of the text, it makes the same
function, with its name, shape and evaluator, of the name of that function. -/
theorem compile_name {e : Expr} (he : Expr.parse text = .ok e) :
    Expr.parse (withoutBlanks text) = .ok e ∧
      ∀ (c : Compiler) (f : Func), c.compile text = .ok f → c.compile f.name = .ok f := by
  refine ⟨Expr.parse_withoutBlanks_of_eq_ok he, ?_⟩
  intro c f hf
  rw [name_of_compile hf]
  exact compile_withoutBlanks hf

/-- Gaps between all tokens, next to operators that could run into each other. -/
theorem compile_name_spaced :
    let c := ofSchema ((Schema.empty.declare "v" .vector).declare "x" .scalar)
    ∃ f, Expr.parse "v <\t- x != ! x" = .ok (.binary (.pointwise .ne)
        (.binary (.pointwise .lt) (.ident "v") (.unary .neg (.ident "x")))
        (.unary .not (.ident "x"))) ∧
      c.compile "v <\t- x != ! x" = .ok f ∧ f.name = "v<-x!=!x" ∧ c.compile f.name = .ok f := by
  intro c
  have hp : Expr.parse "v <\t- x != ! x" = .ok (.binary (.pointwise .ne)
      (.binary (.pointwise .lt) (.ident "v") (.unary .neg (.ident "x")))
      (.unary .not (.ident "x"))) := by cbv
  obtain ⟨f, hf⟩ : ∃ f, c.compile "v <\t- x != ! x" = .ok f :=
    ⟨_, compile_eq_ok.mpr ⟨_, hp, _, rfl, rfl⟩⟩
  refine ⟨f, hp, hf, ?_, (compile_name hp).2 c f hf⟩
  rw [name_of_compile hf]
  decide

end Cutflow.Compiler
