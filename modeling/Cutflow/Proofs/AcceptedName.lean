import Cutflow.Proofs.Expr.Formula
import Cutflow.Proofs.Interpreter

/-!
# Accepted names

Names are accepted in two places: a schema that declares variables is valid, and a function is registered,
if the names are identifiers. This is asked for so that expressions can mention what goes by the names.
They can, with two exceptions. The words for the truth values are identifiers by this rule, but in an
expression they are truth values, so a variable or a function of such a name is out of reach.

## What is proved

* `Compiler.compile_ident`: an identifier that is no truth value compiles to what it resolves to.
* `Compiler.compile_accepted`: accepted names compile to what they were accepted for, but for the two words.
* `Compiler.truth_words_accepted`: the two words are accepted.
-/

namespace Cutflow

open Text Number

/-- A schema is valid if every name it declares is an identifier. -/
theorem Schema.isIdentifier_of_validate {s : Schema} {name : String} {shape : Shape}
    (h : s.validate = .ok ()) (hn : s.shapeOf? name = some shape) : isIdentifier name = true := by
  rw [validate] at h
  split at h
  next => cases h
  next hnone =>
    obtain ⟨first, rest, hs, -⟩ := List.lookup_eq_some_iff.mp hn
    have hmem : name ∈ s.shapes.toList.map (·.1) :=
      List.mem_map.mpr ⟨(name, shape), hs ▸ List.mem_append_right _ List.mem_cons_self, rfl⟩
    simpa using List.find?_eq_none.mp hnone name hmem

namespace Compiler

variable {c c' : Compiler} {f g : Func} {name : String}

theorem register_eq_ok :
    c.register name f = .ok c' ↔
      isIdentifier name = true ∧ { c with functions := c.functions.insert name f } = c' := by
  rw [register]
  split
  next hi => simp [hi]
  next hi => simp [hi]

/-- An identifier that is no truth value means what it resolves to. -/
theorem compile_ident (hi : isIdentifier name = true) (ht : name ≠ "true") (hf : name ≠ "false")
    (hg : c.resolve name = .ok g) : c.compile name = .ok ⟨name, g.evaluator⟩ := by
  have hs := Expr.stands_ident hi ht hf
  refine compile_eq_ok.mpr ⟨_, hs.parse, g, hg, ?_⟩
  rw [Func.rename, hs.blankless]

/-- The words for the truth values mean these with every compiler. -/
theorem compile_truth_word (c : Compiler) (b : Bool) :
    c.compile (if b then "true" else "false") =
      .ok ⟨if b then "true" else "false", .scalar fun _ => return ofTruth b⟩ := by
  have hp : Expr.parse (if b then "true" else "false") = .ok (.bool b) := by
    cases b <;> cbv
  refine compile_eq_ok.mpr ⟨_, hp, _, rfl, ?_⟩
  cases b <;> rfl

theorem compile_declared {s : Schema} {shape : Shape} (h : s.validate = .ok ())
    (hs : s.shapeOf? name = some shape) (ht : name ≠ "true") (hf : name ≠ "false") :
    (ofSchema s).compile name = .ok ⟨name, (Func.ofVariable name shape).evaluator⟩ := by
  refine compile_ident (s.isIdentifier_of_validate h hs) ht hf ?_
  simp [resolve, ofSchema, hs]

theorem compile_registered (h : c.register name f = .ok c') (ht : name ≠ "true") (hf : name ≠ "false") :
    c'.compile name = .ok ⟨name, f.evaluator⟩ := by
  obtain ⟨hi, rfl⟩ := register_eq_ok.mp h
  refine compile_ident hi ht hf (g := f.rename name) ?_
  rw [resolve, NameMap.find?_insert_self]

theorem read_ofSchema (s : Schema) (r : Record) (name : String) :
    (ofSchema s).read r name =
      match r.values.find? name with
      | some v => if s.shapeOf? name = some v.shape then return v else .fail (.missingVariable name)
      | none => .fail (.missingVariable name) := rfl

/-- **Accepted names can be mentioned**, but for the words for the truth values: a variable that a valid
schema declares compiles by its name to a function of its shape that reads it off the record, and a
registered function to a function that computes the same. The two words mean truth values whatever was
accepted under them. -/
theorem compile_accepted (name : String) :
    (name ≠ "true" → name ≠ "false" →
      (∀ {s : Schema} {shape : Shape}, s.validate = .ok () → s.shapeOf? name = some shape →
        ∃ f, (ofSchema s).compile name = .ok f ∧ f.name = name ∧ f.shape = shape ∧ ∀ r : Record,
          (∀ {v}, r.values.find? name = some v → v.shape = shape → f.eval r = return v) ∧
          ((∀ v, r.values.find? name = some v → v.shape ≠ shape) →
            f.eval r = .fail (.missingVariable name))) ∧
      ∀ {c c' : Compiler} {f : Func}, c.register name f = .ok c' →
        ∃ g, c'.compile name = .ok g ∧ g.name = name ∧ g.shape = f.shape ∧
          ∀ r, g.eval r = f.eval r) ∧
    ∀ (c : Compiler) (b : Bool), name = (if b then "true" else "false") →
      c.compile name = .ok ⟨name, .scalar fun _ => return ofTruth b⟩ := by
  refine ⟨fun ht hf => ⟨?_, ?_⟩, fun c b hname => hname ▸ compile_truth_word c b⟩
  · intro s shape h hs
    refine ⟨_, compile_declared h hs ht hf, rfl, by cases shape <;> rfl, fun r => ?_⟩
    have hread := eval_ofVariable (c := ofSchema s) r (NameMap.find?_empty name) hs
    rw [Func.eval_eq, hread, read_ofSchema]
    constructor
    · intro v hv hshape
      rw [hv, hs]
      exact if_pos (congrArg some hshape.symm)
    · intro hother
      cases hv : r.values.find? name with
      | none => rfl
      | some v =>
        rw [hs]
        exact if_neg fun hshape => hother v hv (Option.some.inj hshape).symm
  · intro c c' f h
    refine ⟨_, compile_registered h ht hf, rfl, rfl, fun r => ?_⟩
    rw [Func.eval_eq, Func.eval_eq]

/-- A vector is declared, and a number is registered in its place afterwards. -/
theorem compile_accepted_vector :
    let s := Schema.empty.declare "true_" .vector
    let r := Record.empty.insert "true_" (.vector [1, 2])
    s.validate = .ok () ∧ s.shapeOf? "true_" = some .vector ∧
      (∃ f, (ofSchema s).compile "true_" = .ok f ∧ f.shape = .vector ∧
        f.eval r = return .vector [1, 2]) ∧
      ∃ c', (ofSchema s).register "true_" (.constant 5) = .ok c' ∧
        ∃ g, c'.compile "true_" = .ok g ∧ g.shape = .scalar ∧ g.eval r = return .scalar 5 := by
  intro s r
  have hv : s.validate = .ok () := by decide
  have hs : s.shapeOf? "true_" = some .vector := rfl
  obtain ⟨hdeclared, hregistered⟩ := (compile_accepted "true_").1 (by decide) (by decide)
  obtain ⟨f, hf, -, hshape, heval⟩ := hdeclared hv hs
  refine ⟨hv, hs, ⟨f, hf, hshape, (heval r).1 rfl rfl⟩, ?_⟩
  have hc : (ofSchema s).register "true_" (.constant 5) = .ok _ := register_eq_ok.mpr ⟨by decide, rfl⟩
  obtain ⟨g, hg, -, hgs, hge⟩ := hregistered hc
  exact ⟨_, hc, g, hg, hgs, hge r⟩

/-- Under the words for the truth values a variable and a function are accepted that no expression can
mention. -/
theorem truth_words_accepted :
    let s := Schema.empty.declare "true" .vector
    let r := Record.empty.insert "true" (.vector [1, 2])
    (s.validate = .ok () ∧ s.shapeOf? "true" = some .vector ∧
      ∃ f, (ofSchema s).compile "true" = .ok f ∧ f.shape = .scalar ∧ f.eval r = return .scalar 1) ∧
    ∃ c', (ofSchema s).register "false" (.constant 5) = .ok c' ∧
      ∃ g, c'.compile "false" = .ok g ∧ g.eval r = return .scalar 0 := by
  intro s r
  refine ⟨⟨by decide, rfl, _, compile_truth_word _ true, rfl, rfl⟩, ?_⟩
  exact ⟨_, register_eq_ok.mpr ⟨by decide, rfl⟩, _, compile_truth_word _ false, rfl⟩

end Compiler

end Cutflow
