import Cutflow.Proofs.Connective

/-!
# Agreement up to labels

An index out of range names the entry it was meant for, by a label that is fixed when the evaluator is
built. Two ways of building the same computation may label an entry differently, and in nothing else
can they be told apart: `Evaluator.Agree` says that two evaluators have the same shape and the same
outcomes on every record, but for these labels.

## What is proved

* `Outcome.unlabelled_bind`: leaving the labels out commutes with putting steps in sequence.
* `Evaluator.Agree.map`, `combine`, `index`: what is built of operands that agree agrees.
-/

namespace Cutflow

/-- The error without the label of an entry. -/
def Error.unlabelled : Error → Error
  | .indexOutOfRange _ i n => .indexOutOfRange "" i n
  | e => e

namespace Outcome

variable {α β : Type}

/-- The outcome with the label of an entry left out of its error. -/
def unlabelled (a : Outcome α) : Outcome α := ⟨a.calls, a.result.mapError Error.unlabelled⟩

@[simp] theorem unlabelled_pure (a : α) : (pure a : Outcome α).unlabelled = pure a := rfl

@[simp]
theorem unlabelled_bind (a : Outcome α) (f : α → Outcome β) :
    (a >>= f).unlabelled = a.unlabelled >>= fun x => (f x).unlabelled := by
  obtain ⟨calls, e | x⟩ := a <;> rfl

@[simp]
theorem unlabelled_map (f : α → β) (a : Outcome α) : (f <$> a).unlabelled = f <$> a.unlabelled := by
  rw [map_eq_pure_bind, map_eq_pure_bind, unlabelled_bind]
  rfl

theorem map_inj {f : α → β} (hf : ∀ x y, f x = f y → x = y) {a b : Outcome α}
    (h : f <$> a = f <$> b) : a = b := by
  obtain ⟨calls, e | x⟩ := a <;> obtain ⟨calls', e' | y⟩ := b <;>
    simp only [map_eq_pure_bind, error_bind, ok_bind, pure_def, List.append_nil, Outcome.mk.injEq,
      Except.error.injEq, Except.ok.injEq, reduceCtorEq, and_false] at h
  · rw [h.1, h.2]
  · rw [h.1, hf x y h.2]

end Outcome

namespace Connective

/-- A connective hands on the errors of its right operand and has none of its own. -/
theorem unlabelled_connect (op : Connective) (s : Shape) (right : Outcome Value) (v : Value) :
    (op.connect s right v).unlabelled = op.connect s right.unlabelled v := by
  rcases op.connect_cases s v with ⟨z, -, hc⟩ | ⟨f, -, hc⟩
  · rw [hc, hc, Outcome.unlabelled_pure]
  · rw [hc, hc, Outcome.unlabelled_bind]
    rfl

end Connective

namespace Evaluator

/-- Two evaluators compute the same: they have one shape, and their outcomes on a record differ in the
labels of entries at most. -/
structure Agree (a b : Evaluator) : Prop where
  shape : a.shape = b.shape
  eval : ∀ r, (a.eval r).unlabelled = (b.eval r).unlabelled

namespace Agree

variable {a a' b b' : Evaluator}

theorem refl (a : Evaluator) : Agree a a := ⟨rfl, fun _ => rfl⟩

theorem symm (h : Agree a b) : Agree b a := ⟨h.shape.symm, fun r => (h.eval r).symm⟩

theorem map (op : Float → Float) (h : Agree a b) : Agree (a.map op) (b.map op) := by
  refine ⟨by rw [shape_map, shape_map, h.shape], ?_⟩
  intro r
  simp only [eval_map, Outcome.unlabelled_bind, h.eval, Outcome.unlabelled_pure]

theorem combine (op : BinaryOp) (ha : Agree a a') (hb : Agree b b') :
    Agree (Func.combineEvaluators op a b) (Func.combineEvaluators op a' b') := by
  refine ⟨by rw [shape_combine, shape_combine, ha.shape, hb.shape], ?_⟩
  intro r
  cases op with
  | pointwise op =>
    simp only [Func.combineEvaluators, eval_pointwise, Outcome.unlabelled_bind, ha.eval, hb.eval,
      Outcome.unlabelled_pure]
  | connective op =>
    simp only [Func.combineEvaluators, eval_connective, Outcome.unlabelled_bind, ha.eval, hb.shape,
      Connective.unlabelled_connect, hb.eval]

theorem scalar_iff {f g : Record → Outcome Float} :
    Agree (scalar f) (scalar g) ↔ ∀ r, (f r).unlabelled = (g r).unlabelled := by
  constructor
  · intro h r
    have he := h.eval r
    simp only [Evaluator.eval, bind_pure_comp, Outcome.unlabelled_map] at he
    exact Outcome.map_inj (fun x y hxy => Value.scalar.inj hxy) he
  · intro h
    refine ⟨rfl, fun r => ?_⟩
    simp only [Evaluator.eval, Outcome.unlabelled_bind, h r]

theorem vector_iff {f g : Record → Outcome (List Float)} :
    Agree (vector f) (vector g) ↔ ∀ r, (f r).unlabelled = (g r).unlabelled := by
  constructor
  · intro h r
    have he := h.eval r
    simp only [Evaluator.eval, bind_pure_comp, Outcome.unlabelled_map] at he
    exact Outcome.map_inj (fun x y hxy => Value.vector.inj hxy) he
  · intro h
    refine ⟨rfl, fun r => ?_⟩
    simp only [Evaluator.eval, Outcome.unlabelled_bind, h r]

theorem unlabelled_entryAt (label label' : String) (xs : List Float) (i : Float) :
    (Outcome.ofExcept (entryAt label xs i)).unlabelled =
      (Outcome.ofExcept (entryAt label' xs i)).unlabelled := by
  simp only [entryAt]
  split
  · split <;> rfl
  · rfl

/-- Entries agree whatever they are called. -/
theorem index {label label' : String} {e e' : Evaluator} (ha : Agree a a') (hb : Agree b b')
    (h : Evaluator.index label a b = .ok e) (h' : Evaluator.index label' a' b' = .ok e') :
    Agree e e' := by
  obtain ⟨hs, hi⟩ := index_eq_ok_iff.mp ⟨e, h⟩
  obtain ⟨hs', hi'⟩ := index_eq_ok_iff.mp ⟨e', h'⟩
  cases a <;> cases hs
  cases a' <;> cases hs'
  cases b <;> cases hi
  cases b' <;> cases hi'
  cases h
  cases h'
  rw [vector_iff] at ha
  rw [scalar_iff] at hb ⊢
  intro r
  simp only [Outcome.unlabelled_bind, ha r, hb r, unlabelled_entryAt label label']

/-- Where there is an entry of operands, there is one of operands that agree with them. -/
theorem exists_index {label : String} {e : Evaluator} (ha : Agree a a') (hb : Agree b b')
    (h : Evaluator.index label a b = .ok e) (label' : String) :
    ∃ e', Evaluator.index label' a' b' = .ok e' ∧ Agree e e' := by
  have hs := index_eq_ok_iff.mp ⟨e, h⟩
  rw [ha.shape, hb.shape] at hs
  obtain ⟨e', h'⟩ := index_eq_ok_iff.mpr hs
  exact ⟨e', h', ha.index hb h h'⟩

end Agree

end Evaluator

end Cutflow
