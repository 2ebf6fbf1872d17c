import Cutflow.Proofs.Connective
import Cutflow.Proofs.Interpreter

/-!
# Duality

By De Morgan's law a negated conjunction is the disjunction of the negations, and the other way round.
Of functions this says more than of truth values: the two sides also have to call the same leaves in the
same order and to fail alike. A negated left operand decides a connective exactly if the operand decides
the dual one, so both sides ask for their right operand on the same records.

The law ends where a number that decides the answer stands left of a vector. Then `&&` gives the empty
vector without its right operand, whereas `||` evaluates it to give a one for each of its entries.

## What is proved

* `Connective.asks_dual`, `answer_dual`: negated operands are asked for, and answered with, alike, up to
  this one case.
* `Func.eval_negation_connective`: the law, for both connectives.
* `Func.deMorgan`: the law and what the two sides are beyond its end.
-/

namespace Cutflow

open Number

namespace Connective

/-- The connective of the negated operands. -/
def dual : Connective → Connective
  | .and => .or
  | .or => .and

variable {op : Connective} {s : Shape} {x y : Value}

theorem apply_dual (op : Connective) (a b : Bool) : op.dual.apply (!a) (!b) = !op.apply a b := by
  cases op
  · exact (Bool.not_and a b).symm
  · exact (Bool.not_or a b).symm

theorem isTrue_not (x : Float) : isTrue (UnaryOp.not.apply x) = !isTrue x := isTrue_ofTruth _

theorem onNumbers_dual (op : Connective) (x y : Float) :
    op.dual.onNumbers (UnaryOp.not.apply x) (UnaryOp.not.apply y) =
      UnaryOp.not.apply (op.onNumbers x y) := by
  rw [onNumbers, isTrue_not, isTrue_not, apply_dual, UnaryOp.apply, onNumbers, isTrue_ofTruth]

theorem decides_dual (op : Connective) (x : Float) :
    op.dual.decides (UnaryOp.not.apply x) = op.decides x := by
  cases op
  · rw [dual, decides_or, decides_and, isTrue_not]
  · rw [dual, decides_or, decides_and, isTrue_not, Bool.not_not]

/-- The left operand is no number that decides the connective with a vector. -/
def Balanced (op : Connective) (s : Shape) (x : Value) : Prop :=
  ∀ a, x = .scalar a → s = .vector → op.decides a = false

theorem asks_dual (h : op.Balanced s x) :
    op.dual.asks s (x.map UnaryOp.not.apply) = op.asks s x := by
  cases x with
  | scalar a =>
    cases s with
    | scalar => rw [Value.map, asks_scalar, asks_scalar, decides_dual]
    | vector =>
      have hd := h a rfl rfl
      rw [Value.map, asks_of_not_decides hd, asks_of_not_decides ((decides_dual op a).trans hd)]
  | vector xs =>
    rw [Value.map, Bool.eq_iff_iff, ← not_iff_not, Bool.not_eq_true, Bool.not_eq_true,
      asks_vector_eq_false, asks_vector_eq_false, List.all_map]
    simp only [Function.comp_def, decides_dual]

theorem answer_dual (h : op.Balanced y.shape x) :
    op.dual.answer (x.map UnaryOp.not.apply) (y.map UnaryOp.not.apply) =
      (op.answer x y).map UnaryOp.not.apply := by
  cases x with
  | scalar a =>
    cases y with
    | scalar b => exact congrArg Value.scalar (onNumbers_dual op a b)
    | vector ys =>
      have hd := h a rfl rfl
      rw [answer_of_not_decides hd]
      exact answer_of_not_decides ((decides_dual op a).trans hd)
  | vector xs =>
    cases y with
    | scalar b => simp [Value.map, answer, onNumbers_dual]
    | vector ys => simp [Value.map, answer, onNumbers_dual, List.zipWith_map, List.map_zipWith]

/-- **Negated operands give the negated outcome** of the dual connective: the right operand is evaluated
on both sides or on neither. -/
theorem connect_dual {right : Outcome Value} (h : op.Balanced s x)
    (hr : ∀ {y}, right.result = .ok y → y.shape = s) :
    op.dual.connect s (right >>= fun y => pure (y.map UnaryOp.not.apply))
        (x.map UnaryOp.not.apply) =
      op.connect s right x >>= fun z => pure (z.map UnaryOp.not.apply) := by
  cases ha : op.asks s x with
  | true =>
    have hr' : ∀ {z}, (right >>= fun y => pure (y.map UnaryOp.not.apply)).result = .ok z →
        z.shape = s := by
      intro z hz
      obtain ⟨y, hy, ⟨⟩⟩ := Outcome.result_bind_eq_ok.mp hz
      exact (y.shape_map _).trans (hr hy)
    rw [connect_of_asks ha hr, connect_of_asks ((asks_dual h).trans ha) hr']
    simp only [bind_assoc, pure_bind]
    refine Outcome.bind_congr fun y hy => ?_
    rw [answer_dual (hr hy ▸ h)]
  | false =>
    obtain ⟨y, hy⟩ := Value.exists_shape_eq s
    have hy' := (y.shape_map UnaryOp.not.apply).trans hy
    rw [connect_of_not_asks ha hy, connect_of_not_asks ((asks_dual h).trans ha) hy',
      Outcome.pure_bind, answer_dual (hy ▸ h)]

end Connective

namespace Func

variable {f g : Func} {r : Record} {op : Connective} {a : Float}

/-- The function `!f`. -/
def negation (f : Func) : Func := unary .not f

/-- The function `f && g`. -/
def conjunction (f g : Func) : Func := binary (.connective .and) f g

/-- The function `f || g`. -/
def disjunction (f g : Func) : Func := binary (.connective .or) f g

theorem shape_negation (f : Func) : f.negation.shape = f.shape := by
  rw [shape, negation, evaluator_unary, Evaluator.shape_map, shape]

theorem eval_negation (f : Func) (r : Record) :
    f.negation.eval r = ⟨(f.eval r).calls, (f.eval r).result.map (Value.map UnaryOp.not.apply)⟩ := by
  rw [negation, eval_unary, Outcome.bind_pure_eq]

/-! ### Where the law holds -/

theorem eval_negation_connective
    (h : ∀ {x}, (f.eval r).result = .ok x → op.Balanced g.shape x) :
    (binary (.connective op) f g).negation.eval r =
      (binary (.connective op.dual) f.negation g.negation).eval r := by
  rw [negation, eval_unary, eval_connective, eval_connective, shape_negation, negation, eval_unary,
    negation, eval_unary, bind_assoc, bind_assoc]
  refine Outcome.bind_congr fun x hx => ?_
  rw [pure_bind]
  exact (Connective.connect_dual (h hx) shape_eq_of_eval).symm

/-! ### Beyond its end -/

theorem eval_conjunction_of_false (hg : g.shape = .vector)
    (hf : (f.eval r).result = .ok (.scalar a)) (ha : isTrue a = false) :
    (conjunction f g).eval r = ⟨(f.eval r).calls, .ok (.vector [])⟩ := by
  have hc : Connective.and.connect g.shape (g.eval r) (.scalar a) = pure (.vector []) := by
    have hasks : Connective.and.asks g.shape (.scalar a) = false := ha
    rw [Connective.connect_of_not_asks hasks (y := .vector []) hg.symm]
    simp only [Connective.answer, ha]
  rw [conjunction, eval_connective, Outcome.bind_of_ok hf, hc, Outcome.pure_def, List.append_nil]

theorem eval_disjunction_of_true (hg : g.shape = .vector)
    (hf : (f.eval r).result = .ok (.scalar a)) (ha : isTrue a = true) :
    (disjunction f g).eval r =
      ⟨(f.eval r).calls ++ (g.eval r).calls, (g.eval r).result.map (Value.map fun _ => 1)⟩ := by
  have hc : Connective.or.connect g.shape (g.eval r) (.scalar a) =
      g.eval r >>= fun y => pure (y.map fun _ => 1) := by
    rw [← Connective.decides_or] at ha
    simp only [Connective.connect, hg, ha]
    rfl
  rw [disjunction, eval_connective, Outcome.bind_of_ok hf, hc, Outcome.bind_pure_eq]

theorem eval_negation_disjunction_of_true (hg : g.shape = .vector)
    (hf : (f.eval r).result = .ok (.scalar a)) (ha : isTrue a = true) :
    (disjunction f g).negation.eval r =
      ⟨(f.eval r).calls ++ (g.eval r).calls, (g.eval r).result.map (Value.map fun _ => 0)⟩ := by
  have hzero : UnaryOp.not.apply 1 = 0 := by decide
  rw [eval_negation, eval_disjunction_of_true hg hf ha]
  cases (g.eval r).result with
  | error e => rfl
  | ok y => cases y <;> simp [Except.map, Value.map, hzero]

/-- **De Morgan's law of functions, and its end**: but for a number left of a vector, the two sides of the
law have the same values, errors and calls. A number left of a vector ends the law for one of the two
connectives: for `&&` if it is false, for `||` if it is true. Then one side is the empty vector, without
a call of the right operand, and the other one has as many entries as that operand. -/
theorem deMorgan (f g : Func) (r : Record) :
    (¬(f.shape = .scalar ∧ g.shape = .vector) →
      (conjunction f g).negation.eval r = (disjunction f.negation g.negation).eval r ∧
      (disjunction f g).negation.eval r = (conjunction f.negation g.negation).eval r) ∧
    (g.shape = .vector → ∀ a, (f.eval r).result = .ok (.scalar a) →
      (isTrue a = true →
        (conjunction f g).negation.eval r = (disjunction f.negation g.negation).eval r ∧
        (disjunction f g).negation.eval r =
          ⟨(f.eval r).calls ++ (g.eval r).calls, (g.eval r).result.map (Value.map fun _ => 0)⟩ ∧
        (conjunction f.negation g.negation).eval r = ⟨(f.eval r).calls, .ok (.vector [])⟩) ∧
      (isTrue a = false →
        (disjunction f g).negation.eval r = (conjunction f.negation g.negation).eval r ∧
        (conjunction f g).negation.eval r = ⟨(f.eval r).calls, .ok (.vector [])⟩ ∧
        (disjunction f.negation g.negation).eval r =
          ⟨(f.eval r).calls ++ (g.eval r).calls,
            (g.eval r).result.map (Value.map fun _ => 1)⟩)) := by
  constructor
  · intro h
    have hb (op : Connective) : ∀ {x}, (f.eval r).result = .ok x → op.Balanced g.shape x := by
      rintro x hx a rfl hs
      exact absurd ⟨(shape_eq_of_eval hx).symm, hs⟩ h
    exact ⟨eval_negation_connective (hb .and), eval_negation_connective (hb .or)⟩
  · intro hg a hf
    have hg' : g.negation.shape = .vector := (shape_negation g).trans hg
    have hf' : (f.negation.eval r).result = .ok (.scalar (UnaryOp.not.apply a)) := by
      rw [eval_negation, hf]
      rfl
    have hb {op : Connective} (hd : op.decides a = false) :
        ∀ {x}, (f.eval r).result = .ok x → op.Balanced g.shape x := by
      rintro x hx b rfl -
      cases hf.symm.trans hx
      exact hd
    constructor
    · intro ha
      refine ⟨eval_negation_connective (hb ?_), eval_negation_disjunction_of_true hg hf ha, ?_⟩
      · rw [Connective.decides_and, ha, Bool.not_true]
      · rw [eval_conjunction_of_false hg' hf' (by rw [Connective.isTrue_not, ha, Bool.not_true]),
          eval_negation]
    · intro ha
      refine ⟨eval_negation_connective (hb ?_), ?_, ?_⟩
      · rw [Connective.decides_or, ha]
      · rw [eval_negation, eval_conjunction_of_false hg hf ha]
        rfl
      · rw [eval_disjunction_of_true hg' hf' (by rw [Connective.isTrue_not, ha, Bool.not_false]),
          eval_negation, eval_negation]
        cases (g.eval r).result with
        | error e => rfl
        | ok y => cases y <;> simp [Except.map, Value.map, Function.comp_def]

/-- A failing number behind a vector fails on both sides. Behind a false number a vector is not called by
the negated `&&`, but gives its two ones to the `||` of the negations. -/
theorem deMorgan_false_number :
    let s : Func := ofEvaluator "s" (leafEvaluator "s" (.scalar 0) none)
    let u : Func := ofEvaluator "u" (leafEvaluator "u" (.scalar 2) (some .recordText))
    let v : Func := ofEvaluator "v" (leafEvaluator "v" (.vector [1, 1]) none)
    (conjunction v u).negation.eval ∅ = (disjunction v.negation u.negation).eval ∅ ∧
      (conjunction v u).negation.eval ∅ = ⟨["v", "u"], .error .recordText⟩ ∧
      (conjunction s v).negation.eval ∅ = ⟨["s"], .ok (.vector [])⟩ ∧
      (disjunction s.negation v.negation).eval ∅ = ⟨["s", "v"], .ok (.vector [1, 1])⟩ := by
  intro s u v
  obtain ⟨-, hfalse⟩ := (deMorgan s v ∅).2 rfl 0 rfl
  obtain ⟨-, hand, hor⟩ := hfalse (by decide)
  exact ⟨((deMorgan v u ∅).1 (by rintro ⟨⟨⟩, -⟩)).1, rfl, hand, hor⟩

end Func

end Cutflow
