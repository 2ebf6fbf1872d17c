import Cutflow.Proofs.Lowering
import Cutflow.Proofs.TaggedValue

/-!
# Connectives

What `&&` and `||` answer, and when they need their right operand to answer it, as two tables: one line
for each pair of shapes. The evaluators come to this by different ways. A number left of a vector passes
the vector on, or an empty one, or ones; a vector left of a number walks over its entries and keeps what
it has found out about the number.

## What is proved

* `Connective.connect_cases`: by the value of the left operand, a connective is a value or what it makes
  of the right operand.
* `Connective.connect_of_asks`, `connect_of_not_asks`: the answer is computed with the right operand if
  it is asked for, and else does not depend on it.
* `Evaluator.outcome_connective`: so a connective calls its left operand once, and after that its right
  operand once or not at all.
-/

namespace Cutflow

open Number

theorem Outcome.bind_congr {α β : Type} {a : Outcome α} {f g : α → Outcome β}
    (h : ∀ x, a.result = .ok x → f x = g x) : a >>= f = a >>= g := by
  cases ha : a.result with
  | error e => rw [bind_of_error ha, bind_of_error ha]
  | ok x => rw [bind_of_ok ha, bind_of_ok ha, h x ha]

namespace Value

theorem exists_shape_eq (s : Shape) : ∃ x : Value, x.shape = s := by
  cases s with
  | scalar => exact ⟨.scalar 0, rfl⟩
  | vector => exact ⟨.vector [], rfl⟩

theorem shape_combine (op : Float → Float → Float) (x y : Value) :
    (combine op x y).shape = x.shape.join y.shape := by
  cases x <;> cases y <;> rfl

end Value

namespace Connective

/-- The left value alone gives a value, or it says what is made of the right one; which of both does not
depend on the right operand. -/
theorem connect_cases (op : Connective) (s : Shape) (x : Value) :
    (∃ z : Value, z.shape = x.shape.join s ∧ ∀ right, op.connect s right x = pure z) ∨
      ∃ f : Value → Value, (∀ y : Value, y.shape = s → (f y).shape = x.shape.join s) ∧
        ∀ right, op.connect s right x = right >>= fun y => pure (f y) := by
  have hmap {s : Shape} (g : Float → Float) (y : Value) (hy : y.shape = s) :
      (y.map g).shape = Shape.scalar.join s := by
    rw [y.shape_map, hy]
    cases s <;> rfl
  cases x with
  | scalar a =>
    cases s <;> cases hd : op.decides a
    · exact .inr ⟨Value.map (op.onNumbers a), hmap _, fun right => by simp only [connect, hd]⟩
    · exact .inl ⟨.scalar (ofTruth op.deciding), rfl, fun right => by simp only [connect, hd]⟩
    · exact .inr ⟨id, fun y hy => hy, fun right => by simp only [connect, hd, id, bind_pure]⟩
    · cases op
      · exact .inl ⟨.vector [], rfl, fun right => by simp only [connect, hd]⟩
      · exact .inr ⟨Value.map fun _ => ofTruth true, hmap _, fun right => by simp only [connect, hd]⟩
  | vector xs =>
    by_cases h : s = .scalar ∧ xs.all op.decides
    · exact .inl ⟨.vector (xs.map fun _ => ofTruth op.deciding), h.1 ▸ rfl,
        fun right => by rw [connect, if_pos h]⟩
    · exact .inr ⟨Value.combine op.onNumbers (.vector xs),
        fun y hy => hy ▸ Value.shape_combine op.onNumbers (.vector xs) y,
        fun right => by rw [connect, if_neg h]⟩

/-- Whether the right operand, of shape `s`, is needed, by the value of the left one. -/
def asks (op : Connective) (s : Shape) : Value → Bool
  | .scalar x =>
    match op, s with
    | .and, _ => isTrue x
    | .or, .scalar => !isTrue x
    | .or, .vector => true
  | .vector xs =>
    match op, s with
    | .and, .scalar => xs.any isTrue
    | .or, .scalar => xs.any fun x => !isTrue x
    | _, .vector => true

/-- The value of the connective by the values of its operands. -/
def answer (op : Connective) : Value → Value → Value
  | .scalar x, .scalar y => .scalar (op.onNumbers x y)
  | .scalar x, .vector ys =>
    match op, isTrue x with
    | .and, true => .vector ys
    | .and, false => .vector []
    | .or, true => .vector (List.replicate ys.length 1)
    | .or, false => .vector ys
  | .vector xs, .scalar y => .vector (xs.map fun x => op.onNumbers x y)
  | .vector xs, .vector ys => .vector (List.zipWith op.onNumbers xs ys)

variable {op : Connective} {s : Shape} {right : Outcome Value} {x y : Value}

theorem asks_scalar (op : Connective) (a : Float) : op.asks .scalar (.scalar a) = !op.decides a := by
  cases op with
  | and => rw [decides_and, Bool.not_not, asks]
  | or => rw [decides_or, asks]

theorem asks_of_not_decides {a : Float} (h : op.decides a = false) : op.asks s (.scalar a) = true := by
  cases s with
  | scalar => rw [asks_scalar, h, Bool.not_false]
  | vector =>
    cases op with
    | and => rwa [decides_and, Bool.not_eq_false'] at h
    | or => rfl

/-- A number on the right is needed unless every entry decides. -/
theorem asks_vector_eq_false {xs : List Float} :
    op.asks s (.vector xs) = false ↔ s = .scalar ∧ xs.all op.decides = true := by
  cases s with
  | vector => cases op <;> simp [asks]
  | scalar => cases op <;> simp [asks, decides_and, decides_or]

theorem answer_of_decides {a b : Float} (h : op.decides a = true) :
    op.answer (.scalar a) (.scalar b) = .scalar (ofTruth op.deciding) :=
  congrArg Value.scalar (onNumbers_of_decides h b)

/-- A number that leaves the answer open passes a vector on. -/
theorem answer_of_not_decides {a : Float} {ys : List Float} (h : op.decides a = false) :
    op.answer (.scalar a) (.vector ys) = .vector ys := by
  cases op with
  | and =>
    rw [decides_and, Bool.not_eq_false'] at h
    simp only [answer, h]
  | or =>
    rw [decides_or] at h
    simp only [answer, h]

theorem answer_vector (op : Connective) (xs : List Float) (y : Value) :
    op.answer (.vector xs) y = .combine op.onNumbers (.vector xs) y := by
  cases y <;> rfl

/-- **What is asked for is asked for once**, and the answer is computed with it. -/
theorem connect_of_asks (h : op.asks s x = true) (hr : ∀ {y}, right.result = .ok y → y.shape = s) :
    op.connect s right x = right >>= fun y => pure (op.answer x y) := by
  cases x with
  | vector xs =>
    have hn : ¬(s = .scalar ∧ xs.all op.decides = true) := by
      rw [← asks_vector_eq_false, h]
      exact Bool.noConfusion
    rw [connect, if_neg hn]
    exact Outcome.bind_congr fun y _ => congrArg pure (answer_vector op xs y).symm
  | scalar a =>
    cases s with
    | scalar =>
      rw [asks_scalar, Bool.not_eq_true'] at h
      simp only [connect, h]
      refine Outcome.bind_congr fun y hy => ?_
      cases y with
      | vector ys => cases hr hy
      | scalar b => rfl
    | vector =>
      cases hd : op.decides a with
      | false =>
        simp only [connect, hd]
        conv_lhs => rw [← bind_pure right]
        refine Outcome.bind_congr fun y hy => ?_
        cases y with
        | scalar b => cases hr hy
        | vector ys => rw [answer_of_not_decides hd]
      | true =>
        cases op with
        | and =>
          rw [decides_and, Bool.not_eq_true'] at hd
          cases h.symm.trans hd
        | or =>
          simp only [connect, hd]
          refine Outcome.bind_congr fun y hy => ?_
          rw [decides_or] at hd
          cases y with
          | scalar b => cases hr hy
          | vector ys => simp only [answer, hd, Value.map, List.map_const', ofTruth, if_pos]

/-- **What is not asked for does not matter**: the answer is the same with every value of its shape. -/
theorem connect_of_not_asks (h : op.asks s x = false) (hy : y.shape = s) :
    op.connect s right x = pure (op.answer x y) := by
  cases x with
  | vector xs =>
    rw [asks_vector_eq_false] at h
    rw [connect, if_pos h, answer_vector]
    cases y with
    | vector ys => cases hy.trans h.1
    | scalar b =>
      have hmap : xs.map (fun _ => ofTruth op.deciding) = xs.map fun x => op.onNumbers x b :=
        List.map_congr_left fun x hx => (onNumbers_of_decides (List.all_eq_true.mp h.2 x hx) b).symm
      rw [hmap]
      rfl
  | scalar a =>
    cases y with
    | scalar b =>
      cases hy
      rw [Value.shape, asks_scalar, Bool.not_eq_false'] at h
      rw [answer_of_decides h]
      simp only [connect, Value.shape, h]
    | vector ys =>
      cases hy
      cases op with
      | or => cases h
      | and =>
        have ha : isTrue a = false := h
        have hd : Connective.and.decides a = true := by rw [decides_and, ha, Bool.not_false]
        simp only [connect, Value.shape, hd, answer, ha]

end Connective

namespace Evaluator

/-- **Connectives are lazy, and exactly so**: the left operand is evaluated once, and if it fails that is
all. The right one is evaluated once after it if it is asked for, and then the answer is computed from
both values, or its error is the outcome; else the answer does not depend on it. -/
theorem outcome_connective (op : Connective) (a b : Evaluator) (r : Record) :
    (∀ e, (a.eval r).result = .error e →
      (connective op a b).eval r = ⟨(a.eval r).calls, .error e⟩) ∧
    ∀ x, (a.eval r).result = .ok x →
      (op.asks b.shape x = true →
        (connective op a b).eval r =
          ⟨(a.eval r).calls ++ (b.eval r).calls, (b.eval r).result.map (op.answer x)⟩) ∧
      (op.asks b.shape x = false → ∀ y : Value, y.shape = b.shape →
        (connective op a b).eval r = ⟨(a.eval r).calls, .ok (op.answer x y)⟩) := by
  rw [eval_connective]
  constructor
  · intro e he
    exact Outcome.bind_of_error he _
  · intro x hx
    rw [Outcome.bind_of_ok hx]
    constructor
    · intro h
      rw [Connective.connect_of_asks h fun hy => shape_eq_of_eval r hy, Outcome.bind_pure_eq]
    · intro h y hy
      rw [Connective.connect_of_not_asks h hy, Outcome.pure_def, List.append_nil]

/-- A failing number behind a vector: the walk over `1, 0, 0` gets to it at the second entry and ends
there, the walk over `0, 0` does without it. -/
theorem outcome_connective_failing :
    let v (xs : List Float) : Evaluator := Func.leafEvaluator "v" (.vector xs) none
    let u : Evaluator := Func.leafEvaluator "u" (.scalar 2) (some .recordText)
    Connective.or.asks .scalar (.vector [1, 0, 0]) = true ∧
      (connective .or (v [1, 0, 0]) u).eval ∅ = ⟨["v", "u"], .error .recordText⟩ ∧
      Connective.and.asks .scalar (.vector [0, 0]) = false ∧
      (connective .and (v [0, 0]) u).eval ∅ = ⟨["v"], .ok (.vector [0, 0])⟩ := by
  intro v u
  obtain ⟨-, hor⟩ := outcome_connective .or (v [1, 0, 0]) u ∅
  obtain ⟨-, hand⟩ := outcome_connective .and (v [0, 0]) u ∅
  exact ⟨rfl, (hor (.vector [1, 0, 0]) rfl).1 rfl, rfl,
    (hand (.vector [0, 0]) rfl).2 rfl (.scalar 2) rfl⟩

end Evaluator

end Cutflow
