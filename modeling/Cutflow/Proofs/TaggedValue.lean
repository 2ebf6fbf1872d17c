import Cutflow.Func
import Cutflow.Proofs.Number.Nearest
import Cutflow.Proofs.Outcome

/-!
# Tagged values

An `Evaluator` fixes its shape when it is built and combines bare numbers or bare lists from then
on. Here the same combinations are said of *values*, which carry their shape with them and are
told apart only when they are met: `Value.map`, `Value.combine`, `Value.entry` and
`Connective.connect`.

## What is proved

* `Value.entry_eq_entryAt`: an index that is cut off to a machine number finds the entry at its whole part.
* `Evaluator.eval_map`, `eval_pointwise`, `eval_connective`, `eval_index`: what each way of
  building an evaluator does, said on tagged values. `eval_connective` is the one with content:
  the walk over the entries of the left operand, which remembers whether the right one is known
  by now, evaluates it once if some entry leaves the answer open and not at all otherwise.
* `Evaluator.shape_eq_of_eval`: a value has the shape of the evaluator that gave it.
-/

namespace Cutflow

open Number

namespace Value

/-- An operator on one number, entry by entry on a list. -/
def map (op : Float → Float) : Value → Value
  | scalar x => scalar (op x)
  | vector xs => vector (xs.map op)

theorem shape_map (op : Float → Float) (v : Value) : (v.map op).shape = v.shape := by
  cases v <;> rfl

/-- An operator on two numbers: a number is broadcast over a list, two lists are combined entry
by entry over the shorter length. -/
def combine (op : Float → Float → Float) : Value → Value → Value
  | scalar x, scalar y => scalar (op x y)
  | scalar x, vector ys => vector (ys.map fun y => op x y)
  | vector xs, scalar y => vector (xs.map fun x => op x y)
  | vector xs, vector ys => vector (List.zipWith op xs ys)

/-- The place in a list that a number says: its whole part, if it is finite and not negative. Beyond the
machine's numbers this is the greatest of them, which is past the end of every list that fits a machine. -/
def place? (i : Float) : Option Nat :=
  if i.isFinite ∧ 0 ≤ i then some (min ⌊valueOf (magnitude i)⌋₊ (UInt64.size - 1)) else none

/-- The entry of a list at the place that a number says; `label` names the entry in messages. -/
def entry (label : String) : Value → Value → Except Error Value
  | vector xs, scalar i =>
    match (place? i).bind fun k => xs[k]? with
    | some x => .ok (scalar x)
    | none => .error (.indexOutOfRange label i xs.length)
  | vector _, vector _ => .error (.vectorIndex label)
  | scalar _, _ => .error (.scalarBase label)

/-- Evaluators cut an index off as a machine number, which is the place it says. -/
theorem entry_eq_entryAt (label : String) (xs : List Float) (i : Float) :
    entry label (vector xs) (scalar i) = (Evaluator.entryAt label xs i).map scalar := by
  rw [entry, Evaluator.entryAt, place?]
  by_cases h : i.isFinite ∧ 0 ≤ i
  · rw [if_pos h, if_pos (by simp [h]), toNat_toUInt64 h.1 h.2, Option.bind_some]
    cases xs[min ⌊valueOf (magnitude i)⌋₊ (UInt64.size - 1)]? <;> rfl
  · rw [if_neg h, if_neg (by simpa using h), Option.bind_none]
    rfl

end Value

namespace Connective

variable (op : Connective)

/-- The connective on two numbers; it answers `1` or `0`. -/
def onNumbers (x y : Float) : Float := ofTruth (op.apply (isTrue x) (isTrue y))

/-- Whether a number on the left decides the connective alone. -/
def decides (x : Float) : Bool := isTrue x = op.deciding

/-- The connective with the value of its left operand, when the right one, of shape `s`, is still
to be evaluated by `right`. -/
def connect (s : Shape) (right : Outcome Value) : Value → Outcome Value
  | .scalar x =>
    match s, op.decides x with
    | .scalar, true => return .scalar (ofTruth op.deciding)
    | .scalar, false => return (← right).map fun y => op.onNumbers x y
    | .vector, true =>
      match op with
      | .and => return .vector []
      | .or => return (← right).map fun _ => ofTruth true
    | .vector, false => right
  | .vector xs =>
    if s = .scalar ∧ xs.all op.decides then return .vector (xs.map fun _ => ofTruth op.deciding)
    else return .combine op.onNumbers (.vector xs) (← right)

theorem decides_and (x : Float) : and.decides x = !isTrue x := by
  rw [decides, deciding]
  cases isTrue x <;> rfl

theorem decides_or (x : Float) : or.decides x = isTrue x := by
  rw [decides, deciding]
  cases isTrue x <;> rfl

variable {op}

theorem onNumbers_of_decides {x : Float} (h : op.decides x = true) (y : Float) :
    op.onNumbers x y = ofTruth op.deciding := by
  rw [onNumbers, of_decide_eq_true h, apply_deciding]

theorem onNumbers_of_not_decides {x : Float} (h : op.decides x = false) (y : Float) :
    op.onNumbers x y = ofTruth (isTrue y) := by
  rw [onNumbers, apply_of_ne _ (of_decide_eq_false h)]

end Connective

namespace Evaluator

/-- What an evaluator gives on a record, as a value. -/
def eval (r : Record) : Evaluator → Outcome Value
  | scalar run => return .scalar (← run r)
  | vector run => return .vector (← run r)

variable (r : Record)

theorem shape_eq_of_eval {a : Evaluator} {v : Value} (h : (a.eval r).result = .ok v) :
    v.shape = a.shape := by
  cases a with
  | scalar run =>
    obtain ⟨x, -, hv⟩ := Outcome.result_bind_eq_ok.mp h
    cases hv
    rfl
  | vector run =>
    obtain ⟨xs, -, hv⟩ := Outcome.result_bind_eq_ok.mp h
    cases hv
    rfl

theorem eval_map (op : Float → Float) (a : Evaluator) :
    (a.map op).eval r = return (← a.eval r).map op := by
  cases a <;> simp [map, eval, Value.map]

theorem eval_pointwise (op : Float → Float → Float) (a b : Evaluator) :
    (pointwise op a b).eval r = do
      let x ← a.eval r
      let y ← b.eval r
      return .combine op x y := by
  cases a <;> cases b <;> simp [pointwise, eval, Value.combine]

/-! ### The connectives -/

variable (op : Connective)

/-- Once the right operand is known it is not evaluated any more. -/
theorem connectEntries_some (right : Outcome Float) (b : Bool) (xs : List Float) :
    connectEntries op right (some b) xs =
      return xs.map fun x => ofTruth (op.apply (isTrue x) b) := by
  induction xs with
  | nil => rfl
  | cons x xs ih =>
    rw [connectEntries, ih]
    by_cases hx : isTrue x = op.deciding
    · simp [hx, Connective.apply_deciding]
    · simp [hx, Connective.apply_of_ne]

/-- The right operand is evaluated once if some entry leaves the answer open, else not at all. -/
theorem connectEntries_none (right : Outcome Float) (xs : List Float) :
    connectEntries op right none xs =
      if xs.all op.decides then return xs.map fun _ => ofTruth op.deciding
      else do
        let y ← right
        return xs.map fun x => op.onNumbers x y := by
  induction xs with
  | nil => rfl
  | cons x xs ih =>
    rw [connectEntries]
    by_cases hx : isTrue x = op.deciding
    · -- the entry decides: whether the right operand is needed is up to the rest
      have hd : op.decides x = true := decide_eq_true hx
      rw [if_pos hx, ih, List.all_cons, hd, Bool.true_and]
      cases ha : xs.all op.decides with
      | true => simp
      | false => simp [Connective.onNumbers_of_decides hd]
    · -- the entry is open: the right operand is evaluated here and known for the rest
      have hd : op.decides x = false := decide_eq_false hx
      rw [if_neg hx]
      simp [hd, connectEntries_some, Connective.onNumbers, Connective.apply_of_ne op hx]

theorem eval_connective (a b : Evaluator) :
    (connective op a b).eval r = a.eval r >>= op.connect b.shape (b.eval r) := by
  cases a with
  | scalar a =>
    simp only [eval, bind_assoc, pure_bind]
    cases b with
    | scalar b =>
      simp only [connective, bind_assoc]
      congr 1
      funext x
      by_cases hx : isTrue x = op.deciding
      · simp [Connective.connect, shape, Connective.decides, hx]
      · have hd : op.decides x = false := decide_eq_false hx
        simp [Connective.connect, shape, hd, hx, Value.map, Connective.onNumbers_of_not_decides hd]
    | vector b =>
      simp only [connective, bind_assoc]
      congr 1
      funext x
      cases op <;> cases hx : isTrue x <;>
        simp [Connective.connect, shape, Connective.decides, Connective.deciding, hx, Value.map]
  | vector a =>
    cases b with
    | scalar b =>
      simp only [eval, connective, bind_assoc, pure_bind]
      congr 1
      funext xs
      rw [connectEntries_none]
      cases hd : xs.all op.decides with
      | true => simp [Connective.connect, shape, hd]
      | false => simp [Connective.connect, shape, hd, Value.combine]
    | vector b =>
      have hp : connective op (vector a) (vector b) =
        pointwise op.onNumbers (vector a) (vector b) := rfl
      rw [hp, eval_pointwise]
      simp [eval, Connective.connect, shape]

theorem eval_index {label : String} {a b e : Evaluator} (h : index label a b = .ok e) :
    e.eval r = (do
      let x ← a.eval r
      let i ← b.eval r
      Outcome.ofExcept (Value.entry label x i)) := by
  cases a with
  | scalar a => cases h
  | vector a =>
    cases b with
    | vector b => cases h
    | scalar b =>
      cases h
      simp only [eval, bind_assoc, pure_bind, Value.entry_eq_entryAt]
      congr 1
      funext xs
      congr 1
      funext i
      cases entryAt label xs i <;> rfl

end Evaluator

end Cutflow
