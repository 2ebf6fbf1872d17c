import Cutflow.Operator
import Cutflow.Outcome
import Cutflow.Record

/-!
# Evaluators

The computations behind functions. An evaluator has one shape, fixed when it is built, and is run
on one record at a time.

## The model

Operands are evaluated from left to right. A scalar operand is broadcast over a vector one; two
vectors are combined entry by entry over the shorter length. The connectives evaluate their right
operand only if the left one leaves the answer open:

* two scalars: if the left truth value is not the deciding one;
* a scalar left of a vector: `&&` only for a true left operand, else the answer is the empty
  vector; `||` always, because the right operand gives the length of the answer;
* a vector left of a scalar: at the first entry that leaves the answer open, and never again;
* two vectors: always.
-/

namespace Cutflow

/-- A computation on records. -/
inductive Evaluator where
  /-- One number for each record. -/
  | scalar (run : Record → Outcome Float)
  /-- A list of numbers for each record. -/
  | vector (run : Record → Outcome (List Float))

namespace Evaluator

open Number

/-- The shape of what is computed. -/
def shape : Evaluator → Shape
  | scalar _ => .scalar
  | vector _ => .vector

/-- An operator on one number, entry by entry on vectors. -/
def map (op : Float → Float) : Evaluator → Evaluator
  | scalar a => scalar fun r => return op (← a r)
  | vector a => vector fun r => return (← a r).map op

/-- An operator on two numbers, broadcast over vectors. -/
def pointwise (op : Float → Float → Float) : Evaluator → Evaluator → Evaluator
  | scalar a, scalar b => scalar fun r => do
    let x ← a r
    let y ← b r
    return op x y
  | scalar a, vector b => vector fun r => do
    let x ← a r
    let ys ← b r
    return ys.map fun y => op x y
  | vector a, scalar b => vector fun r => do
    let xs ← a r
    let y ← b r
    return xs.map fun x => op x y
  | vector a, vector b => vector fun r => do
    let xs ← a r
    let ys ← b r
    return List.zipWith op xs ys

/-- The connective of each entry with one scalar operand on the right. That operand is evaluated
at the first entry that does not decide the answer; `known` is its truth value from then on. -/
def connectEntries (op : Connective) (right : Outcome Float) :
    Option Bool → List Float → Outcome (List Float)
  | _, [] => return []
  | known, x :: xs =>
    if isTrue x = op.deciding then do
      let rest ← connectEntries op right known xs
      return ofTruth op.deciding :: rest
    else
      match known with
      | some b => do
        let rest ← connectEntries op right known xs
        return ofTruth b :: rest
      | none => do
        let b := isTrue (← right)
        let rest ← connectEntries op right (some b) xs
        return ofTruth b :: rest

/-- A logical connective. -/
def connective (op : Connective) : Evaluator → Evaluator → Evaluator
  | scalar a, scalar b => scalar fun r => do
    let x ← a r
    if isTrue x = op.deciding then return ofTruth op.deciding
    else return ofTruth (isTrue (← b r))
  | scalar a, vector b => vector fun r => do
    let x ← a r
    match op, isTrue x with
    | .and, false => return []
    | .and, true => b r
    | .or, false => b r
    | .or, true => return (← b r).map fun _ => ofTruth true
  | vector a, scalar b => vector fun r => do
    let xs ← a r
    connectEntries op (b r) none xs
  | vector a, vector b =>
    pointwise (fun x y => ofTruth (op.apply (isTrue x) (isTrue y))) (vector a) (vector b)

/-- The entry of a vector at a computed index: the index has to be finite and not negative, and
its whole part an index of the vector. -/
def entryAt (label : String) (xs : List Float) (i : Float) : Except Error Float :=
  let outOfRange : Error := .indexOutOfRange label i xs.length
  if i.isFinite && 0 ≤ i then
    match xs[i.toUInt64.toNat]? with
    | some x => .ok x
    | none => .error outOfRange
  else .error outOfRange

/-- The entry of a vector at a scalar index; `label` names the entry in messages. -/
def index (label : String) : Evaluator → Evaluator → Except Error Evaluator
  | scalar _, _ => .error (.scalarBase label)
  | vector _, vector _ => .error (.vectorIndex label)
  | vector a, scalar b => .ok (scalar fun r => do
    let xs ← a r
    let i ← b r
    Outcome.ofExcept (entryAt label xs i))

end Evaluator

end Cutflow
