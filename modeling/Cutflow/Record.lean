import Cutflow.NameMap
import Cutflow.Shape

/-!
# Event records

What is known about one event: for every name a number or a list of numbers.
-/

namespace Cutflow

/-- A quantity of an event. -/
inductive Value where
  /-- One number. -/
  | scalar (x : Float)
  /-- One number for each object. -/
  | vector (xs : List Float)
  deriving DecidableEq

/-- The shape of a quantity. -/
def Value.shape : Value → Shape
  | .scalar _ => .scalar
  | .vector _ => .vector

/-- The quantities of one event by name. -/
structure Record where
  values : NameMap Value
  deriving DecidableEq

namespace Record

/-- The record without quantities. -/
def empty : Record := ⟨∅⟩

instance : EmptyCollection Record := ⟨empty⟩

instance : Inhabited Record := ⟨empty⟩

/-- The record with a quantity set, in place of an earlier one of that name. -/
def insert (r : Record) (name : String) (value : Value) : Record := ⟨r.values.insert name value⟩

/-- The number of that name, if there is one. -/
def scalar? (r : Record) (name : String) : Option Float :=
  match r.values.find? name with
  | some (.scalar x) => some x
  | _ => none

/-- The list of numbers of that name, if there is one. -/
def vector? (r : Record) (name : String) : Option (List Float) :=
  match r.values.find? name with
  | some (.vector xs) => some xs
  | _ => none

/-- The number of quantities. -/
def size (r : Record) : Nat := r.values.size

end Record

end Cutflow
