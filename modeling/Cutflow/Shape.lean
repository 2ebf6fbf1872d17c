/-!
# Shapes

Every quantity of an event is either one number or an ordered list of numbers with one entry for
each of its objects.
-/

namespace Cutflow

/-- Whether a quantity is one number or one number for each object. -/
inductive Shape where
  /-- One number. -/
  | scalar
  /-- An ordered list of numbers. -/
  | vector
  deriving DecidableEq

/-- The word for a shape in messages and in schema files. -/
def Shape.label : Shape → String
  | .scalar => "scalar"
  | .vector => "vector"

/-- The shape a word stands for. -/
def Shape.ofLabel? : String → Option Shape
  | "scalar" => some .scalar
  | "vector" => some .vector
  | _ => none

theorem Shape.ofLabel?_label (s : Shape) : ofLabel? s.label = some s := by
  cases s <;> rfl

end Cutflow
