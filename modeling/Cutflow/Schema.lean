import Cutflow.Error
import Cutflow.Record
import Cutflow.Text

/-!
# Schemas

Which variables an expression may mention, and their shapes.
-/

namespace Cutflow

/-- The shapes of the declared variables by name. -/
structure Schema where
  shapes : NameMap Shape
  deriving DecidableEq

namespace Schema

/-- The schema without variables. -/
def empty : Schema := ⟨∅⟩

instance : EmptyCollection Schema := ⟨empty⟩

instance : Inhabited Schema := ⟨empty⟩

/-- The schema with a variable declared, in place of an earlier declaration of that name. -/
def declare (s : Schema) (name : String) (shape : Shape) : Schema := ⟨s.shapes.insert name shape⟩

/-- The shape of a declared variable. -/
def shapeOf? (s : Schema) (name : String) : Option Shape := s.shapes.find? name

/-- The number of declared variables. -/
def size (s : Schema) : Nat := s.shapes.size

/-- Whether no variable is declared. -/
def isEmpty (s : Schema) : Bool := s.shapes.isEmpty

/-- The schema that declares what a record holds. -/
def infer (r : Record) : Schema := ⟨r.values.map Value.shape⟩

/-- The first declared name, in the order of names, that no expression can mention. -/
def invalidName? (s : Schema) : Option String :=
  (s.shapes.toList.map (·.1)).find? fun name => !Text.isIdentifier name

/-- Succeeds if every declared name is an identifier. -/
def validate (s : Schema) : Except Error Unit :=
  match s.invalidName? with
  | some name => .error (.variableName name)
  | none => .ok ()

end Schema

end Cutflow
