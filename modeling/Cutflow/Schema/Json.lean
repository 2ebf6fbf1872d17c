import Cutflow.Json.Token
import Cutflow.Schema

/-!
# Schemas as JSON

A schema is an object that gives every variable the word for its shape.
-/

namespace Cutflow.Schema

/-- A schema as JSON, in compact form and in the order of names. -/
def toJson (s : Schema) : String :=
  Json.writeObject (s.shapes.toList.map fun (name, shape) => (name, Json.quote shape.label))

/-- The shape that a word stands for; `ts` are the tokens after the word. -/
def shapeOfWord (word : String) (ts : List Json.Token) : Except Json.Fault Shape :=
  match Shape.ofLabel? word with
  | some shape => .ok shape
  | none => .error (.unknownWord word ts.length)

/-- The shape at the front of a list of tokens, and how many tokens it takes. The word for the
shape may also stand as the only key of an object, with the value `null`. -/
def shape : List Json.Token → Except Json.Fault (Shape × Nat)
  | .string word :: ts => do
    return (← shapeOfWord word ts, 1)
  | .openBrace :: .string word :: ts => do
    let shape ← shapeOfWord word ts
    match ts with
    | .colon :: .null :: .closeBrace :: _ => return (shape, 5)
    | _ => .error .malformed
  | _ => .error .malformed

/-- The schema that a text spells; of two members with one name the later one counts. -/
def ofJson (text : List Char) : Except Json.Fault Schema := do
  return ⟨.ofList (← Json.object shape (Json.tokens text))⟩

/-- A fault of a JSON text as one of the schema it should spell, with its place in the text. -/
def faultIn (text : List Char) : Json.Fault → SchemaFault
  | .malformed => .malformed
  | .unknownWord word left =>
    let rest := Json.dropTokens ((Json.tokens text).length - left) text
    .unknownShape word (.after (text.take (text.length - rest.length)))

/-- The schema that a text spells, if its names are identifiers. -/
def parse (text : String) : Except Error Schema := do
  let s ← (ofJson text.toList).mapError fun fault => .schemaText (faultIn text.toList fault)
  s.validate
  return s

end Cutflow.Schema
