import Cutflow.Json.Token
import Cutflow.Record
import Cutflow.Text
import Cutflow.Error

/-!
# Records as JSON

A record is an object whose members are numbers and lists of numbers; an event file holds one
record on each line that is not blank.
-/

namespace Cutflow

/-- A quantity as JSON. -/
def Value.toJson : Value → String
  | .scalar x => Json.layout.write x
  | .vector xs => Json.writeList (xs.map Json.layout.write)

namespace Record

/-- A record as JSON, in compact form and in the order of names. -/
def toJson (r : Record) : String :=
  Json.writeObject (r.values.toList.map fun (name, value) => (name, value.toJson))

/-- The entries of a list after the first one, and how many tokens they and the closing bracket
take. -/
def entries : List Json.Token → Except Json.Fault (List Float × Nat)
  | .closeBracket :: _ => .ok ([], 1)
  | .comma :: .number x :: ts => (entries ts).map fun (xs, n) => (x :: xs, n + 2)
  | _ => .error .malformed

/-- The quantity at the front of a list of tokens, and how many tokens it takes. -/
def value : List Json.Token → Except Json.Fault (Value × Nat)
  | .number x :: _ => .ok (.scalar x, 1)
  | .openBracket :: .closeBracket :: _ => .ok (.vector [], 2)
  | .openBracket :: .number x :: ts =>
    (entries ts).map fun (xs, n) => (.vector (x :: xs), n + 2)
  | _ => .error .malformed

/-- The record that a text spells; of two members with one name the later one counts. -/
def ofJson (text : List Char) : Except Json.Fault Record := do
  return ⟨.ofList (← Json.object value (Json.tokens text))⟩

/-- The record that a text spells. -/
def parse (text : String) : Except Error Record :=
  (ofJson text.toList).mapError fun _ => .recordText

/-- The records of the lines that are not blank; `number` is the number of the first line. -/
def ofLines (number : Nat) : List (List Char) → Except Error (List Record)
  | [] => .ok []
  | line :: lines =>
    if Text.isBlankLine line then ofLines (number + 1) lines
    else
      match ofJson line with
      | .error _ => .error (.recordLine number)
      | .ok r => do
        return r :: (← ofLines (number + 1) lines)

/-- The records of an event file. -/
def parseLines (text : String) : Except Error (List Record) := ofLines 1 (Text.lines text.toList)

end Record

end Cutflow
