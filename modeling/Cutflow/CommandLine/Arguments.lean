import Cutflow.CommandLine

/-!
# Command-line arguments

Reads the words of a command line as a command. An option that takes a value is written
`--option=value` or `--option value`.
-/

namespace Cutflow.CommandLine

/-- The options of a command line, in the order they are given. -/
structure Options where
  expr : Option String := none
  cuts : List String := []
  events : Option String := none
  schema : Option String := none
  threading : Threading := {}

/-- The options with the value of one option set. -/
def Options.set (o : Options) (name value : String) : Option Options :=
  match name with
  | "--expr" => some { o with expr := some value }
  | "--cut" => some { o with cuts := o.cuts ++ [value] }
  | "--in" => some { o with events := some value }
  | "--schema" => some { o with schema := some value }
  | "--threads" => value.toNat?.map fun n =>
    { o with threading := { o.threading with threads := some n } }
  | _ => none

/-- The option and the value that a word joins by an equals sign. -/
def splitOption (word : String) : Option (String × String) :=
  match word.toList.dropWhile (· ≠ '=') with
  | [] => none
  | _ :: value => some (String.ofList (word.toList.takeWhile (· ≠ '=')), String.ofList value)

/-- Reads the words after the command. -/
def Options.ofWords (o : Options) : List String → Option Options
  | [] => some o
  | "--parallel" :: words =>
    Options.ofWords { o with threading := { o.threading with parallel := true } } words
  | word :: words =>
    match splitOption word with
    | some (name, value) => (o.set name value).bind fun o => o.ofWords words
    | none =>
      match words with
      | [] => none
      | value :: words => (o.set word value).bind fun o => o.ofWords words

/-- The command that a list of words spells. -/
def Command.ofWords? : List String → Option Command
  | "eval" :: words => do
    let o ← Options.ofWords {} words
    return .eval (← o.expr) ⟨← o.events, o.schema, o.threading⟩
  | "select" :: words => do
    let o ← Options.ofWords {} words
    if o.cuts.isEmpty then none else return .select o.cuts ⟨← o.events, o.schema, o.threading⟩
  | "name" :: words => do
    let o ← Options.ofWords {} words
    return .name (← o.expr) o.schema o.events
  | _ => none

/-- The paths of the files a command reads. -/
def Command.paths : Command → List String
  | .eval _ input | .select _ input => input.events :: input.schema.toList
  | .name _ schema events => events.toList ++ schema.toList

end Cutflow.CommandLine
