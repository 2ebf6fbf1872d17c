import Cutflow.Batch
import Cutflow.Compiler
import Cutflow.Record.Json
import Cutflow.Schema.Json

/-!
# The command line

Three commands on event files: `eval` prints the value of an expression for every event, `select`
counts the events that pass a list of cuts, and `name` prints the name and the shape of an
expression.

## The model

A run is a function of the command and of the files it may look at. It either fails, with a
message on standard error and nothing on standard output, or succeeds; a value is written only
once all values are known.
-/

namespace Cutflow.CommandLine

/-- What is found at a path. -/
inductive File where
  /-- No file that could be read. -/
  | missing
  /-- A file with these bytes. -/
  | content (bytes : ByteArray)

/-- Why a file cannot be read as text. -/
inductive FileFault where
  /-- There is none. -/
  | notFound
  /-- Its bytes are not UTF-8. -/
  | notText
  deriving DecidableEq

/-- Where the events come from and how they are evaluated. -/
structure Input where
  events : String
  schema : Option String := none
  threading : Threading := {}

/-- What the program is asked to do. -/
inductive Command where
  /-- Print the value of an expression for every event. -/
  | eval (expr : String) (input : Input)
  /-- Count the events that pass all cuts. -/
  | select (cuts : List String) (input : Input)
  /-- Print the name and the shape of an expression. -/
  | name (expr : String) (schema events : Option String)

/-- Why a run fails. -/
inductive Failure where
  /-- The event file cannot be read. -/
  | readEvents (path : String) (fault : FileFault)
  /-- The event file holds something else than records. -/
  | parseEvents (path : String) (cause : Error)
  /-- The schema file cannot be read. -/
  | readSchema (path : String) (fault : FileFault)
  /-- There is no schema file, and no event that could take its place. -/
  | noSchema
  /-- A cut cannot be compiled. -/
  | compileCut (text : String) (cause : Error)
  /-- Anything else. -/
  | error (cause : Error)

/-- What a run leaves behind. -/
structure Result where
  exit : Nat
  stdout : String
  stderr : String
  deriving DecidableEq

/-! ### Messages -/

/-- The fault in words. -/
def FileFault.message : FileFault → String
  | .notFound => "No such file or directory (os error 2)"
  | .notText => "stream did not contain valid UTF-8"

/-- What went wrong, and what caused it. -/
def Failure.chain : Failure → String × Option String
  | .readEvents path fault => ("read events " ++ Error.quoted path, some fault.message)
  | .parseEvents path e => ("parse events " ++ Error.quoted path, some e.message)
  | .readSchema path fault => ((Error.schemaFile path).message, some fault.message)
  | .noSchema => ("no events to infer a schema from; pass --schema", none)
  | .compileCut text e => ("compile cut " ++ Error.quoted text, some e.message)
  | .error e => (e.message, none)

/-- A text with every line set in by four spaces. -/
def indented (s : String) : String :=
  "    " ++ String.ofList (s.toList.flatMap fun c => if c = '\n' then "\n    ".toList else [c])

/-- The report of a failure. -/
def Failure.report (f : Failure) : String :=
  match f.chain with
  | (headline, none) => "Error: " ++ headline ++ "\n"
  | (headline, some cause) => "Error: " ++ headline ++ "\n\nCaused by:\n" ++ indented cause ++ "\n"

/-- The result of a run that failed. -/
def Failure.result (f : Failure) : Result := ⟨1, "", f.report⟩

/-! ### Running a command -/

/-- The text of a file. -/
def readText (files : String → File) (path : String) : Except FileFault String :=
  match files path with
  | .missing => .error .notFound
  | .content bytes =>
    match String.fromUTF8? bytes with
    | some text => .ok text
    | none => .error .notText

/-- The records of an event file. -/
def readEvents (files : String → File) (path : String) : Except Failure (List Record) := do
  let text ← (readText files path).mapError (.readEvents path)
  (Record.parseLines text).mapError (.parseEvents path)

/-- The schema of a schema file; without one, the schema of the first event. -/
def loadSchema (files : String → File) (path : Option String) (events : List Record) :
    Except Failure Schema :=
  match path, events with
  | some path, _ => do
    let text ← (readText files path).mapError (.readSchema path)
    (Schema.parse text).mapError .error
  | none, [] => .error .noSchema
  | none, first :: _ => .ok (.infer first)

/-- Texts on lines of their own. -/
def unlines (lines : List String) : String := String.join (lines.map (· ++ "\n"))

/-- The values of a function on the events, one JSON text for each. -/
def evalLines (pool : Pool) (threading : Threading) (f : Func) (events : List Record) :
    Except Error (List String) :=
  match f.shape with
  | .scalar => do
    return (← (Batch.evalScalar pool threading f events).result).map Json.layout.write
  | .vector => do
    return (← (Batch.evalVector pool threading f events).result).map fun xs =>
      Json.writeList (xs.map Json.layout.write)

/-- Runs a command: what it writes to standard output and to standard error. -/
def execute (pool : Pool) (files : String → File) : Command → Except Failure (String × String)
  | .eval expr input => do
    let events ← readEvents files input.events
    let schema ← loadSchema files input.schema events
    let f ← ((Compiler.ofSchema schema).compile expr).mapError .error
    let lines ← (evalLines pool input.threading f events).mapError .error
    return (unlines lines, "")
  | .select texts input => do
    let events ← readEvents files input.events
    let schema ← loadSchema files input.schema events
    let cuts ← texts.mapM fun text =>
      ((Compiler.ofSchema schema).compile text).mapError (.compileCut text)
    let n ← (Batch.countPassing pool input.threading cuts events).result.mapError .error
    return (toString n ++ "\n",
      toString n ++ " of " ++ toString events.length ++ " events passed\n")
  | .name expr schemaPath eventsPath => do
    let events ← match eventsPath with
      | some path => readEvents files path
      | none => .ok []
    let schema ← loadSchema files schemaPath events
    let f ← ((Compiler.ofSchema schema).compile expr).mapError .error
    return (f.name ++ "\t" ++ f.shape.label ++ "\n", "")

/-- The result of a command. -/
def run (pool : Pool) (files : String → File) (command : Command) : Result :=
  match execute pool files command with
  | .ok (stdout, stderr) => ⟨0, stdout, stderr⟩
  | .error failure => failure.result

end Cutflow.CommandLine
