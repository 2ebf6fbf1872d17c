import Cutflow.CommandLine.Arguments

/-!
# The program

Reads the files a command names, runs the command and writes its result.
-/

namespace Cutflow.CommandLine

/-- How the program is called. -/
def usage : String :=
  "usage: cutflow eval --expr=EXPR --in=EVENTS [--schema=SCHEMA] [--parallel] [--threads=N]\n"
    ++ "       cutflow select --cut=EXPR... --in=EVENTS [--schema=SCHEMA] [--parallel]"
    ++ " [--threads=N]\n"
    ++ "       cutflow name --expr=EXPR [--schema=SCHEMA] [--in=EVENTS]\n"

/-- The content of the file at a path, if it can be read. -/
def load (path : String) : IO File := do
  try
    return .content (← IO.FS.readBinFile path)
  catch _ =>
    return .missing

/-- Runs a command on the files of the system. -/
def runIO (command : Command) : IO Result := do
  let files ← command.paths.mapM fun path => return (path, ← load path)
  return run .inOrder (fun path => (files.lookup path).getD .missing) command

/-- Runs the command that the arguments spell. -/
def runWords (words : List String) : IO UInt32 := do
  match Command.ofWords? words with
  | none =>
    (← IO.getStderr).putStr usage
    return 2
  | some command =>
    let result ← runIO command
    (← IO.getStdout).putStr result.stdout
    (← IO.getStderr).putStr result.stderr
    return result.exit.toUInt32

end Cutflow.CommandLine

/-- The program. -/
def main (words : List String) : IO UInt32 := Cutflow.CommandLine.runWords words
