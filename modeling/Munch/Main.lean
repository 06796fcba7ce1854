/-
The command: matches every line of its input against a set of patterns.
-/
import Munch.CommandLine.Run

open Munch CommandLine

/-- The content of a file, if it is there. -/
def readFile? (path : String) : IO (Option String) := do
  try
    return some (← IO.FS.readFile path)
  catch _ =>
    return none

def isDirectory (path : String) : IO Bool := do
  try
    let _ ← IO.FS.realPath (path ++ "/.")
    return true
  catch _ =>
    return false

/-- The paths of the directories that a path leads through. -/
def directoriesOn (path : String) : IO (List String) :=
  let parts := pathParts path
  let onTheWay := (List.range (parts.length + 1)).map fun n =>
    joinPath (path.startsWith "/") (parts.take n)
  onTheWay.filterM isDirectory

/-- How the command is called. -/
def usage : String :=
  "usage: munch [-h] [-f FILE] [-o OUTPUT] [--emit] [--table] [--dot DOT] [--max-steps N] " ++
    "[--codegen] [-v] [-t] PATTERN..."

/-- Runs the command on the input and the files that the arguments name. -/
def main (argv : List String) : IO UInt32 := do
  let arguments ← match Arguments.parse .late argv with
    | .ok arguments => pure arguments
    | .error .help =>
      IO.println usage
      return 0
    | .error .refused =>
      IO.eprintln usage
      return 2
  let outputs := arguments.dot.join.toList ++ arguments.output.toList.filter (· != "-")
  let mut stdin := ""
  let mut contents := []
  if !arguments.describes then
    if arguments.file = some "-" then
      stdin := ← (← IO.getStdin).readToEnd
    for path in arguments.file.toList do
      if let some content ← readFile? path then
        contents := [(plainPath path, [Part.text content])]
  let directories ← (arguments.file.toList ++ outputs).mapM directoriesOn
  let start ← IO.monoNanosNow
  match runArguments arguments stdin ⟨contents, directories.flatten⟩ (some Matcher.hostRoom) with
  | .error crash =>
    IO.eprintln crash.message
    return 1
  | .ok outcome =>
    let stderr := outcome.stderr.getD ""
    let stop ← IO.monoNanosNow
    let seconds := toString ((stop - start).toFloat / 1000000000.0)
    IO.eprint stderr
    for path in outputs do
      if let .ok (some parts) := outcome.files.read? path then
        IO.FS.writeFile path (render seconds parts)
    IO.print (render seconds outcome.stdout)
    return outcome.exit.toUInt32
