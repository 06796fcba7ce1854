/-
What the command does, as a function of its arguments, its input and the files it finds. The only
thing that is left open is how long the matching takes: the output has a place for it.
-/
import Munch.CommandLine.Arguments
import Munch.CommandLine.Files
import Munch.Machine.Dot
import Munch.Text.Lines
import Munch.Trace

namespace Munch.CommandLine

open Text

/-- What a run leaves behind. -/
structure Outcome where
  exit : Nat
  stdout : List Part
  /-- The diagnostics, absent if all that there is to say is left to the caller to word. -/
  stderr : Option String
  files : Files

/-- Why a run breaks off. -/
inductive Crash where
  /-- The value of an option is needed that was lost. -/
  | noValue
  | path (fault : PathFault)
  /-- An error that is not to be reported but shows in full. -/
  | failed (e : Error)

def Crash.message : Crash → String
  | .noValue => "an option has no value"
  | .path .missing => "no such directory"
  | .path .notDirectory => "not a directory"
  | .path .isDirectory => "is a directory"
  | .path .zero => "not a path"
  | .path .tooLong => "path too long"
  | .failed e => e.message

/-- The value of an option that is needed. -/
def needed {α : Type} : Option α → Except Crash α
  | some value => .ok value
  | none => .error .noValue

/-- What came of a path that has to lead to a file. -/
def reached {α : Type} : Except PathFault α → Except Crash α
  | .ok a => .ok a
  | .error fault => .error (.path fault)

/-- What comes of a command line that is not run. -/
def Stop.outcome (files : Files) : Stop → Outcome
  | .help => ⟨0, [], none, files⟩
  | .refused => ⟨2, [], none, files⟩

/-- A text written over the start of another, byte by byte. -/
def overlay (new old : String) : String :=
  let bytes := utf8 new
  decode (bytes ++ (utf8 old).drop bytes.length)

/-- The output in a file that may hold something already, which is written over from the start. -/
def overwrite (parts : List Part) : List Part → List Part
  | [] => parts
  | old => if parts.isEmpty then old else [.text (overlay (render "" parts) (render "" old))]

/-- Writes the output to where it belongs. A file was emptied when the run began, but the graph may
have been written to it since. -/
def deliver (output : String) (parts : List Part) (files : Files) :
    Except Crash (List Part × Files) := do
  if output = "-" then return (parts, files)
  else
    let old := (← reached (files.read? output)).getD []
    return ([], ← reached (files.write output (overwrite parts old)))

/-- One line of output for a line of input. -/
def lineText (found : Option Match) : String :=
  match found with
  | none => "FAIL\n"
  | some m => s!"OK {m.index} {m.text}\n"

/-- Matches the lines of a text, each from its start on. -/
def matchLines (s : PatternSet) (text : String) : Except Error (List String) :=
  (lines text).mapM fun line => return lineText (← s.find (utf8 line) 0)

/-- What the command writes about the set itself, if it is asked to, and how that is reported. -/
def describe (a : Arguments) (s : PatternSet) : List String × List Entry :=
  let table := if a.table then [s.machine.table.text] else []
  match a.emit, s.source with
  | true, .ok source =>
    (table ++ [source], if a.codegen then [] else Trace.emission s.machine s.options.functionName)
  | _, _ => (table, [])

/-- Writes the graph of the machine if it is asked for, and how that is reported. -/
def writeGraph (a : Arguments) (m : Machine) (files : Files) :
    Except Crash (Files × List Entry) := do
  match a.dot with
  | none => return (files, [])
  | some path =>
    let path ← needed path
    return (← reached (files.write path [.text m.dot]), [⟨"re_set", "wrote " ++ plainPath path⟩])

/-- The text to match the lines of, if it is there. -/
def input (a : Arguments) (stdin : String) (files : Files) :
    Except Crash (String × Option String) := do
  let file ← needed a.file
  if file = "-" then return (file, some stdin)
  else return (file, (← reached (files.read? file)).map (render ""))

/-- The command with arguments that are in order and a set of the patterns. -/
def runSet (a : Arguments) (s : PatternSet) (log : List Entry) (stdin : String) (files : Files) :
    Except Crash Outcome := do
  let stderr := fun (entries : List Entry) =>
    if a.verbose then String.join ((log ++ entries).map Entry.line) else ""
  let output ← needed a.output
  let files ← if output = "-" then pure files else reached (files.write output [])
  let (files, written) ← writeGraph a s.machine files
  if a.describes then
    let (texts, emitted) := describe a s
    let (stdout, files) ← deliver output (texts.map .text) files
    return ⟨0, stdout, some (stderr (written ++ emitted)), files⟩
  else
    match ← input a stdin files with
    | (file, none) => return ⟨1, [], some (stderr [] ++ "File not found: " ++ file ++ "\n"), files⟩
    | (_, some text) =>
      let lines ← (matchLines s text).mapError .failed
      let parts := if a.time then [.seconds, .text "\n"] else lines.map Part.text
      let (stdout, files) ← deliver output parts files
      return ⟨0, stdout, some (stderr []), files⟩

/-- Whether an error is what the patterns or the options are to blame for. -/
def isReported : Error → Bool
  | .rejected _ | .numeral _ | .negativeLimit _ | .notIdentifier _ | .noAcceptingStep _
  | .startOutside _ _ => true
  | _ => false

/-- The command with arguments that are in order, and with room for so many levels of branches in the
emitted function, or for all. -/
def runArguments (a : Arguments) (stdin : String) (files : Files) (room : Option Nat) :
    Except Crash Outcome := do
  let options := a.options (← needed a.maxSteps)
  let log := if a.verbose then Trace.ofPatterns a.patterns options else []
  match PatternSet.compile a.patterns options room with
  | .error e =>
    if isReported e then
      let stderr := String.join (log.map Entry.line) ++ "error: " ++ e.message ++ "\n"
      return ⟨1, [], some stderr, files⟩
    else throw (.failed e)
  | .ok s => runSet a s log stdin files

/-- The command, with its arguments read by the rules of a release. -/
def run (release : Release) (argv : List String) (stdin : String) (files : Files)
    (room : Option Nat) : Except Crash Outcome :=
  match Arguments.parse release argv with
  | .error stop => .ok (stop.outcome files)
  | .ok a => runArguments a stdin files room

end Munch.CommandLine
