/-
Machines as matching functions. A function keeps the current step and the last match in variables
and reads the data byte by byte; all steps and cases are compiled into branches. A routine is the
source of such a function.
-/
import Munch.Emit.Block
import Munch.Text.Identifier
import Munch.Text.Quoted

namespace Munch

open Text

/-- What is done when a case is taken. -/
def Table.transitionBlock (t : Table) : Transition → Block
  | .accept index => .finish index
  | .go target conditions =>
    match t.finished target conditions with
    | some index => .setLast index (.setStep target .next)
    | none => .setStep target .next

/-- The first case that holds the byte is taken; without one the loop is left. -/
def Table.casesBlock (t : Table) (cases : List Case) : Block :=
  cases.foldr (fun c rest => .branch (.byte c.range) (t.transitionBlock c.transition) rest) .leave

/-- What is done in each of the steps; in any other the loop is left. -/
def Table.stepsBlock (t : Table) (steps : List StepId) : Block :=
  steps.foldr
    (fun step rest => .branch (.step step) (t.casesBlock ((t.steps.get? step).getD [])) rest)
    .leave

/-- What is done with each byte. -/
def Table.body (t : Table) : Block :=
  t.stepsBlock (sort (· ≤ ·) t.steps.keys)

/-- A matching function. -/
structure Matcher where
  name : String
  initial : StepId
  /-- The pattern that is matched before any byte is read. -/
  accepted : Option PatternIndex
  /-- What is done with each byte. -/
  body : Block

namespace Matcher

/-- The lines of the function. -/
def lines (f : Matcher) : List Line :=
  [⟨0, .define f.name⟩, ⟨1, .setStep f.initial⟩, ⟨1, .startLast f.accepted⟩, ⟨1, .setIndex⟩,
    ⟨1, .setLength⟩, ⟨1, .loop⟩, ⟨2, .setByte⟩, ⟨2, .advance⟩] ++
  f.body.lines true 2 ++
  [⟨1, .giveLast⟩]

/-- Goes through the bytes that are left at an offset. -/
def loop (body : Block) (state : LoopState) (offset : Nat) : List UInt8 → Option Hit
  | [] => state.last
  | b :: rest =>
    match body.run b (offset + 1) state with
    | .next state => loop body state (offset + 1) rest
    | .done result => result

/-- The longest match of the bytes that are left at an offset. -/
def run (f : Matcher) (offset : Nat) (rest : List UInt8) : Except Error (Option Hit) :=
  if f.name = Routine.lengthName then .error (.endlessCall f.name)
  else .ok (loop f.body ⟨f.initial, f.accepted.map (⟨·, offset⟩)⟩ offset rest)

/-- The longest match that starts at the offset. -/
def find (f : Matcher) (data : List UInt8) (start : Nat) : Except Error (Option Hit) :=
  f.run start (data.drop start)

end Matcher

/-- The source of a matching function. -/
structure Routine where
  patterns : List String
  /-- The number of steps. -/
  steps : Nat
  /-- The width of a step id. -/
  size : Nat
  matcher : Matcher

/-- The function of a machine under a name. -/
def Machine.matcher (m : Machine) (name : String) : Matcher :=
  ⟨name, m.initial, m.table.ends.get? m.initial, m.table.body⟩

/-- The source of the function of a machine. -/
def Machine.routine (m : Machine) (name : String) : Except Error Routine := do
  if !isIdentifier name then throw (.badFunctionName name)
  let size ← m.stepSize
  return ⟨m.patterns, m.table.steps.size, size, m.matcher name⟩

namespace Routine

/-- The name of the function. -/
def name (r : Routine) : String := r.matcher.name

/-- The lines of the source, with the patterns and the size of the table in comments. -/
def lines (r : Routine) : List String :=
  ["# patterns: " ++ quotedList r.patterns,
    "# " ++ toString r.steps ++ " steps, step size " ++ toString r.size] ++
  r.matcher.lines.map Line.text

def text (r : Routine) : String :=
  String.join (r.lines.map (· ++ "\n"))

end Routine

end Munch
