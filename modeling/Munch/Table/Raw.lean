/-
From a program to its raw step table. A step is named after the instruction it starts at, and its
cases are those of all byte instructions that can be reached from there without reading anything:
a split is no step of its own. Patterns are finished in two ways. If a byte leads straight to the
end of a pattern, its case accepts; if the end can be reached from a step, the step accepts on
arrival. Cases may overlap.
-/
import Munch.Program.Basic
import Munch.Table.Basic

namespace Munch

/-- The table so far. -/
structure Draft where
  steps : IdMap (List Case)
  ends : IdMap PatternIndex
  /-- For each pattern, the first of its ends that was found. -/
  acceptors : IdMap StepId

/-- Nothing worked out yet. -/
def Draft.empty : Draft := ⟨.empty, .empty, .empty⟩

abbrev DraftM := EStateM Error Draft

namespace DraftM

variable {α : Type}

/-- A request that may fail but changes nothing. -/
def ofExcept : Except Error α → DraftM α
  | .ok a => return a
  | .error e => throw e

/-- Lets a step accept a pattern on arrival; of several the lowest counts. -/
def acceptAt (step : StepId) (index : PatternIndex) : DraftM Unit := do
  let d ← get
  match d.ends.get? step with
  | some current =>
    if index < current then set { d with ends := d.ends.insert step index }
  | none => set { d with ends := d.ends.insert step index }

/-- Adds the end of a pattern, which is a step without cases. -/
def addAcceptor (step : StepId) (index : PatternIndex) : DraftM Unit := do
  acceptAt step index
  modify fun d => { d with
    steps := d.steps.insertNew step []
    acceptors := d.acceptors.insertNew index step }

/-- Visits what the positions of a stack lead to, each position once. A visit returns the positions
to go to next, which come before all others, and what it found. -/
def walk (visit : Nat → DraftM (List Nat × List α)) :
    Nat → List Nat → List Nat → DraftM (List α)
  | 0, _, _ => return []
  | _, _, [] => return []
  | fuel + 1, seen, position :: stack => do
    if seen.contains position then walk visit fuel seen stack
    else
      let (next, found) ← visit position
      return found ++ (← walk visit fuel (position :: seen) (next ++ stack))

/-- Visits what a position leads to. Each instruction is visited once and adds at most two positions
to the stack. -/
def walkFrom (p : Program) (visit : Nat → DraftM (List Nat × List α)) (position : Nat) :
    DraftM (List α) :=
  walk visit (2 * p.insts.size + 2) [] [position]

/-- What a byte leads to that goes on at the position. -/
def transitionTo (p : Program) (next : Goto) : DraftM Transition := do
  let position ← ofExcept (p.follow next)
  match ← ofExcept (p.get position) with
  | .accept index =>
    addAcceptor position index
    return .accept index
  | _ => return .go position []

/-- The cases of a byte instruction. -/
def byteCases (p : Program) (ranges : List Interval) (next : Goto) : DraftM (List Case) := do
  let transition ← transitionTo p next
  return ranges.map (⟨·, transition⟩)

/-- The construct at the position cannot be expressed by a table. -/
def unsupported (p : Program) (position : Nat) (construct : Construct) : Error :=
  let (pattern, index) := p.origin position
  .rejected ((Rejection.of (.unsupported construct (some position))).blame pattern
    (index.map Int.ofNat))

/-- The cases of one instruction, and the places that a split leads to. -/
def instCases (p : Program) (position : Nat) : DraftM (List Nat × List Case) := do
  match ← ofExcept (p.get position) with
  | .split first second =>
    let second ← ofExcept (p.follow second)
    let first ← ofExcept (p.follow first)
    return ([first, second], [])
  | .accept index =>
    addAcceptor position index
    return ([], [])
  | .char byte next => return ([], ← byteCases p [.single byte] next)
  | .span range next => return ([], ← byteCases p [range] next)
  | .oneOf ranges next => return ([], ← byteCases p ranges next)
  | .save slot _ => throw (unsupported p position (.capture slot))
  | .look kind _ => throw (unsupported p position (.assertion kind))
  | .nop _ => throw (unsupported p position .idle)

/-- The cases of all byte instructions that the position leads to without reading, in the order in
which splits prefer them. -/
def collectCases (p : Program) (position : Nat) : DraftM (List Case) :=
  walkFrom p (instCases p) position

/-- Lets the step accept what a goto of one of its splits finishes. -/
def arrive (p : Program) (step position : Nat) : DraftM Unit := do
  match ← ofExcept (p.get position) with
  | .accept index => acceptAt step index
  | _ => return ()

/-- The places that a split leads to, after the step has accepted what is finished there. -/
def splitEnds (p : Program) (step position : Nat) : DraftM (List Nat × List Empty) := do
  match ← ofExcept (p.get position) with
  | .split first second =>
    let first ← ofExcept (p.follow first)
    let second ← ofExcept (p.follow second)
    arrive p step first
    arrive p step second
    return ([second, first], [])
  | _ => return ([], [])

/-- Lets a step accept what can be finished from it through splits alone. -/
def acceptOnArrival (p : Program) (step : Nat) : DraftM Unit := do
  let _ ← walkFrom p (splitEnds p step) step

/-- The cases of a step, worked out once. -/
def casesAt (p : Program) (position : Nat) : DraftM (List Case) := do
  match (← get).steps.get? position with
  | some cases => return cases
  | none =>
    acceptOnArrival p position
    let cases ← collectCases p position
    modify fun d => { d with steps := d.steps.insert position cases }
    return cases

/-- The steps that cases go on to. -/
def targets (cases : List Case) : List Nat :=
  cases.filterMap fun c =>
    match c.transition with
    | .go target _ => some target.toNat
    | .accept _ => none

/-- Works out the steps of a queue and all that they lead to. -/
def explore (p : Program) : Nat → List Nat → DraftM Unit
  | 0, _ => return ()
  | _, [] => return ()
  | fuel + 1, position :: queue => do
    let cases ← casesAt p position
    let steps := (← get).steps
    let fresh := (targets cases).filter fun (t : Nat) => !steps.contains t && !queue.contains t
    explore p fuel (queue ++ fresh.eraseDups)

/-- Forgets what was built before and builds the table of a program, from its entry on. Returns the
initial step, which an empty program has none of. Each position is queued once. -/
def build (p : Program) : DraftM (Option Nat) := do
  set Draft.empty
  if p.insts.isEmpty then return none
  let initial ← ofExcept (p.skip p.entry)
  explore p p.insts.size [initial]
  return some initial

end DraftM

/-- A raw table: its cases may overlap. -/
structure RawTable where
  table : Table
  /-- For each pattern a step that accepts it. -/
  acceptors : IdMap StepId
  /-- The step to start in, absent if there is nothing to match. -/
  initial : Option StepId

/-- The raw table of a program. -/
def RawTable.ofProgram (p : Program) : Except Error RawTable :=
  match EStateM.run (DraftM.build p) Draft.empty with
  | .ok initial d => .ok ⟨⟨d.steps, d.ends⟩, d.acceptors, initial.map Int.ofNat⟩
  | .error e _ => .error e

end Munch
