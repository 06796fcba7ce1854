/-
Renumbering the steps of a table without gaps, in their old order, and the width of step ids.
-/
import Munch.Table.Check

namespace Munch

/-- The widths that a step id may have, in bits. -/
def stepSizes : List Nat := [8, 16, 32, 64]

/-- The least width that holds all step ids up to the last. -/
def stepSize (last : StepId) : Except Error Nat :=
  match stepSizes.find? fun bits => last < Int.pow 2 bits with
  | some bits => .ok bits
  | none => .error (.wideStep last)

namespace Table

/-- All steps of the table, in ascending order. -/
def ids (t : Table) : List StepId :=
  sortDistinct (t.steps.keys ++ t.ends.keys)

/-- The place of a step in a list of ids. -/
def rank (ids : List StepId) (step : StepId) : Except Error StepId :=
  match ids.idxOf? step with
  | some n => .ok n
  | none => .error (.noStep step)

def renumberCondition (ids : List StepId) (c : Condition) : Except Error Condition :=
  return { c with step := ← rank ids c.step }

def renumberTransition (ids : List StepId) : Transition → Except Error Transition
  | .go target conditions => do
    let target ← rank ids target
    return .go target (← conditions.mapM (renumberCondition ids))
  | .accept index => return .accept index

def renumberCase (ids : List StepId) (c : Case) : Except Error Case :=
  return { c with transition := ← renumberTransition ids c.transition }

/-- A step under its new number; one that is only accepted gets no cases. -/
def renumberStep (t : Table) (ids : List StepId) (step : StepId) :
    Except Error (StepId × List Case) := do
  let cases := (t.steps.get? step).getD []
  return (← rank ids step, ← cases.mapM (renumberCase ids))

def renumberEnd (ids : List StepId) (e : StepId × PatternIndex) :
    Except Error (StepId × PatternIndex) :=
  return (← rank ids e.1, e.2)

/-- The table with its steps numbered from 0 on, and the new number of the initial step. -/
def renumber (t : Table) (initial : Option StepId) : Except Error (Table × StepId) := do
  match initial with
  | none => throw (.of (.empty none))
  | some initial =>
    if t.steps.entries.isEmpty then throw (.of (.empty none))
    let steps ← t.ids.mapM (t.renumberStep t.ids)
    let ends ← t.ends.entries.mapM (renumberEnd t.ids)
    return (⟨.ofList steps, .ofList ends⟩, ← rank t.ids initial)

end Table

end Munch
