/-
Whether a table is deterministic and complete: no two cases of a step share a byte, every step that
is named is there, and every condition names an accepting step and holds on all bytes of its case.
-/
import Munch.Error
import Munch.Table.Basic

namespace Munch

/-- A conflict found at a step. -/
def Error.conflict (step : StepId) (c : Conflict) : Error :=
  .of (.ambiguous c (some step))

namespace Table

/-- No case of the list shares a byte with this one. -/
def checkOverlap (step : StepId) (c : Case) (later : List Case) : Except Error Unit :=
  match later.find? fun d => c.range.overlaps d.range with
  | some d => throw (.conflict step (.overlap step c.range d.range))
  | none => return ()

def checkCondition (t : Table) (step : StepId) (range : Interval) (c : Condition) :
    Except Error Unit :=
  if !(t.ends.contains c.step && t.steps.contains c.step) then
    throw (.conflict step (.idleCondition step c.step))
  else if c.range ≠ range then
    throw (.conflict step (.strayCondition step c.range range))
  else return ()

def checkTransition (t : Table) (step : StepId) (c : Case) : Except Error Unit := do
  match c.transition with
  | .accept _ => return ()
  | .go target conditions =>
    if t.steps.contains target then conditions.forM (t.checkCondition step c.range)
    else throw (.conflict step (.missingTarget step target))

def checkCases (t : Table) (step : StepId) : List Case → Except Error Unit
  | [] => return ()
  | c :: later => do
    checkOverlap step c later
    t.checkTransition step c
    t.checkCases step later

def checkEnd (t : Table) (step : StepId) : Except Error Unit :=
  if t.steps.contains step then return ()
  else throw (.conflict step (.missingAccepting step))

/-- Reports the first conflict: steps in the order of the table, then what is accepted. -/
def check (t : Table) : Except Error Unit := do
  t.steps.entries.forM fun (step, cases) => t.checkCases step cases
  t.ends.keys.forM t.checkEnd

end Table

end Munch
