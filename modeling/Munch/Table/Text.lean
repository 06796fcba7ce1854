/-
Step tables as text: the steps in ascending order, each followed by its cases, one to a line.
-/
import Munch.Interval.Basic
import Munch.Table.Basic

namespace Munch

def Condition.text (c : Condition) : String :=
  s!"{c.step} if {c.range.text}"

def Transition.text : Transition → String
  | .go target [] => s!"step = {target}"
  | .go target conditions =>
    s!"step = {target} [" ++ ", ".intercalate (conditions.map Condition.text) ++ "]"
  | .accept index => s!"return {index}"

def Case.text (c : Case) : String :=
  s!"{c.range.text} => {c.transition.text}"

/-- A step with the pattern it accepts and its cases. -/
def Table.stepText (t : Table) (step : StepId) : String :=
  let accepted :=
    match t.ends.get? step with
    | some index => s!" (end {index})"
    | none => ""
  s!"{step}:" ++ accepted ++ "\n" ++
    String.join (((t.steps.get? step).getD []).map fun c => "    " ++ c.text ++ "\n")

def Table.text (t : Table) : String :=
  String.join ((sort (· ≤ ·) t.steps.keys).map t.stepText)

end Munch
