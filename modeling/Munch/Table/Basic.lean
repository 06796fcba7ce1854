/-
Step tables. A step has cases, each of which says for an interval of bytes either where to go on or
which pattern is finished. Beside the steps stand the patterns that are finished on arriving in one.
-/
import Munch.Interval.Basic
import Munch.Table.IdMap

namespace Munch

abbrev StepId := Int

abbrev PatternIndex := Int

/-- A step that would have accepted, had the run gone there with a byte of the interval. -/
structure Condition where
  step : StepId
  range : Interval
deriving DecidableEq

inductive Transition where
  /-- Goes on at the target; the conditions remember patterns that are finished on the way. -/
  | go (target : StepId) (conditions : List Condition)
  /-- Finishes the pattern, and the run. -/
  | accept (index : PatternIndex)
deriving DecidableEq

/-- What happens on a byte of the interval. -/
structure Case where
  range : Interval
  transition : Transition
deriving DecidableEq

structure Table where
  steps : IdMap (List Case)
  /-- The pattern that is finished on arriving in a step. -/
  ends : IdMap PatternIndex

/-- The steps that a transition names. -/
def Transition.steps : Transition → List StepId
  | .go target conditions => target :: conditions.map (·.step)
  | .accept _ => []

end Munch
