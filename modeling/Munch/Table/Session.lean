/-
Resolving step by step. A call resolves a table or a single step, folds two transitions or merges two
steps. The resolution that it leaves behind is there for the next call, also when it failed.
-/
import Munch.Table.Resolution

namespace Munch.Resolution

/-- What can be asked of a resolution. -/
inductive Call where
  | resolve (initial : StepId)
  | extend (step : StepId)
  | fold (range : Interval) (t u : Transition)
  | merge (target1 target2 : StepId)

inductive Answer where
  | table (t : Table)
  | cases (cs : List Case)
  | transition (t : Transition)
  | step (s : StepId)

/-- The steps that a call names. -/
def Call.steps : Call → List StepId
  | .resolve initial => [initial]
  | .extend step => [step]
  | .fold _ t u => t.steps ++ u.steps
  | .merge target1 target2 => [target1, target2]

def Call.answer : Call → ResolutionM Answer
  | .resolve initial => return .table (← ResolutionM.resolve initial)
  | .extend step => return .cases (← ResolutionM.resolveStep step)
  | .fold range t u => return .transition (← ResolutionM.combine range t u)
  | .merge target1 target2 => return .step (← ResolutionM.merge target1 target2)

/-- Answers a call, and leaves the resolution as it is then. -/
def answer (r : Resolution) (call : Call) : Except Error Answer × Resolution :=
  match EStateM.run call.answer r with
  | .ok a r' => (.ok a, r')
  | .error e r' => (.error e, r')

/-- The resolution after calls of any kind, whether or not they had an answer. -/
def after (r : Resolution) (calls : List Call) : Resolution :=
  calls.foldl (fun r call => (r.answer call).2) r

/-- What the calls leave of a resolution, one after the other, each of which names steps that are
there by then. -/
inductive Session : Resolution → List Call → Resolution → Prop where
  | nil {r : Resolution} : Session r [] r
  | cons {r r' : Resolution} {call : Call} {calls : List Call} :
    (∀ s ∈ call.steps, r.steps.get? s ≠ none) → Session (r.answer call).2 calls r' →
    Session r (call :: calls) r'

end Munch.Resolution
