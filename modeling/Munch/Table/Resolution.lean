/-
Resolving a raw table into a deterministic one. If two cases of a step share bytes and go on at
different steps, they go on together at a merged step that has the cases of both. A merged step
stands for a set of raw steps, its members, and each set is merged once. If a case that goes on shares
bytes with one that accepts, it remembers the accepted pattern as a condition.
-/
import Munch.Table.Cases
import Munch.Table.Check
import Munch.Table.Raw

namespace Munch

/-- A table on its way to being resolved. -/
structure Resolution where
  /-- The raw steps and the merged ones. -/
  steps : IdMap (List Case)
  ends : IdMap PatternIndex
  acceptors : IdMap StepId
  /-- The id of the next merged step. -/
  nextStep : StepId
  /-- How many merged steps there may be, without a limit if absent. -/
  maxSteps : Option Int
  /-- The merged step of each set of members, the oldest first. Members are in ascending order. -/
  merged : List (List StepId × StepId)
  /-- The members of each merged step. -/
  memberSets : IdMap (List StepId)
  /-- The steps resolved so far. -/
  resolved : IdMap (List Case)

/-- The start of a resolution: nothing is merged yet. -/
def Resolution.ofRaw (raw : RawTable) (nextStep : StepId) (maxSteps : Option Int) : Resolution :=
  ⟨raw.table.steps, raw.table.ends, raw.acceptors, nextStep, maxSteps, [], .empty, .empty⟩

/-- The raw steps that a step stands for: its members, or the step itself. -/
def Resolution.members (r : Resolution) (step : StepId) : List StepId :=
  (r.memberSets.get? step).getD [step]

abbrev ResolutionM := EStateM Error Resolution

namespace ResolutionM

/-- The cases of a step, as they are so far. -/
def casesOf (step : StepId) : ResolutionM (List Case) := do
  match (← get).steps.get? step with
  | some cases => return cases
  | none => throw (.noStep step)

/-- A step that accepts the pattern. -/
def acceptorOf (index : PatternIndex) : ResolutionM StepId := do
  let r ← get
  match r.acceptors.get? index with
  | some step => return step
  | none =>
    match ((r.ends.entries.filter (·.2 == index)).map (·.1)).min? with
    | some step => return step
    | none => throw (.noAcceptingStep index)

/-- The cases of the steps, in turn. -/
def casesOfAll : List StepId → ResolutionM (List Case)
  | [] => return []
  | step :: rest => do
    let cases ← casesOf step
    return cases ++ (← casesOfAll rest)

/-- A new merged step for the members. It has all their cases and accepts the lowest pattern that
one of them does. -/
def register (members : List StepId) : ResolutionM StepId := do
  let step := (← get).nextStep
  modify fun r => { r with nextStep := step + 1 }
  modify fun r => { r with merged := r.merged ++ [(members, step)] }
  modify fun r => { r with memberSets := r.memberSets.insert step members }
  let cases ← casesOfAll members
  modify fun r =>
    let ends :=
      match (members.filterMap r.ends.get?).min? with
      | some index => r.ends.insert step index
      | none => r.ends
    { r with steps := r.steps.insert step cases, ends := ends }
  return step

/-- The step that stands for all that either of the two stands for. -/
def merge (target1 target2 : StepId) : ResolutionM StepId := do
  let r ← get
  let members := sortDistinct (r.members target1 ++ r.members target2)
  if members.length = 1 then return target1
  else match r.merged.find? (·.1 == members) with
    | some (_, step) => return step
    | none =>
      match r.maxSteps with
      | some limit =>
        if limit ≤ r.merged.length then throw (.conflict target1 (.unconverged limit))
        else register members
      | none => register members

/-- One transition for two that are taken on the same bytes. -/
def combine (range : Interval) : Transition → Transition → ResolutionM Transition
  | .go target1 conditions1, .go target2 conditions2 => do
    let target ← if target1 = target2 then pure target1 else merge target1 target2
    return .go target (joinConditions conditions1 conditions2)
  | .go target conditions, .accept index => do
    return .go target (joinConditions conditions [⟨← acceptorOf index, range⟩])
  | .accept index, .go target conditions => do
    return .go target (joinConditions conditions [⟨← acceptorOf index, range⟩])
  | .accept index1, .accept index2 => return .accept (min index1 index2)

/-- One transition for all of a list that are taken on the same bytes. -/
def combineAll (range : Interval) (t : Transition) : List Transition → ResolutionM Transition
  | [] => return t
  | u :: rest => do combineAll range (← combine range t u) rest

/-- One case for all cases on the same bytes, for each of the intervals. -/
def combineCases (cases : List Case) : List Interval → ResolutionM (List Case)
  | [] => return []
  | range :: rest => do
    match (cases.filter (·.range == range)).map (·.transition) with
    | [] => combineCases cases rest
    | t :: ts =>
      let transition ← combineAll range t ts
      return ⟨range, transition⟩ :: (← combineCases cases rest)

/-- The cases of a step without any two that share a byte. -/
def resolveStep (step : StepId) : ResolutionM (List Case) := do
  let cases := cutCases (← casesOf step)
  return tidyCases (← combineCases cases (cases.map (·.range)).eraseDups)

/-- Resolves the steps of a queue and all that they name. -/
def explore : Nat → List StepId → List StepId → ResolutionM Unit
  | 0, _, _ => return ()
  | _, _, [] => return ()
  | fuel + 1, seen, step :: queue => do
    let cases ← resolveStep step
    modify fun r => { r with resolved := r.resolved.insert step cases }
    let named := cases.flatMap (·.transition.steps)
    let fresh := named.eraseDups.filter (!seen.contains ·)
    explore fuel (seen ++ fresh) (queue ++ fresh)

/-- All steps that the tables name. -/
def named (r : Resolution) : List StepId :=
  r.steps.keys ++ (r.steps.entries.flatMap fun e => e.2.flatMap (·.transition.steps)) ++
    r.ends.keys ++ r.acceptors.entries.map (·.2)

/-- How many steps there can be: those that are named, and one for each set of them. -/
def stepBound (r : Resolution) : Nat :=
  let count := (named r).eraseDups.length
  count + Nat.pow 2 count

/-- Resolves a step and all that it leads to. -/
def resolveFrom (initial : StepId) : ResolutionM Unit := do
  explore (stepBound (← get) + 1) [initial] [initial]

/-- The resolved steps, and of what is accepted on arrival the part that concerns them. -/
def resolvedTable (r : Resolution) : Table :=
  ⟨r.resolved, r.ends.filterKeys r.resolved.contains⟩

/-- The table of a step and all that it leads to, which is checked in the end. -/
def resolve (initial : StepId) : ResolutionM Table := do
  resolveFrom initial
  let table := resolvedTable (← get)
  match table.check with
  | .ok () => return table
  | .error e => throw e

end ResolutionM

/-- The deterministic table of a raw one. -/
def RawTable.resolve (raw : RawTable) (initial nextStep : StepId) (maxSteps : Option Int) :
    Except Error Table :=
  match EStateM.run (ResolutionM.resolve initial) (Resolution.ofRaw raw nextStep maxSteps) with
  | .ok table _ => .ok table
  | .error e _ => .error e

end Munch
