/-
Machines: a table, the step to start in and the patterns it stands for. A run takes the first case
that holds the next byte, remembers what was accepted last, and answers with the longest match.
-/
import Munch.Table.Renumbering

namespace Munch

/-- A match that ends at an offset. -/
structure Hit where
  index : PatternIndex
  stop : Nat
deriving DecidableEq

/-- The lowest pattern that is finished on the way to the target. -/
def Table.finished (t : Table) (target : StepId) (conditions : List Condition) :
    Option PatternIndex :=
  ((conditions.map (·.step) ++ [target]).filterMap t.ends.get?).min?

/-- Runs on from a step at an offset; `last` is the match found before. -/
def Table.run (t : Table) (step : StepId) (last : Option Hit) (offset : Nat) :
    List UInt8 → Except Error (Option Hit)
  | [] => .ok last
  | b :: rest =>
    match t.steps.get? step with
    | none => .error (.noStep step)
    | some cases =>
      match cases.find? (·.range.contains b.toNat) with
      | none => .ok last
      | some c =>
        match c.transition with
        | .accept index => .ok (some ⟨index, offset + 1⟩)
        | .go target conditions =>
          match t.finished target conditions with
          | some index => t.run target (some ⟨index, offset + 1⟩) (offset + 1) rest
          | none => t.run target last (offset + 1) rest

structure Machine where
  table : Table
  initial : StepId
  patterns : List String

namespace Machine

/-- The longest match of the bytes that are left at an offset. -/
def run (m : Machine) (offset : Nat) (rest : List UInt8) : Except Error (Option Hit) :=
  m.table.run m.initial ((m.table.ends.get? m.initial).map (⟨·, offset⟩)) offset rest

/-- The longest match that starts at the offset. -/
def find (m : Machine) (data : List UInt8) (start : Nat) : Except Error (Option Hit) :=
  m.run start (data.drop start)

def firstStep (m : Machine) : Except Error StepId :=
  match m.table.steps.keys.min? with
  | some step => .ok step
  | none => .error (.of (.empty none))

def lastStep (m : Machine) : Except Error StepId :=
  match m.table.steps.keys.max? with
  | some step => .ok step
  | none => .error (.of (.empty none))

/-- The width of a step id in bits. -/
def stepSize (m : Machine) : Except Error Nat := do
  Munch.stepSize (← m.lastStep)

end Machine

end Munch
