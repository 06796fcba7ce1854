/-
Running a table whose cases overlap: all cases that hold the next byte are taken at once, and the
steps they lead to are followed side by side.
-/
import Munch.Machine.Basic

namespace Munch.Table

/-- What the steps do on a byte. -/
def taken (t : Table) (active : List StepId) (b : UInt8) : List Transition :=
  active.flatMap fun step =>
    (((t.steps.get? step).getD []).filter (·.range.contains b.toNat)).map (·.transition)

/-- The steps that transitions go on at. -/
def following (ts : List Transition) : List StepId :=
  ts.filterMap fun
    | .go target _ => some target
    | .accept _ => none

/-- The patterns that transitions accept. -/
def accepted (ts : List Transition) : List PatternIndex :=
  ts.filterMap fun
    | .go _ _ => none
    | .accept index => some index

/-- The steps that are active after the bytes. -/
def spread (t : Table) (active : List StepId) : List UInt8 → List StepId
  | [] => active
  | b :: rest => t.spread (following (t.taken active b)) rest

/-- Runs on from active steps at an offset; `last` is the match found before. After each byte the
lowest pattern counts that was accepted with it, until no step is active. -/
def runThreads (t : Table) (active : List StepId) (last : Option Hit) (offset : Nat) :
    List UInt8 → Option Hit
  | [] => last
  | b :: rest =>
    let ts := t.taken active b
    let found := (accepted ts ++ (following ts).filterMap t.ends.get?).min?
    let last := (found.map (⟨·, offset + 1⟩)).or last
    if (following ts).isEmpty then last
    else t.runThreads (following ts) last (offset + 1) rest

/-- The longest match of the bytes, from a step at an offset on. -/
def findThreads (t : Table) (initial : StepId) (offset : Nat) (rest : List UInt8) : Option Hit :=
  t.runThreads [initial] ((t.ends.get? initial).map (⟨·, offset⟩)) offset rest

end Munch.Table
