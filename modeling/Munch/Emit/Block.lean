/-
The body of an emitted function: a block of assignments that ends by going on with the next byte, by
leaving the loop, by returning, or by a branch on the current step or byte. A block can be run, and
makes lines.
-/
import Munch.Emit.Line

namespace Munch

/-- Statements in a row. -/
inductive Block where
  /-- Goes on with the next byte. -/
  | next
  /-- Leaves the loop. -/
  | leave
  /-- Returns a match that ends behind the byte. -/
  | finish (index : PatternIndex)
  /-- Remembers a match that ends behind the byte. -/
  | setLast (index : PatternIndex) (rest : Block)
  | setStep (step : StepId) (rest : Block)
  | branch (test : Test) (yes no : Block)

/-- The variables of the loop. -/
structure LoopState where
  step : StepId
  last : Option Hit

/-- How a round of the loop ends. -/
inductive RoundEnd where
  | next (state : LoopState)
  | done (result : Option Hit)

def Test.holds (state : LoopState) (byte : UInt8) : Test → Bool
  | .step id => state.step == id
  | .byte range => range.contains byte.toNat

/-- Runs a block on a byte, behind which the offset is `index`. -/
def Block.run (byte : UInt8) (index : Nat) (state : LoopState) : Block → RoundEnd
  | .next => .next state
  | .leave => .done state.last
  | .finish pattern => .done (some ⟨pattern, index⟩)
  | .setLast pattern rest => rest.run byte index { state with last := some ⟨pattern, index⟩ }
  | .setStep step rest => rest.run byte index { state with step := step }
  | .branch test yes no =>
    if test.holds state byte then yes.run byte index state else no.run byte index state

/-- The lines of a block at a depth. A branch opens one or goes on with one that is open: it does so
if it stands alone in the other arm of a branch. -/
def Block.lines (opens : Bool) (depth : Nat) : Block → List Line
  | .next => []
  | .leave => [⟨depth, .leave⟩]
  | .finish index => [⟨depth, .finish index⟩]
  | .setLast index rest => ⟨depth, .setLast index⟩ :: rest.lines true depth
  | .setStep step rest => ⟨depth, .setStep step⟩ :: rest.lines true depth
  | .branch test yes no =>
    ⟨depth, .ask opens test⟩ :: yes.lines true (depth + 1) ++
      match no with
      | .next => []
      | .branch _ _ _ => no.lines false depth
      | _ => ⟨depth, .otherwise⟩ :: no.lines true (depth + 1)

end Munch
