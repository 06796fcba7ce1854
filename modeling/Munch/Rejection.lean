/-
Why a pattern set is rejected. A rejection has a cause and, once it is known, the pattern to blame
with its index in the set. All of them are final: there is no table to fall back on.
-/
import Munch.Interval.Basic
import Munch.Pattern.Fault
import Munch.Tree.Basic

namespace Munch

open Text

/-- A part of a pattern that is understood, but that no table can express. -/
inductive Construct where
  /-- A construct described by a text of its own. -/
  | stated (text : String)
  | lookaround
  | capture (slot : Int)
  | assertion (kind : Look)
  /-- An instruction that does nothing, where one that does something has to stand. -/
  | idle
deriving DecidableEq

def Construct.text : Construct → String
  | .stated text => text
  | .lookaround => "lookaround"
  | .capture slot => s!"capture group (Save slot {slot})"
  | .assertion kind => "zero-width assertion " ++ quoted kind.text ++ " (EmptyLook)"
  | .idle => "Nop"

/-- What keeps a table from being deterministic or complete. -/
inductive Conflict where
  /-- A conflict described by a text of its own. -/
  | stated (text : String)
  /-- More merged steps are needed than the limit allows. -/
  | unconverged (limit : Int)
  /-- Two cases of the step share a byte. -/
  | overlap (step : Int) (r s : Interval)
  | missingTarget (step target : Int)
  /-- A condition on a step that accepts nothing. -/
  | idleCondition (step candidate : Int)
  /-- A condition on other bytes than those of its case. -/
  | strayCondition (step : Int) (condition range : Interval)
  | missingAccepting (step : Int)
deriving DecidableEq

def Conflict.message : Conflict → String
  | .stated text => text
  | .unconverged limit => s!"resolution did not converge within {limit} merged steps"
  | .overlap step r s => s!"step {step} is still ambiguous on {r.text} and {s.text}"
  | .missingTarget step target => s!"step {step} continues into missing step {target}"
  | .idleCondition step candidate =>
    s!"step {step} has a condition on non-accepting step {candidate}"
  | .strayCondition step condition range =>
    s!"step {step} has a condition on {condition.text} inside the case {range.text}"
  | .missingAccepting step => s!"accepting step {step} is missing"

inductive Cause where
  /-- A cause described by a text of its own. -/
  | stated (text : String)
  /-- The pattern breaks the syntax at the position, which counts characters. -/
  | malformed (fault : Fault) (position : Int)
  /-- The construct, and the instruction that needs it if it got that far. -/
  | unsupported (construct : Construct) (position : Option Int)
  /-- The conflict, and the step it was found at. -/
  | ambiguous (conflict : Conflict) (step : Option Int)
  /-- There is nothing to match, said in the usual words or in others. -/
  | empty (text : Option String)
deriving DecidableEq

def Cause.message : Cause → String
  | .stated text => text
  | .malformed fault position => s!"{fault.message} at position {position}"
  | .unsupported construct none => s!"unsupported construct: {construct.text}"
  | .unsupported construct (some position) =>
    s!"unsupported construct at instruction {position}: {construct.text}"
  | .ambiguous conflict _ => conflict.message
  | .empty text => text.getD "state machine should not be empty"

structure Rejection where
  cause : Cause
  /-- The pattern to blame. -/
  pattern : Option String
  /-- Its index in the pattern set. -/
  index : Option Int
deriving DecidableEq

namespace Rejection

/-- A rejection that blames no pattern yet. -/
def of (cause : Cause) : Rejection := ⟨cause, none, none⟩

/-- Blames a pattern, unless one is blamed already. -/
def blame (r : Rejection) (pattern : Option String) (index : Option Int) : Rejection :=
  if r.pattern.isNone && r.index.isNone then ⟨r.cause, pattern, index⟩ else r

/-- The cause, and the pattern to blame if its index is known. -/
def message (r : Rejection) : String :=
  match r.index with
  | none => r.cause.message
  | some index => s!"{r.cause.message} (pattern {index}: {quotedOption r.pattern})"

end Rejection

end Munch
