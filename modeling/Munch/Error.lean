/-
Everything that can go wrong: the rejection of a pattern set, and requests that break the promises
an operation relies on.
-/
import Munch.Rejection
import Munch.Text.Numeral

namespace Munch

open Text

inductive Error where
  | rejected (rejection : Rejection)
  /-- A count that is not a readable number. -/
  | numeral (fault : NumeralFault)
  /-- A member of a symbol set at the end of the pattern. -/
  | noCharacter
  /-- A concatenation of nothing. -/
  | emptyConcat
  /-- A choice between nothing. -/
  | emptyAlt
  /-- A repetition that nothing was made of. -/
  | emptyRepeat
  | negativeMin
  | maxBelowMin
  /-- A tree node that nothing can be made of. -/
  | bareNode
  /-- A position outside of the program, or a goto that is still a hole. -/
  | noInstruction
  /-- A hole that the instruction does not have. -/
  | noHole
  /-- A step that is not in its table. -/
  | noStep (step : Int)
  /-- A pattern that no step accepts. -/
  | noAcceptingStep (index : Int)
  /-- A step id beyond 64 bits. -/
  | wideStep (step : Int)
  /-- A name that no function can be given. -/
  | badFunctionName (name : String)
  /-- A source that is not in the language of the emitted code. -/
  | unreadable (name : String)
  /-- A function name that has a meaning of its own in the language of the emitted code. -/
  | reservedName (name : String)
  /-- A function name that the emitted language takes for another. -/
  | lostName (name : String)
  /-- A function with more branches in branches than the host has room for. -/
  | tooDeep (name : String)
  /-- A function that calls itself without end. -/
  | endlessCall (name : String)
  | negativeLimit (limit : Int)
  | notIdentifier (name : String)
  | startOutside (start : Int) (size : Nat)
deriving DecidableEq

/-- A rejection that blames no pattern. -/
def Error.of (cause : Cause) : Error := .rejected (.of cause)

def Error.message : Error → String
  | .rejected rejection => rejection.message
  | .numeral fault => fault.message
  | .noCharacter => "no character to read"
  | .emptyConcat => "'concatenation' must have at least one expression"
  | .emptyAlt => "'or' must have at least one expression"
  | .emptyRepeat => "'repeat' did not produce any instruction"
  | .negativeMin => "'repeat' min must be non-negative"
  | .maxBelowMin => "'repeat' max must be greater than or equal to min"
  | .bareNode => "visit method for node 'RE' is not implemented"
  | .noInstruction => "no instruction at this position"
  | .noHole => "no such hole in the instruction"
  | .noStep step => s!"no step {step}"
  | .noAcceptingStep index => s!"no step accepts pattern {index}"
  | .wideStep step => s!"step id {step} does not fit into 64 bits"
  | .badFunctionName name => quoted name ++ " is not a valid function name"
  | .unreadable name => "the source of " ++ quoted name ++ " cannot be read"
  | .reservedName name => quoted name ++ " is reserved"
  | .lostName name => quoted name ++ " names no function"
  | .tooDeep name => quoted name ++ " is nested too deeply"
  | .endlessCall name => quoted name ++ " calls itself without end"
  | .negativeLimit limit => s!"max_steps must be non-negative, got {limit}"
  | .notIdentifier name => "function_name must be an identifier, got " ++ quoted name
  | .startOutside start size => s!"start {start} is outside of the data (0..{size})"

end Munch
