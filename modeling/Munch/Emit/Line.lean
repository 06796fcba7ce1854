/-
The lines of an emitted function: how far a line is indented, and what it says.
-/
import Munch.Machine.Basic

namespace Munch

/-- What a branch asks. -/
inductive Test where
  | step (id : StepId)
  | byte (range : Interval)

/-- What a line says. -/
inductive Phrase where
  /-- Opens the function of a name. -/
  | define (name : String)
  | setStep (step : StepId)
  /-- Starts with a match of the pattern before any byte, or with none. -/
  | startLast (index : Option PatternIndex)
  | setIndex
  | setLength
  /-- Opens the loop over the bytes. -/
  | loop
  | setByte
  | advance
  /-- Opens a branch, or goes on with one that is open. -/
  | ask (opens : Bool) (test : Test)
  | otherwise
  | leave
  /-- Returns a match that ends behind the byte. -/
  | finish (index : PatternIndex)
  /-- Remembers a match that ends behind the byte. -/
  | setLast (index : PatternIndex)
  /-- Returns what is remembered. -/
  | giveLast

/-- A line by its depth of indentation and what it says. -/
structure Line where
  depth : Nat
  phrase : Phrase

/-- The function asks for the length of its data by this name. If it is its own, it calls itself. -/
def Routine.lengthName : String := "len"

def Test.text : Test → String
  | .step id => "step == " ++ toString id
  | .byte range =>
    if range.lo = range.hi then "byte == " ++ toString range.lo
    else toString range.lo ++ " <= byte <= " ++ toString range.hi

def Phrase.text : Phrase → String
  | .define name => "def " ++ name ++ "(data: bytes, start: int = 0) -> tuple[int, int] | None:"
  | .setStep step => "step = " ++ toString step
  | .startLast (some index) => "last = (" ++ toString index ++ ", start)"
  | .startLast none => "last = None"
  | .setIndex => "index = start"
  | .setLength => "length = " ++ Routine.lengthName ++ "(data)"
  | .loop => "while index < length:"
  | .setByte => "byte = data[index]"
  | .advance => "index += 1"
  | .ask true test => "if " ++ test.text ++ ":"
  | .ask false test => "elif " ++ test.text ++ ":"
  | .otherwise => "else:"
  | .leave => "break"
  | .finish index => "return " ++ toString index ++ ", index"
  | .setLast index => "last = " ++ toString index ++ ", index"
  | .giveLast => "return last"

def Line.text (l : Line) : String :=
  String.join (List.replicate l.depth "    ") ++ l.phrase.text

end Munch
