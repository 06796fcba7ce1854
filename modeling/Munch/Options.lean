/-
What can be chosen about a pattern set.
-/
import Munch.Error
import Munch.Text.Identifier

namespace Munch

open Text

structure Options where
  /-- How many merged steps there may be, without a limit if absent. -/
  maxSteps : Option Int
  /-- Report every table on the way. -/
  verbose : Bool
  /-- Match with the emitted function instead of the table. -/
  useCodegen : Bool
  /-- The name of the emitted function. -/
  functionName : String

namespace Options

def standard : Options := ⟨some 10000, false, false, "match_set"⟩

/-- The limit is not negative, and the function name is an identifier. -/
def check (o : Options) : Except Error Unit := do
  match o.maxSteps with
  | some limit => if limit < 0 then throw (.negativeLimit limit)
  | none => pure ()
  if !isIdentifier o.functionName then throw (.notIdentifier o.functionName)

end Options

end Munch
