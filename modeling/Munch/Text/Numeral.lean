/-
Whole numbers in decimal digits of any script. A character may count as a digit without having a
decimal value, such as a superscript, and a numeral may be too long to be read.
-/
import Munch.Text.CodePoints
import Munch.Text.Quoted

namespace Munch.Text

/-- The longest numeral that is read. -/
def maxNumeralDigits : Nat := 4300

/-- Why a text is not read as a number. -/
inductive NumeralFault where
  /-- The text is not made of decimal digits. -/
  | notDecimal (text : String)
  | tooLong (digits : Nat)
deriving DecidableEq

def NumeralFault.message : NumeralFault → String
  | .notDecimal text =>
    "invalid literal for int() with base 10: " ++
      String.ofList ((quotedChars text.toList).take 200)
  | .tooLong digits =>
    s!"Exceeds the limit ({maxNumeralDigits} digits) for integer string conversion: value has " ++
      s!"{digits} digits; use sys.set_int_max_str_digits() to increase the limit"

/-- The number that decimal digits stand for, the most significant first. -/
def ofDigits (digits : List Nat) : Nat :=
  digits.foldl (fun n d => 10 * n + d) 0

/-- Reads a numeral: its length is checked first, up to the first character without a value. -/
def numeral (cs : List Char) : Except NumeralFault Nat :=
  let leading := (cs.takeWhile fun c => (decimalValue? c).isSome).length
  if maxNumeralDigits < leading then .error (.tooLong leading)
  else match cs.mapM decimalValue? with
    | some (d :: ds) => .ok (ofDigits (d :: ds))
    | _ => .error (.notDecimal (String.ofList cs))

end Munch.Text
