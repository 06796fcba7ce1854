/-
What can be wrong with the text of a pattern.
-/
import Munch.Text.Quoted

namespace Munch

open Text

/-- A breach of the pattern syntax. -/
inductive Fault where
  /-- A fault described by a text of its own. -/
  | stated (text : String)
  /-- A closing parenthesis that nothing opened. -/
  | unbalanced
  /-- The character found cannot stand here; none is found at the end of the pattern. -/
  | unexpected (found : Option Char)
  /-- Something else stands where the text had to. -/
  | expected (text : String)
  | nothingToRepeat
  | expectedNumber
  | expectedNumberOrComma
  | invalidRepetition (min max : Nat)
  | tooManyRepetitions (count limit : Nat)
  | expectedGroupName
  | unknownGroup
  | incompleteEscape
  | badEscape (c : Char)
  | expectedHexDigits
  | nonAsciiMember
  /-- A class such as `\d` as a bound of a range. -/
  | classAsBound
  /-- The second bound of a range is below the first. -/
  | invalidRange
  | unknownClass (name : Option String)
deriving DecidableEq

def Fault.message : Fault → String
  | .stated text => text
  | .unbalanced => "Unbalanced ')'"
  | .unexpected found => "Unexpected " ++ quoted (String.ofList found.toList)
  | .expected text => "Expected '" ++ text ++ "'"
  | .nothingToRepeat => "Nothing to repeat"
  | .expectedNumber => "Expected number"
  | .expectedNumberOrComma => "Expected number or comma"
  | .invalidRepetition min max =>
    "Invalid repetition range \x7b" ++ toString min ++ "," ++ toString max ++ "\x7d"
  | .tooManyRepetitions count limit => s!"Repetition count {count} exceeds {limit}"
  | .expectedGroupName => "Expected group name"
  | .unknownGroup => "Unknown extension of the group syntax"
  | .incompleteEscape => "Incomplete escape"
  | .badEscape c => "Bad escape '\\" ++ String.singleton c ++ "'"
  | .expectedHexDigits => "Expected two hex digits"
  | .nonAsciiMember => "Non-ASCII characters are not supported in symbol sets"
  | .classAsBound => "Cannot make symbol range out of a class"
  | .invalidRange => "Invalid symbol range"
  | .unknownClass name => "Unknown class name " ++ quotedOption name

end Munch
