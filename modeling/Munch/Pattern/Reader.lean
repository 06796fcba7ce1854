/-
Reading a pattern from left to right. A reader works on the characters that are left, returns what
it read and keeps the rest, also when it stops with a failure: the rest tells how far it came.
-/
import Munch.Pattern.Fault
import Munch.Text.Numeral

namespace Munch

/-- Why a reader stops. -/
inductive Stop where
  | fault (fault : Fault)
  /-- A group that looks ahead or behind, which is understood but never supported. -/
  | lookaround
  | numeral (fault : Text.NumeralFault)
  /-- A character is needed where the pattern ends. -/
  | noCharacter
deriving DecidableEq

abbrev Reader := EStateM Stop (List Char)

namespace Reader

variable {α : Type}

def fail (fault : Fault) : Reader α :=
  throw (.fault fault)

/-- The next character, which is not consumed. -/
def peek : Reader (Option Char) :=
  return (← get).head?

/-- The next character, consumed. -/
def next : Reader (Option Char) := do
  let rest ← get
  set rest.tail
  return rest.head?

/-- Consumes so many characters, or all that are left. -/
def advance (count : Nat) : Reader Unit :=
  modify (·.drop count)

/-- The text comes next; nothing is consumed. -/
def sees (text : List Char) : Reader Bool :=
  return text.isPrefixOf (← get)

/-- Consumes the text if it comes next. -/
def accepts (text : List Char) : Reader Bool := do
  if ← sees text then
    advance text.length
    return true
  else return false

/-- Consumes characters as long as they pass the test. -/
def takeWhile (test : Char → Bool) : Reader (List Char) := do
  let rest ← get
  set (rest.dropWhile test)
  return rest.takeWhile test

/-- Runs the reader until it returns nothing, at most so many times. -/
def upTo (read : Reader (Option α)) : Nat → Reader (List α)
  | 0 => return []
  | fuel + 1 => do
    match ← read with
    | none => return []
    | some a => return a :: (← upTo read fuel)

/-- Runs the reader until it returns nothing. A reader that consumes something whenever it returns
something can succeed once for each character that is left. -/
def many (read : Reader (Option α)) : Reader (List α) := do
  upTo read ((← get).length + 1)

end Reader

end Munch
