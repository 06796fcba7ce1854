/-
Repetition suffixes: `?`, `*`, `+` and counts in braces, each with a `?` after it for the lazy form.
-/
import Munch.Pattern.Reader

namespace Munch.Reader

open Text

/-- The greatest count a suffix may ask for. -/
def maxRepeat : Nat := 1000

/-- A count in decimal digits, if there is one. -/
def number : Reader (Option Nat) := do
  let digits ← takeWhile isDigit
  if digits.isEmpty then return none
  else match numeral digits with
    | .error fault => throw (.numeral fault)
    | .ok n => if maxRepeat < n then fail (.tooManyRepetitions n maxRepeat) else return some n

/-- The bounds between braces: one count, or a lower and an upper one of which one may be left out. -/
def counts : Reader (Nat × Option Nat) := do
  if ← accepts [','] then
    match ← number with
    | none => fail .expectedNumber
    | some max => return (0, some max)
  else match ← number with
    | none => fail .expectedNumberOrComma
    | some min =>
      if ← accepts [','] then
        match ← number with
        | none => return (min, none)
        | some max =>
          if max < min then fail (.invalidRepetition min max) else return (min, some max)
      else return (min, some min)

/-- The bounds that the next suffix stands for. -/
def bounds : Reader (Option (Nat × Option Nat)) := do
  if ← accepts ['?'] then return some (0, some 1)
  else if ← accepts ['*'] then return some (0, none)
  else if ← accepts ['+'] then return some (1, none)
  else if ← accepts ['{'] then
    let bounds ← counts
    if ← accepts ['}'] then return some bounds else fail (.expected "\x7d")
  else return none

/-- A repetition suffix. -/
structure Suffix where
  min : Nat
  max : Option Nat
  greedy : Bool

/-- The next suffix; an assertion takes none. -/
def suffix (onLook : Bool) : Reader (Option Suffix) := do
  match ← bounds with
  | none => return none
  | some (min, max) =>
    if onLook then fail .nothingToRepeat
    else return some ⟨min, max, !(← accepts ['?'])⟩

end Munch.Reader
