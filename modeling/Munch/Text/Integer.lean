/-
Integers in a lenient form: blanks around them, a sign in front, digits of any script, and single
underscores between digits.
-/
import Munch.Text.CodePoints
import Munch.Text.Numeral

namespace Munch.Text

/-- The code points that may stand around an integer, in order. -/
def blankRanges : List (Nat × Nat) :=
  [(0x09, 0x0d), (0x20, 0x20), (0x85, 0x85), (0xa0, 0xa0), (0x1680, 0x1680), (0x2000, 0x200a),
    (0x2028, 0x2029), (0x202f, 0x202f), (0x205f, 0x205f), (0x3000, 0x3000)]

def isBlank (c : Char) : Bool :=
  inRanges blankRanges c.toNat

/-- Drops the blanks on both sides. -/
def trim (cs : List Char) : List Char :=
  ((cs.dropWhile isBlank).reverse.dropWhile isBlank).reverse

/-- The values of digits, between which single underscores may stand. -/
def digitValues? : List Char → Option (List Nat)
  | [] => none
  | c :: rest => do
    let d ← decimalValue? c
    match rest with
    | [] => some [d]
    | '_' :: rest => return d :: (← digitValues? rest)
    | rest => return d :: (← digitValues? rest)

def natural? (cs : List Char) : Option Nat := do
  let digits ← digitValues? cs
  if maxNumeralDigits < digits.length then none else some (ofDigits digits)

def integer? (s : String) : Option Int :=
  match trim s.toList with
  | '-' :: cs => (natural? cs).map fun n => -n
  | '+' :: cs => (natural? cs).map fun n => n
  | cs => (natural? cs).map fun n => n

end Munch.Text
