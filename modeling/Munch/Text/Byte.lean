/-
Hexadecimal numbers, and how a byte is shown: printable ASCII characters as themselves, all others in
hexadecimal. The backslash and the two quotes count as others, so the text can stand inside quotes.
-/

namespace Munch.Text

/-- The value of a hexadecimal digit in either case. -/
def hexValue? (c : Char) : Option Nat :=
  if '0' ≤ c ∧ c ≤ '9' then some (c.toNat - '0'.toNat)
  else if 'a' ≤ c ∧ c ≤ 'f' then some (c.toNat - 'a'.toNat + 10)
  else if 'A' ≤ c ∧ c ≤ 'F' then some (c.toNat - 'A'.toNat + 10)
  else none

/-- The digits in lower case, with zeros in front up to the width. -/
def hex (width n : Nat) : List Char :=
  let digits := Nat.toDigits 16 n
  List.replicate (width - digits.length) '0' ++ digits

/-- Bytes that are shown as the character they stand for. -/
def isPlainByte (b : Nat) : Bool :=
  0x20 ≤ b && b ≤ 0x7e && b != 0x5c && b != 0x27 && b != 0x22

def byteChars (b : Int) : List Char :=
  if isPlainByte b.toNat then [Char.ofNat b.toNat] else '\\' :: 'x' :: hex 2 b.toNat

def byteText (b : Int) : String :=
  String.ofList (byteChars b)

end Munch.Text
