/-
The compatibility composition of identifiers. Characters are taken apart into bases and marks, the
marks of a base are put into the order of their classes, and what can be put together again is. A
text that this leaves alone, and in which no character stands for others, is composed.
-/
import Munch.Text.CodePoints
import Munch.Text.CompositionData

namespace Munch.Text

/-- The combining class of a code point. -/
def markClass (n : Nat) : Nat :=
  match markRanges.find? fun (lo, hi, _) => lo ≤ n && n ≤ hi with
  | some (_, _, k) => k
  | none => 0

/-- A code point taken apart, at most so many times. -/
def decomposeUpTo : Nat → Nat → List Nat
  | 0, n => [n]
  | fuel + 1, n =>
    match compositions.find? fun (whole, _, _) => whole == n with
    | some (_, base, added) => decomposeUpTo fuel base ++ [added]
    | none => [n]

/-- A code point taken apart; no character has more than three marks. -/
def decompose (n : Nat) : List Nat :=
  decomposeUpTo 4 n

/-- Puts a mark behind the marks of lower class that follow it. -/
def placeMark (n : Nat) : List Nat → List Nat
  | [] => [n]
  | m :: rest =>
    if 0 < markClass m ∧ markClass m < markClass n then m :: placeMark n rest else n :: m :: rest

/-- The marks of each base in the order of their classes. -/
def orderMarks : List Nat → List Nat
  | [] => []
  | n :: rest => if markClass n = 0 then n :: orderMarks rest else placeMark n (orderMarks rest)

/-- A Hangul syllable of two parts, or of a syllable and a final part. -/
def composeHangul? (base added : Nat) : Option Nat :=
  if 0x1100 ≤ base ∧ base ≤ 0x1112 ∧ 0x1161 ≤ added ∧ added ≤ 0x1175 then
    some (0xac00 + ((base - 0x1100) * 21 + (added - 0x1161)) * 28)
  else if 0xac00 ≤ base ∧ base ≤ 0xd7a3 ∧ (base - 0xac00) % 28 = 0 ∧
      0x11a8 ≤ added ∧ added ≤ 0x11c2 then
    some (base + (added - 0x11a7))
  else none

/-- The code point that two make together. -/
def compose? (base added : Nat) : Option Nat :=
  match compositions.find? fun (_, b, a) => b == base && a == added with
  | some (whole, _, _) => some whole
  | none => composeHangul? base added

/-- Puts together what follows a base; `kept` are the marks that did not go into it. A code point
goes into the base if no mark of its class or above stands between them. -/
def composeFrom (base : Nat) (kept : List Nat) : List Nat → List Nat
  | [] => base :: kept
  | n :: rest =>
    let blocked := kept.any fun m => markClass n ≤ markClass m
    match if blocked then none else compose? base n with
    | some whole => composeFrom whole kept rest
    | none =>
      if markClass n = 0 then base :: kept ++ composeFrom n [] rest
      else composeFrom base (kept ++ [n]) rest

def composeAll : List Nat → List Nat
  | [] => []
  | n :: rest => composeFrom n [] rest

/-- The ASCII character that a code point normalises to, if it is one. -/
def asciiForm? (n : Nat) : Option Nat :=
  if n < 0x80 then some n
  else match asciiForms.find? fun (lo, hi, _) => lo ≤ n && n ≤ hi with
    | some (lo, _, first) => some (first + (n - lo))
    | none => none

/-- The identifier normalises to the ASCII text. -/
def normalizesTo (ascii s : String) : Bool :=
  s.toList.mapM (fun c => asciiForm? c.toNat) == some (ascii.toList.map Char.toNat)

/-- The identifier is its own compatibility composition. -/
def isComposed (s : String) : Bool :=
  let points := s.toList.map Char.toNat
  points.all (fun n => !inRanges replacedRanges n) &&
    composeAll (orderMarks (points.flatMap decompose)) == points

end Munch.Text
