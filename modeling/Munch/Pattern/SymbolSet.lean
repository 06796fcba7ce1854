/-
Symbol sets in square brackets: single bytes, ranges, escapes and named classes, in any mix.
`[^` takes the complement, and a `]` right at the start is a member.
-/
import Munch.Pattern.Escape
import Munch.Pattern.Reader
import Munch.Text.Alphanumeric
import Munch.Text.Byte

namespace Munch.Reader

open Text

/-- Two hexadecimal digits. -/
def hexByte : Reader Int := do
  match ← get with
  | c :: d :: rest =>
    match hexValue? c, hexValue? d with
    | some high, some low =>
      set rest
      return ↑(16 * high + low)
    | _, _ => fail .expectedHexDigits
  | _ => fail .expectedHexDigits

/-- A member of a symbol set. -/
inductive Member where
  | byte (b : Int)
  | set (s : ByteSet)

/-- A character as a member: its code, which has to be one byte in every encoding. -/
def memberOf (c : Char) : Reader Member :=
  if 0x7f < c.toNat then fail .nonAsciiMember else return .byte c.toNat

/-- A member after its backslash. -/
def escapedMember : Reader Member := do
  match ← next with
  | none => fail .incompleteEscape
  | some c =>
    match Escape.classOf? c, Escape.byteOf? c with
    | some s, _ => return .set s
    | none, some b => return .byte b
    | none, none =>
      if c = 'x' then return .byte (← hexByte)
      else if c = 'b' then return .byte 0x08
      else if isAlphanumeric c then fail (.badEscape c)
      else memberOf c

/-- One member: a byte or a whole class. -/
def member : Reader Member := do
  match ← next with
  | none => throw .noCharacter
  | some c => if c = '\\' then escapedMember else memberOf c

/-- A class name between `[:` and `:]`, with `^` in front for its complement. -/
def namedClass : Reader (List Interval) := do
  advance 2
  let negated ← accepts ['^']
  let name ← takeWhile (· != ':')
  if ← accepts [':', ']'] then
    match Escape.namedClass? (String.ofList name) with
    | some ranges => return (ByteSet.accepting ⟨ranges, !negated⟩).ranges
    | none =>
      fail (.unknownClass (if name.isEmpty then none else some (String.ofList name)))
  else fail (.expected ":]")

/-- A minus between two members makes a range of them; before the closing bracket it is one. -/
def rangeFollows : Reader Bool := do
  match ← get with
  | c :: d :: _ => return c == '-' && d != ']'
  | _ => return false

/-- What one member, one range or one named class adds to a set. -/
def memberRanges : Reader (List Interval) := do
  if ← sees ['[', ':'] then namedClass
  else match ← member with
    | .set s => return s.accepting.ranges
    | .byte lo =>
      if ← rangeFollows then
        advance 1
        match ← member with
        | .set _ => fail .classAsBound
        | .byte hi => if hi < lo then fail .invalidRange else return [⟨lo, hi⟩]
      else return [⟨lo, lo⟩]

/-- There has to be something before the pattern ends. -/
def needsBracket : Reader Unit := do
  if (← peek).isNone then fail (.expected "]")

/-- The next member, or the closing bracket. -/
def memberRanges? : Reader (Option (List Interval)) := do
  needsBracket
  if ← accepts [']'] then return none
  else return some (← memberRanges)

/-- A symbol set, given by its members. -/
def symbolSet : Reader (Option ByteSet) := do
  if ← accepts ['['] then
    let negated ← accepts ['^']
    needsBracket
    let first ← memberRanges
    let others ← many memberRanges?
    return some (ByteSet.accepting ⟨first ++ others.flatten, !negated⟩)
  else return none

end Munch.Reader
