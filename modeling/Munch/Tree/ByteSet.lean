/-
A set of bytes as a pattern names it: intervals, and whether they list the members or the
non-members. `accepting` is the form that lists the members, with the intervals merged.
-/
import Munch.Interval.Merge

namespace Munch

structure ByteSet where
  ranges : List Interval
  /-- The intervals list the members; otherwise they list what is left out. -/
  accept : Bool
deriving DecidableEq

namespace ByteSet

/-- The set of one byte. -/
def single (b : Int) : ByteSet := ⟨[.single b], true⟩

/-- The same set with its intervals in canonical form. -/
def merged (s : ByteSet) : ByteSet :=
  ⟨Interval.merge s.ranges, s.accept⟩

/-- The same set given by its members, in canonical form. -/
def accepting (s : ByteSet) : ByteSet :=
  if s.accept then s.merged else ⟨Interval.complement s.ranges, true⟩

/-- The set holds the byte. -/
def contains (s : ByteSet) (b : Int) : Bool :=
  Interval.covers s.ranges b == s.accept

/-- One accepted byte stands alone; everything else is a class in square brackets. -/
def text (s : ByteSet) : String :=
  let members := String.join (s.ranges.map Interval.text)
  if s.accept then
    match s.ranges with
    | [r] => if r.lo = r.hi then members else "[" ++ members ++ "]"
    | _ => "[" ++ members ++ "]"
  else "[^" ++ members ++ "]"

end ByteSet

end Munch
