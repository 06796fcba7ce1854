/-
Inclusive intervals of integers. Bytes are 0 to 255, but the arithmetic here holds for all integers,
and an interval with `hi < lo` is empty.
-/
import Munch.Sorting
import Munch.Text.Byte

namespace Munch

/-- The integers from `lo` to `hi`, both included. -/
structure Interval where
  lo : Int
  hi : Int
deriving DecidableEq, Inhabited

namespace Interval

/-- The interval of one integer. -/
def single (n : Int) : Interval := ⟨n, n⟩

def contains (r : Interval) (n : Int) : Bool :=
  r.lo ≤ n && n ≤ r.hi

/-- The two have an integer in common (when neither is empty). -/
def overlaps (r s : Interval) : Bool :=
  r.lo ≤ s.hi && s.lo ≤ r.hi

/-- Order by lower bound, then by upper bound. -/
def le (r s : Interval) : Bool :=
  r.lo < s.lo || (r.lo == s.lo && r.hi ≤ s.hi)

/-- Some interval of the list holds the integer. -/
def covers (rs : List Interval) (n : Int) : Bool :=
  rs.any (·.contains n)

/-- How an interval of bytes is shown: one byte by itself, more by the first and the last. -/
def text (r : Interval) : String :=
  if r.lo = r.hi then Text.byteText r.lo else Text.byteText r.lo ++ "-" ++ Text.byteText r.hi

end Interval

end Munch
