/-
Cutting intervals at each other's bounds, so that any two of the resulting pieces are equal or
have nothing in common.
-/
import Munch.Interval.Basic

namespace Munch.Interval

/-- Where a piece may start: at the lower bound of an interval, or just after its end. -/
def bounds (rs : List Interval) : List Int :=
  sortDistinct (rs.flatMap fun r => [r.lo, r.hi + 1])

/-- The intervals between consecutive bounds. -/
def between : List Int → List Interval
  | a :: b :: rest => ⟨a, b - 1⟩ :: between (b :: rest)
  | _ => []

/-- `inner` lies inside the interval. -/
def includes (r inner : Interval) : Bool :=
  r.lo ≤ inner.lo && inner.hi ≤ r.hi

/-- The pieces that the bounds of all intervals cut their union into, in order. -/
def pieces (rs : List Interval) : List Interval :=
  (between (bounds rs)).filter fun p => rs.any (·.includes p)

/-- The pieces that make up one of the intervals they were cut from. -/
def cut (r : Interval) (ps : List Interval) : List Interval :=
  ps.filter r.includes

end Munch.Interval
