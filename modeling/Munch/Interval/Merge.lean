/-
Sets of integers as lists of intervals. `merge` is the canonical form of such a list: sorted, with a
gap between neighbours. `complement` is the canonical form of the bytes a list does not cover.
-/
import Munch.Interval.Basic

namespace Munch.Interval

/-- Joins overlapping and touching intervals of a sorted list; `r` is the one still growing. -/
def joinSorted (r : Interval) : List Interval → List Interval
  | [] => [r]
  | s :: rest =>
    if r.hi + 1 < s.lo then r :: joinSorted s rest
    else joinSorted ⟨r.lo, max r.hi s.hi⟩ rest

/-- The same integers as sorted intervals, with at least one uncovered integer between two. -/
def merge (rs : List Interval) : List Interval :=
  match sort le rs with
  | [] => []
  | r :: rest => joinSorted r rest

def minByte : Int := 0

def maxByte : Int := 255

/-- What a merged list leaves uncovered from `start` up to the greatest byte. -/
def gapsFrom (start : Int) : List Interval → List Interval
  | [] => if start ≤ maxByte then [⟨start, maxByte⟩] else []
  | r :: rest =>
    if start < r.lo then ⟨start, r.lo - 1⟩ :: gapsFrom (r.hi + 1) rest
    else gapsFrom (r.hi + 1) rest

/-- The bytes that no interval of the list holds. -/
def complement (rs : List Interval) : List Interval :=
  gapsFrom minByte (merge rs)

end Munch.Interval
