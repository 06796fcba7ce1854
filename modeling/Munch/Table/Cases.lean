/-
Lists of cases: cutting them at each other's bounds, and putting what belongs together back into one.
-/
import Munch.Interval.Pieces
import Munch.Table.Basic

namespace Munch

/-- Adds the conditions that are not there yet. -/
def joinConditions (first second : List Condition) : List Condition :=
  second.foldl (fun cs c => if cs.contains c then cs else cs ++ [c]) first

/-- Cuts all cases at each other's bounds, so that two of them cover the same bytes or none in
common. -/
def cutCases (cases : List Case) : List Case :=
  let pieces := Interval.pieces (cases.map (·.range))
  cases.flatMap fun c => (c.range.cut pieces).map (⟨·, c.transition⟩)

/-- The transition carries conditions. -/
def Transition.isConditional : Transition → Bool
  | .go _ (_ :: _) => true
  | _ => false

/-- Joins touching cases of a sorted list that lead to the same place without conditions; `c` is the
one still growing. -/
def joinCases (c : Case) : List Case → List Case
  | [] => [c]
  | d :: rest =>
    if c.range.hi + 1 = d.range.lo ∧ c.transition = d.transition ∧
        !d.transition.isConditional then
      joinCases ⟨⟨c.range.lo, d.range.hi⟩, d.transition⟩ rest
    else c :: joinCases d rest

/-- Sorts cases by their bytes and joins neighbours that lead to the same place. -/
def tidyCases (cases : List Case) : List Case :=
  match sort (fun c d => Interval.le c.range d.range) cases with
  | [] => []
  | c :: rest => joinCases c rest

end Munch
