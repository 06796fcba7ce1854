/-
Trees in the shape the syntax gives them, and their plainest written form. In normal form an
expression is a choice between different branches, a branch is a row of items, and an item is an atom
with repetitions around it. The written form spells out every byte and every count.
-/
import Munch.Text.Byte
import Munch.Text.Identifier
import Munch.Tree.Basic

namespace Munch.Tree

open Text

/-- The levels of the syntax, from the loosest to the tightest. -/
inductive Level where
  | expr
  | branch
  | item
  | atom

/-- A set of bytes given by its members, with at least one byte left out between two intervals. -/
def IsCanonical (s : ByteSet) : Prop :=
  s.accept = true ∧ (∀ r ∈ s.ranges, 0 ≤ r.lo ∧ r.lo ≤ r.hi ∧ r.hi ≤ 255) ∧
    s.ranges.Pairwise fun r s => r.hi + 1 < s.lo

/-- The counts that a repetition can be written with. -/
def AreBounds (min : Int) (max : Option Int) : Prop :=
  0 ≤ min ∧ min ≤ 1000 ∧ ∀ m ∈ max, min ≤ m ∧ m ≤ 1000

/-- A tree that stands for itself at a level of the syntax. -/
inductive IsNormal : Level → Tree → Prop where
  | alt {items : List Tree} : 2 ≤ items.length → items.Nodup →
    (∀ t ∈ items, IsNormal .branch t) → IsNormal .expr (.alt items)
  | single {t : Tree} : IsNormal .branch t → IsNormal .expr t
  | epsilon : IsNormal .branch .epsilon
  | concat {items : List Tree} : 2 ≤ items.length →
    (∀ t ∈ items, IsNormal .item t) → IsNormal .branch (.concat items)
  | item {t : Tree} : IsNormal .item t → IsNormal .branch t
  | repeated {t : Tree} {min : Int} {max : Option Int} {greedy : Bool} : IsNormal .item t →
    t.isLook = false → AreBounds min max → IsNormal .item (.repeated t min max greedy)
  | atom {t : Tree} : IsNormal .atom t → IsNormal .item t
  | symbol {s : ByteSet} : IsCanonical s → IsNormal .atom (.symbol s)
  | look {kind : Look} : IsNormal .atom (.look kind)
  | plainGroup {t : Tree} : IsNormal .expr t → IsNormal .atom (.group t false none)
  | capture {t : Tree} : IsNormal .expr t → IsNormal .atom (.group t true none)
  | named {t : Tree} {name : String} : IsNormal .expr t → isIdentifier name = true →
    IsNormal .atom (.group t true (some name))

/-- A byte by its code. -/
def writtenByte (b : Int) : List Char :=
  '\\' :: 'x' :: hex 2 b.toNat

/-- A set of bytes as a class in square brackets. -/
def writtenSet (ranges : List Interval) : List Char :=
  match ranges with
  | [] => ['[', '^'] ++ writtenByte 0 ++ ['-'] ++ writtenByte 255 ++ [']']
  | ranges =>
    '[' :: ranges.flatMap (fun r => writtenByte r.lo ++ ['-'] ++ writtenByte r.hi) ++ [']']

/-- The counts of a repetition in braces. -/
def writtenBounds (min : Int) (max : Option Int) (greedy : Bool) : List Char :=
  '{' :: (toString min).toList ++ [','] ++
    (match max with
      | none => []
      | some max => (toString max).toList) ++
    ['}'] ++ if greedy then [] else ['?']

/-- What opens a group. -/
def writtenOpening (capturing : Bool) (name : Option String) : List Char :=
  match capturing, name with
  | false, _ => ['(', '?', ':']
  | true, none => ['(']
  | true, some name => ['(', '?', 'P', '<'] ++ name.toList ++ ['>']

mutual

/-- The plainest pattern for a tree in normal form. -/
def written : Tree → List Char
  | .epsilon => []
  | .symbol set => writtenSet set.ranges
  | .concat items => writtenSeq items
  | .alt items => writtenAlt items
  | .repeated body min max greedy => written body ++ writtenBounds min max greedy
  | .group body capturing name => writtenOpening capturing name ++ written body ++ [')']
  | .look kind => kind.text.toList
  | .bare => []

def writtenSeq : List Tree → List Char
  | [] => []
  | t :: ts => written t ++ writtenSeq ts

def writtenAlt : List Tree → List Char
  | [] => []
  | [t] => written t
  | t :: ts => written t ++ '|' :: writtenAlt ts

end

end Munch.Tree
