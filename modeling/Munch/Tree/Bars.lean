/-
What no table can express of a tree: captures and assertions. They only count where a run may come
to them, which it does not behind a set without members, and not in what is repeated no times at all.
-/
import Munch.Tree.Basic

namespace Munch.Tree

mutual

/-- A run may come through the code of the tree without meeting a capture or an assertion. -/
def isPassable : Tree → Bool
  | .epsilon => true
  | .symbol set => !set.accepting.ranges.isEmpty
  | .concat items => isPassableRow items
  | .alt items => isPassableAny items
  | .repeated body min _ _ => min == 0 || isPassable body
  | .group body capturing _ => !capturing && isPassable body
  | .look _ | .bare => false

def isPassableRow : List Tree → Bool
  | [] => true
  | t :: ts => isPassable t && isPassableRow ts

def isPassableAny : List Tree → Bool
  | [] => false
  | t :: ts => isPassable t || isPassableAny ts

end

mutual

/-- A run through the code of the tree may come to a capture or an assertion. -/
def isBarred : Tree → Bool
  | .epsilon | .symbol _ | .bare => false
  | .concat items => isBarredRow items
  | .alt items => isBarredAny items
  | .repeated body _ max _ => max != some 0 && isBarred body
  | .group body capturing _ => capturing || isBarred body
  | .look _ => true

def isBarredRow : List Tree → Bool
  | [] => false
  | t :: ts => isBarred t || isPassable t && isBarredRow ts

def isBarredAny : List Tree → Bool
  | [] => false
  | t :: ts => isBarred t || isBarredAny ts

end

end Munch.Tree
