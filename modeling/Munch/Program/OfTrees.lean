/-
From trees to a program. Each tree becomes a fragment; the fragments of a set are chained by splits,
so that a run may enter any of them, the first one preferred.
-/
import Munch.Program.Fragment
import Munch.Tree.Basic

namespace Munch

namespace AssemblyM

mutual

/-- Adds the fragment of a tree. However deep the tree is there is room for the calls; the limit that
the host sets to these is left out. -/
def ofTree : Tree → AssemblyM Fragment
  | .epsilon => leaf (.nop .hole)
  | .symbol set => symbol set.accepting.ranges
  | .concat items => concat (ofTrees items)
  | .alt items => alt (ofTrees items)
  | .repeated body min max greedy => repeated (ofTree body) min max greedy
  | .group body true _ => capture (ofTree body)
  | .group body false _ => ofTree body
  | .look kind => leaf (.look kind .hole)
  | .bare => throw .bareNode

/-- For each tree the action that adds its fragment. -/
def ofTrees : List Tree → List (AssemblyM Fragment)
  | [] => []
  | t :: ts => ofTree t :: ofTrees ts

end

/-- A whole pattern, up to the instruction that finishes it. -/
def finish (index : Nat) (t : Tree) : AssemblyM Unit := do
  linkHere (← ofTree t).holes
  let _ ← push (.accept index)

/-- The patterns from the index on, all but the last behind a split that leads to the next one. -/
def chain (index : Nat) : List Tree → AssemblyM Unit
  | [] => return ()
  | [t] => do
    modify ({ · with pattern := some index })
    finish index t
  | t :: ts => do
    modify ({ · with pattern := some index })
    let split ← push (.split .hole .hole)
    linkHere [⟨split, .first⟩]
    finish index t
    linkHere [⟨split, .second⟩]
    chain (index + 1) ts

/-- Forgets what was added before and adds the trees as the patterns of one set. -/
def compile (trees : List Tree) : AssemblyM Unit := do
  set Assembly.empty
  chain 0 trees

end AssemblyM

/-- The program that matches all trees at once, with the texts they stand for. -/
def Program.ofTrees (trees : List Tree) (patterns : List String) : Except Error Program :=
  match EStateM.run (AssemblyM.compile trees) Assembly.empty with
  | .ok _ a => .ok ⟨a.insts, 0, patterns, a.origins.toList⟩
  | .error e _ => .error e

end Munch
