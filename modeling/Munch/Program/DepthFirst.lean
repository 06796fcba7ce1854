/-
Going through a program depth-first. From every position one follows the edges to all that is reached
without reading, the first goto of a split before the second, and comes by no position twice.
-/
import Munch.Program.Path

namespace Munch

/-- Where a split or an idle instruction goes on, the preferred goto first. -/
def Inst.edges : Inst → List Goto
  | .nop next => [next]
  | .split first second => [first, second]
  | _ => []

/-- After the positions seen, following the gotos depth-first comes by the positions of `order`. -/
inductive Program.DepthFirst (p : Program) : (seen : List Nat) → List Goto → (order : List Nat) → Prop
    where
  | nil (seen : List Nat) : DepthFirst p seen [] []
  /-- A position that was seen is passed over. -/
  | again {seen order : List Nat} {i : Nat} {rest : List Goto} : i ∈ seen →
    DepthFirst p seen rest order → DepthFirst p seen (i :: rest) order
  /-- All that lies below a new position comes before what waits. -/
  | visit {seen below order : List Nat} {i : Nat} {inst : Inst} {rest : List Goto} : i ∉ seen →
    p.insts[i]? = some inst → DepthFirst p (seen ++ [i]) inst.edges below →
    DepthFirst p (seen ++ i :: below) rest order →
    DepthFirst p seen (i :: rest) (i :: (below ++ order))

end Munch
