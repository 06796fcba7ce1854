/-
The byte strings that a tree denotes. How greedy a repetition is does not matter for them. An
assertion denotes nothing, since what it asks for lies outside of the string.
-/
import Munch.Tree.Basic

namespace Munch

/-- A set of byte strings. -/
abbrev Language := List UInt8 → Prop

namespace Language

/-- A string of the first language followed by one of the second. -/
def seq (L M : Language) : Language :=
  fun w => ∃ u v, w = u ++ v ∧ L u ∧ M v

/-- So many strings of the language in a row. -/
def power (L : Language) : Nat → Language
  | 0 => fun w => w = []
  | n + 1 => seq L (power L n)

end Language

namespace Tree

mutual

def Denotes : Tree → Language
  | .epsilon => fun w => w = []
  | .symbol set => fun w => ∃ b : UInt8, w = [b] ∧ set.contains b.toNat = true
  | .concat items => DenotesSeq items
  | .alt items => DenotesAny items
  | .repeated body min max _ => fun w =>
    ∃ n : Nat, min ≤ n ∧ (∀ m ∈ max, (n : Int) ≤ m) ∧ Language.power (Denotes body) n w
  | .group body _ _ => Denotes body
  | .look _ => fun _ => False
  | .bare => fun _ => False

/-- One string of each tree, in a row. -/
def DenotesSeq : List Tree → Language
  | [] => fun w => w = []
  | t :: ts => Language.seq (Denotes t) (DenotesSeq ts)

/-- A string of one of the trees. -/
def DenotesAny : List Tree → Language
  | [] => fun _ => False
  | t :: ts => fun w => Denotes t w ∨ DenotesAny ts w

end

end Tree

end Munch
