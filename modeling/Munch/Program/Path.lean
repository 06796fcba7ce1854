/-
The runs of a program. A run goes from instruction to instruction and reads a byte at each byte
instruction; all others read nothing. An assertion ends a run.
-/
import Munch.Program.Basic

namespace Munch

/-- The intervals of a byte instruction, and where it goes on. -/
def Inst.reads? : Inst → Option (List Interval × Goto)
  | .char byte next => some ([.single byte], next)
  | .span range next => some ([range], next)
  | .oneOf ranges next => some (ranges, next)
  | _ => none

namespace Program

/-- From a split or an idle instruction to where it goes on. -/
inductive Edge (p : Program) : Nat → Nat → Prop where
  | nop {i j : Nat} : p.insts[i]? = some (.nop j) → Edge p i j
  | first {i j : Nat} {second : Goto} : p.insts[i]? = some (.split j second) → Edge p i j
  | second {i j : Nat} {first : Goto} : p.insts[i]? = some (.split first j) → Edge p i j

/-- Any number of edges. -/
inductive Leads (p : Program) : Nat → Nat → Prop where
  | refl (i : Nat) : Leads p i i
  | step {i j k : Nat} : Edge p i j → Leads p j k → Leads p i k

/-- The instruction reads the byte and goes on. -/
def Reads (p : Program) (i : Nat) (b : UInt8) (j : Nat) : Prop :=
  ∃ inst ranges, p.insts[i]? = some inst ∧ inst.reads? = some (ranges, (j : Goto)) ∧
    Interval.covers ranges b.toNat = true

/-- A run from one position to another that reads the bytes. -/
inductive Path (p : Program) : Nat → List UInt8 → Nat → Prop where
  | refl (i : Nat) : Path p i [] i
  | edge {i j k : Nat} {w : List UInt8} : Edge p i j → Path p j w k → Path p i w k
  | save {i j k : Nat} {slot : Int} {w : List UInt8} : p.insts[i]? = some (.save slot j) →
    Path p j w k → Path p i w k
  | read {i j k : Nat} {b : UInt8} {w : List UInt8} : Reads p i b j → Path p j w k →
    Path p i (b :: w) k

/-- Some run from the entry reads the bytes and finishes the pattern. -/
def Finishes (p : Program) (w : List UInt8) (index : Int) : Prop :=
  ∃ i, Path p p.entry w i ∧ p.insts[i]? = some (.accept index)

end Program

end Munch
