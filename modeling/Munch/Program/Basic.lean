/-
Programs: instructions at numbered positions, shared by all patterns of a set. An instruction says
where to go on; a goto that is not known yet is a hole.
-/
import Munch.Error

namespace Munch

/-- Where to go on; a negative one is a hole. -/
abbrev Goto := Int

/-- The goto of an instruction that is not linked yet. -/
def Goto.hole : Goto := -1

inductive Inst where
  /-- Finishes the pattern of the index. -/
  | accept (index : Int)
  /-- Notes a bound of a capture group. -/
  | save (slot : Int) (next : Goto)
  /-- Goes on at two places, the first one preferred. -/
  | split (first second : Goto)
  | look (kind : Look) (next : Goto)
  /-- Reads the byte. -/
  | char (byte : Int) (next : Goto)
  /-- Reads a byte of the interval. -/
  | span (range : Interval) (next : Goto)
  /-- Reads a byte of one of the intervals. -/
  | oneOf (ranges : List Interval) (next : Goto)
  | nop (next : Goto)
deriving DecidableEq

/-- Which goto of an instruction. -/
inductive Slot where
  | next
  | first
  | second
deriving DecidableEq

/-- A goto that waits for its target. -/
structure Hole where
  position : Nat
  slot : Slot
deriving DecidableEq

/-- The instruction with one goto set, if it has that goto. -/
def Inst.goto? (target : Goto) : Slot → Inst → Option Inst
  | .next, .save slot _ => some (.save slot target)
  | .next, .look kind _ => some (.look kind target)
  | .next, .char byte _ => some (.char byte target)
  | .next, .span range _ => some (.span range target)
  | .next, .oneOf ranges _ => some (.oneOf ranges target)
  | .next, .nop _ => some (.nop target)
  | .first, .split _ second => some (.split target second)
  | .second, .split first _ => some (.split first target)
  | _, _ => none

structure Program where
  insts : Array Inst
  /-- Where every run starts. -/
  entry : Nat
  /-- The texts of the patterns. -/
  patterns : List String
  /-- For each instruction the index of the pattern it comes from. -/
  origins : List (Option Nat)

namespace Program

def get (p : Program) (position : Nat) : Except Error Inst :=
  match p.insts[position]? with
  | some inst => .ok inst
  | none => .error .noInstruction

/-- The instruction a goto leads to; a hole leads nowhere. -/
def target : Goto → Except Error Nat
  | .ofNat position => .ok position
  | .negSucc _ => .error .noInstruction

/-- Follows at most so many idle instructions. -/
def skipUpTo (p : Program) : Nat → Nat → Except Error Nat
  | 0, position => .ok position
  | fuel + 1, position => do
    match ← p.get position with
    | .nop next => p.skipUpTo fuel (← target next)
    | _ => return position

/-- The first position from here on that is not idle. A chain of idle instructions that does not
run in a circle is no longer than the program. -/
def skip (p : Program) (position : Nat) : Except Error Nat :=
  p.skipUpTo (p.insts.size + 1) position

/-- The first position from a goto on that is not idle. -/
def follow (p : Program) (next : Goto) : Except Error Nat := do
  p.skip (← target next)

/-- The pattern and the index of the pattern that an instruction was compiled from. -/
def origin (p : Program) (position : Nat) : Option String × Option Nat :=
  match p.origins[position]? with
  | some (some index) => (p.patterns[index]?, some index)
  | _ => (none, none)

end Program

end Munch
