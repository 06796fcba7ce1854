/-
Programs in the making. Instructions are only added at the end; what changes later are the gotos that
were left as holes. `push` and `link` are the two things that can be done, and `linkHere` links to the
instruction that comes next.
-/
import Munch.Program.Basic

namespace Munch

/-- The program so far. -/
structure Assembly where
  insts : Array Inst
  /-- For each instruction the pattern it was added for. -/
  origins : Array (Option Nat)
  /-- The index of the pattern that instructions are added for. -/
  pattern : Option Nat
  /-- The next free slot for a capture group; the first two are for the whole match. -/
  nextSlot : Nat

/-- Nothing added yet. -/
def Assembly.empty : Assembly := ⟨#[], #[], none, 2⟩

abbrev AssemblyM := EStateM Error Assembly

/-- A block of instructions: where it is entered, and the holes it is left through. -/
structure Fragment where
  entry : Nat
  holes : List Hole

namespace AssemblyM

/-- The position of the next instruction. -/
def here : AssemblyM Nat :=
  return (← get).insts.size

/-- Adds an instruction, returns its position. -/
def push (inst : Inst) : AssemblyM Nat := do
  let a ← get
  set { a with insts := a.insts.push inst, origins := a.origins.push a.pattern }
  return a.insts.size

/-- Lets a hole lead to the position. -/
def linkHole (target : Goto) (hole : Hole) : AssemblyM Unit := do
  let a ← get
  match a.insts[hole.position]? with
  | none => throw .noInstruction
  | some inst =>
    match inst.goto? target hole.slot with
    | none => throw .noHole
    | some inst => set { a with insts := a.insts.set! hole.position inst }

/-- Lets all holes lead to the position. -/
def link (target : Goto) : List Hole → AssemblyM Unit
  | [] => return ()
  | hole :: holes => do
    linkHole target hole
    link target holes

/-- Lets all holes lead to the next instruction. -/
def linkHere (holes : List Hole) : AssemblyM Unit := do
  link (← here) holes

/-- A block of one instruction. -/
def leaf (inst : Inst) : AssemblyM Fragment := do
  let position ← push inst
  return ⟨position, [⟨position, .next⟩]⟩

end AssemblyM

end Munch
