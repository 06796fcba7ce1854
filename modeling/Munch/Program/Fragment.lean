/-
Putting fragments together. Each of these takes actions that add a fragment each, and adds the
fragment that combines them at the end of the program so far. It is entered at an instruction in
front of the parts, or where the first of them is, and keeps the holes through which the parts are
left for good.
-/
import Munch.Program.Assembly

namespace Munch.AssemblyM

/-- One byte of the intervals. Without any, the fragment cannot be left. -/
def symbol : List Interval → AssemblyM Fragment
  | [r] => if r.lo = r.hi then leaf (.char r.lo .hole) else leaf (.span r .hole)
  | ranges => leaf (.oneOf ranges .hole)

/-- One part after the other, each entered from the holes of the one before. Returns the entry,
which is that of the first part unless there was one already, and the holes of the last part. -/
def sequence (entry : Option Nat) (holes : List Hole) :
    List (AssemblyM Fragment) → AssemblyM (Option Nat × List Hole)
  | [] => return (entry, holes)
  | part :: parts => do
    linkHere holes
    let fragment ← part
    sequence (some (entry.getD fragment.entry)) fragment.holes parts

/-- The fragment with the entry, which is only missing if there is no part. -/
def enteredAt (missing : Error) (entry : Option Nat) (holes : List Hole) : AssemblyM Fragment :=
  match entry with
  | none => throw missing
  | some entry => return ⟨entry, holes⟩

def concat (parts : List (AssemblyM Fragment)) : AssemblyM Fragment := do
  let (entry, holes) ← sequence none [] parts
  enteredAt .emptyConcat entry holes

/-- Any of the parts, all but the last entered through a split in front. Returns all their holes. -/
def choice : List (AssemblyM Fragment) → AssemblyM (List Hole)
  | [] => throw .emptyAlt
  | [part] => return (← part).holes
  | part :: parts => do
    let split ← push (.split .hole .hole)
    let fragment ← part
    link fragment.entry [⟨split, .first⟩]
    linkHere [⟨split, .second⟩]
    return fragment.holes ++ (← choice parts)

def alt (parts : List (AssemblyM Fragment)) : AssemblyM Fragment := do
  let entry ← here
  return ⟨entry, ← choice parts⟩

/-- The goto of a split that enters the body of a repetition. -/
def enter (greedy : Bool) : Slot := if greedy then .first else .second

/-- The goto of a split that passes by the body of a repetition. -/
def leave (greedy : Bool) : Slot := if greedy then .second else .first

/-- The body or nothing: its split, the holes of the body, and the one that passes it by. -/
def optionalBody (body : AssemblyM Fragment) (greedy : Bool) :
    AssemblyM (Nat × List Hole × Hole) := do
  let split ← push (.split .hole .hole)
  let fragment ← body
  link fragment.entry [⟨split, enter greedy⟩]
  return (split, fragment.holes, ⟨split, leave greedy⟩)

/-- The body at most once. -/
def optional (body : AssemblyM Fragment) (greedy : Bool) : AssemblyM Fragment := do
  let (split, inner, leaving) ← optionalBody body greedy
  return ⟨split, inner ++ [leaving]⟩

/-- The body any number of times: a split in front, to which the body goes back. -/
def star (body : AssemblyM Fragment) (greedy : Bool) : AssemblyM Fragment := do
  let split ← push (.split .hole .hole)
  let fragment ← body
  link fragment.entry [⟨split, enter greedy⟩]
  link split fragment.holes
  return ⟨split, [⟨split, leave greedy⟩]⟩

/-- The body at least once: a split behind it that goes back to it. -/
def plus (body : AssemblyM Fragment) (greedy : Bool) : AssemblyM Fragment := do
  let fragment ← body
  linkHere fragment.holes
  let split ← push (.split .hole .hole)
  link fragment.entry [⟨split, enter greedy⟩]
  return ⟨fragment.entry, [⟨split, leave greedy⟩]⟩

/-- So many optional bodies, each inside the one before: the entry, the holes that pass by one of the
bodies, and the holes of the innermost. -/
def optionals (body : AssemblyM Fragment) (greedy : Bool) (entry : Option Nat)
    (holes : List Hole) : Nat → AssemblyM (Option Nat × List Hole × List Hole)
  | 0 => return (entry, [], holes)
  | count + 1 => do
    linkHere holes
    let (split, inner, leaving) ← optionalBody body greedy
    let (entry, others, last) ← optionals body greedy (some (entry.getD split)) inner count
    return (entry, leaving :: others, last)

/-- The body `min` to `max` times: the required copies, then a loop or nested optional copies. The
common cases `*`, `?` and `+` take one copy. -/
def repeated (body : AssemblyM Fragment) (min : Int) (max : Option Int) (greedy : Bool) :
    AssemblyM Fragment := do
  if min < 0 then throw .negativeMin
  match max with
  | none =>
    if min = 0 then star body greedy
    else if min = 1 then plus body greedy
    else
      let (entry, holes) ← sequence none [] (List.replicate (min - 1).toNat body)
      linkHere holes
      let fragment ← plus body greedy
      return ⟨entry.getD fragment.entry, fragment.holes⟩
  | some max =>
    if max < min then throw .maxBelowMin
    if max = 0 then leaf (.nop .hole)
    else if min = 0 ∧ max = 1 then optional body greedy
    else
      let (entry, holes) ← sequence none [] (List.replicate min.toNat body)
      let (entry, leaving, last) ← optionals body greedy entry holes (max - min).toNat
      enteredAt .emptyRepeat entry (leaving ++ last)

/-- The body between two instructions that note where it starts and ends. -/
def capture (body : AssemblyM Fragment) : AssemblyM Fragment := do
  let slot := (← get).nextSlot
  modify fun a => { a with nextSlot := slot + 2 }
  let start ← push (.save slot .hole)
  let fragment ← body
  link fragment.entry [⟨start, .next⟩]
  linkHere fragment.holes
  let stop ← push (.save (slot + 1) .hole)
  return ⟨start, [⟨stop, .next⟩]⟩

end Munch.AssemblyM
