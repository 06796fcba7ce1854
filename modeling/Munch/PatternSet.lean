/-
Pattern sets: several patterns that are matched at once, in a single pass over the data. The longest
match wins, and of several the one of the first pattern.
-/
import Munch.Emit.Load
import Munch.Options
import Munch.Pattern.Parser
import Munch.Program.OfTrees
import Munch.Table.Resolution
import Munch.Text.Utf8

namespace Munch

/-- A rejection of a pattern blames the pattern. -/
def Error.inPattern (pattern : String) (index : Nat) : Error → Error
  | .rejected r => .rejected (r.blame (some pattern) (some index))
  | e => e

/-- The trees of the patterns, which are numbered from `index` on. -/
def Tree.parseAll (index : Nat) : List String → Except Error (List Tree)
  | [] => .ok []
  | p :: ps =>
    match Tree.parse p with
    | .error e => .error (e.inPattern p index)
    | .ok t => return t :: (← Tree.parseAll (index + 1) ps)

/-- The machine that matches all patterns at once. -/
def Machine.compile (patterns : List String) (maxSteps : Option Int) : Except Error Machine := do
  let trees ← Tree.parseAll 0 patterns
  let program ← Program.ofTrees trees patterns
  let raw ← RawTable.ofProgram program
  match raw.initial with
  | none => throw (.of (.empty none))
  | some initial =>
    let resolved ← raw.resolve initial program.insts.size maxSteps
    let (table, initial) ← resolved.renumber (some initial)
    let machine : Machine := ⟨table, initial, patterns⟩
    let _ ← machine.stepSize
    return machine

/-- A match in some data. -/
structure Match where
  index : PatternIndex
  start : Nat
  stop : Nat
  /-- The matched bytes. -/
  group : List UInt8

/-- The matched bytes as a text. -/
def Match.text (m : Match) : String :=
  Text.decode m.group

structure PatternSet where
  machine : Machine
  options : Options
  /-- The function that does the matching, if it is not the machine. -/
  function : Option Matcher

namespace PatternSet

/-- The source of the function emitted for the set. -/
def source (s : PatternSet) : Except Error String :=
  return (← s.machine.routine s.options.functionName).text

/-- A set that matches with a machine. If it is to match with the emitted function, the source of
that is loaded, with room for so many levels of branches, or for all. -/
def ofMachine (machine : Machine) (options : Options) (room : Option Nat := none) :
    Except Error PatternSet := do
  if options.useCodegen then
    let routine ← machine.routine options.functionName
    return ⟨machine, options, some (← Matcher.load routine.text options.functionName room)⟩
  else return ⟨machine, options, none⟩

/-- The set of the patterns. -/
def compile (patterns : List String) (options : Options) (room : Option Nat := none) :
    Except Error PatternSet := do
  options.check
  ofMachine (← Machine.compile patterns options.maxSteps) options room

/-- The longest match of the bytes that are left at an offset. -/
def run (s : PatternSet) (offset : Nat) (rest : List UInt8) : Except Error (Option Hit) :=
  match s.function with
  | some function => function.run offset rest
  | none => s.machine.run offset rest

/-- The match that a hit stands for, `rest` being the bytes from its start on. -/
def toMatch (start : Nat) (rest : List UInt8) (hit : Hit) : Match :=
  ⟨hit.index, start, hit.stop, rest.take (hit.stop - start)⟩

/-- The longest match that starts exactly at the offset. -/
def find (s : PatternSet) (data : List UInt8) (start : Int) : Except Error (Option Match) := do
  if 0 ≤ start ∧ start ≤ data.length then
    let rest := data.drop start.toNat
    return (← s.run start.toNat rest).map (toMatch start.toNat rest)
  else throw (.startOutside start data.length)

/-- The first match in the bytes that are left which is not empty, and the bytes behind it. -/
def nextMatch (s : PatternSet) (offset : Nat) :
    List UInt8 → Except Error (Option (Match × List UInt8))
  | [] => return none
  | b :: rest => do
    match ← s.run offset (b :: rest) with
    | some hit =>
      if hit.stop = offset then s.nextMatch (offset + 1) rest
      else return some (toMatch offset (b :: rest) hit, (b :: rest).drop (hit.stop - offset))
    | none => s.nextMatch (offset + 1) rest

end PatternSet

/-- A scan of some data for matches that are not empty and do not overlap. -/
structure Scan where
  set : PatternSet
  offset : Nat
  rest : List UInt8

namespace Scan

/-- A scan that has not started. -/
def start (set : PatternSet) (data : List UInt8) : Scan := ⟨set, 0, data⟩

/-- The scan at the end of its data. -/
def ended (s : Scan) : Scan := ⟨s.set, s.offset + s.rest.length, []⟩

/-- The next match, and the scan from there on. Without a match the scan is at the end, and so it is
behind an error. -/
def next (s : Scan) : Except Error (Option Match) × Scan :=
  match s.set.nextMatch s.offset s.rest with
  | .ok (some (found, rest)) => (.ok (some found), ⟨s.set, found.stop, rest⟩)
  | .ok none => (.ok none, s.ended)
  | .error e => (.error e, s.ended)

/-- At most so many of the next matches. -/
def take (s : Scan) : Nat → Except Error (List Match)
  | 0 => return []
  | fuel + 1 =>
    match s.next with
    | (.ok (some found), s) => return found :: (← s.take fuel)
    | (.ok none, _) => return []
    | (.error e, _) => throw e

end Scan

namespace PatternSet

/-- All matches that are not empty and do not overlap, from the left. Each takes at least a byte. -/
def matchesIn (s : PatternSet) (data : List UInt8) : Except Error (List Match) :=
  (Scan.start s data).take data.length

/-- The bytes of all these matches. -/
def findAll (s : PatternSet) (data : List UInt8) : Except Error (List (List UInt8)) :=
  return (← s.matchesIn data).map (·.group)

end PatternSet

end Munch
