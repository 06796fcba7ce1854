/-
What the construction of a pattern set reports. Each stage reports when it is done, under a name of
its own; with the verbose option it also shows the table it made. Where a stage fails, the report
ends with what was done before.
-/
import Munch.PatternSet
import Munch.Program.Text
import Munch.Table.Text

namespace Munch

open Text

/-- One report: the name of the stage, and what it says. -/
structure Entry where
  logger : String
  message : String

/-- The level of all reports. -/
def Entry.level : String := "DEBUG"

/-- The report as a line of a log. -/
def Entry.line (e : Entry) : String :=
  Entry.level ++ " " ++ e.logger ++ ": " ++ e.message ++ "\n"

namespace Trace

def ofProgram (verbose : Bool) (p : Program) (patterns : Nat) : List Entry :=
  ⟨"re_set.program", s!"compiled {patterns} patterns into {p.insts.size} instructions"⟩ ::
    if verbose then [⟨"re_set.library", "program:\n" ++ p.text⟩] else []

def ofRaw (verbose : Bool) (raw : RawTable) (instructions : Nat) : List Entry :=
  if raw.initial.isNone then []
  else
    ⟨"re_set.builder", s!"built {raw.table.steps.size} raw steps ({raw.table.ends.size} " ++
      s!"accepting) from {instructions} instructions"⟩ ::
    if verbose then [⟨"re_set.builder", "raw steps:\n" ++ raw.table.text⟩] else []

/-- One report for each merged step, in the order in which they were made. -/
def ofMerges (verbose : Bool) (r : Resolution) : List Entry :=
  if verbose then
    r.merged.map fun (members, step) =>
      ⟨"re_set.resolver",
        "merged steps [" ++ ", ".intercalate (members.map toString) ++ s!"] into {step}"⟩
  else []

def ofResolved (verbose : Bool) (r : Resolution) : List Entry :=
  ⟨"re_set.resolver",
    s!"resolved {r.resolved.size} steps, {r.merged.length} of them merged"⟩ ::
  if verbose then
    [⟨"re_set.resolver", "resolved steps:\n" ++ (ResolutionM.resolvedTable r).text⟩]
  else []

/-- Renumbering is reported if it changes anything. -/
def ofCompaction (t : Table) : List Entry :=
  match t.ids.head?, t.ids.getLast? with
  | some first, some last =>
    if last = t.ids.length - 1 then []
    else [⟨"re_set.compactor",
      s!"compacted step ids {first}..{last} into 0..{t.ids.length - 1}"⟩]
  | _, _ => []

def ofMachine (m : Machine) : List Entry :=
  match m.stepSize with
  | .ok size =>
    [⟨"re_set.library", s!"pattern set of {m.patterns.length} compiled into " ++
      s!"{m.table.steps.size} steps of {size} bits"⟩]
  | .error _ => []

def ofRoutine (r : Routine) : List Entry :=
  [⟨"re_set.codegen", s!"emitted {r.lines.length} lines of python for " ++ quoted r.name⟩]

/-- The emission of the function of a machine. -/
def emission (m : Machine) (name : String) : List Entry :=
  match m.routine name with
  | .ok r => ofRoutine r
  | .error _ => []

/-- From the resolved table on. -/
def fromTable (patterns : List String) (o : Options) (t : Table) (initial : StepId) :
    List Entry :=
  match t.check, t.renumber (some initial) with
  | .ok (), .ok (table, initial) =>
    let machine : Machine := ⟨table, initial, patterns⟩
    ofCompaction t ++ ofMachine machine ++
      if o.useCodegen then emission machine o.functionName else []
  | _, _ => []

/-- From the raw table on. -/
def fromRaw (patterns : List String) (o : Options) (raw : RawTable) (nextStep : StepId) :
    List Entry :=
  match raw.initial with
  | none => []
  | some initial =>
    match EStateM.run (ResolutionM.resolveFrom initial)
        (Resolution.ofRaw raw nextStep o.maxSteps) with
    | .error _ r => ofMerges o.verbose r
    | .ok _ r =>
      ofMerges o.verbose r ++ ofResolved o.verbose r ++
        fromTable patterns o (ResolutionM.resolvedTable r) initial

/-- From the program on. -/
def fromProgram (patterns : List String) (o : Options) (p : Program) : List Entry :=
  ofProgram o.verbose p patterns.length ++
    match RawTable.ofProgram p with
    | .error _ => []
    | .ok raw => ofRaw o.verbose raw p.insts.size ++ fromRaw patterns o raw p.insts.size

/-- All that the construction of the set of the patterns reports. -/
def ofPatterns (patterns : List String) (o : Options) : List Entry :=
  match o.check, Tree.parseAll 0 patterns with
  | .ok (), .ok trees =>
    match Program.ofTrees trees patterns with
    | .ok p => fromProgram patterns o p
    | .error _ => []
  | _, _ => []

end Trace

end Munch
