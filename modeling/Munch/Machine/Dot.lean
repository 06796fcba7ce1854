/-
Machines as graphs in the dot language.
-/
import Munch.Interval.Basic
import Munch.Machine.Basic

namespace Munch.Machine

/-- A backslash is written twice, and a quote behind a backslash. -/
def dotEscape (s : String) : String :=
  String.ofList (s.toList.flatMap fun c => if c = '\\' ∨ c = '\x22' then ['\\', c] else [c])

def quote (s : String) : String :=
  "\"" ++ s ++ "\""

/-- The edges of a case; what its conditions remember is dashed. -/
def dotCase (step : StepId) (c : Case) : String :=
  let label := dotEscape c.range.text
  match c.transition with
  | .accept index => s!"n{step} -> accept{index} [label=" ++ quote label ++ "];\n"
  | .go target conditions =>
    let asked := if conditions.isEmpty then "" else
      "\\n" ++ " ".intercalate (conditions.map fun c => s!"{c.step}?")
    s!"n{step} -> n{target} [label=" ++ quote (label ++ asked) ++ "];\n" ++
      String.join (conditions.map fun c =>
        s!"n{step} -> n{c.step} [style=dashed arrowhead=none];\n")

/-- The node of a step; steps that accept on arrival have a double circle. -/
def dotStep (m : Machine) (step : StepId) : String :=
  let start := if step = m.initial then ["style=empty"] else []
  let accepted :=
    match m.table.ends.get? step with
    | some index => ["shape=doublecircle", "xlabel=" ++ quote (toString index)]
    | none => []
  s!"n{step} [label=" ++ quote (toString step) ++ " " ++ " ".intercalate (start ++ accepted) ++
    "];\n"

/-- The node of a pattern that a case accepts. -/
def dotAccept (index : PatternIndex) : String :=
  s!"accept{index} [label=" ++ quote (toString index) ++ " shape=doublecircle style=empty];\n"

/-- The patterns that cases accept, in ascending order. -/
def acceptedByCases (m : Machine) : List PatternIndex :=
  sortDistinct (m.table.steps.entries.flatMap fun e => e.2.filterMap fun c =>
    match c.transition with
    | .accept index => some index
    | .go _ _ => none)

/-- The graph of the machine. -/
def dot (m : Machine) : String :=
  "digraph G \x7b\n" ++
  "rankdir=LR\n" ++
  "node [label=\"\", shape=circle, style=filled, fontname=Courier];\n" ++
  "edge[arrowhead=vee fontname=Courier]\n" ++
  "\n" ++
  s!"n [shape=point xlabel=\"Start\"] n -> n{m.initial} [style=dotted]\n" ++
  String.join (m.table.steps.entries.map fun e => String.join (e.2.map (dotCase e.1))) ++
  String.join (m.table.steps.keys.map m.dotStep) ++
  String.join (m.acceptedByCases.map dotAccept) ++
  "\x7d\n"

end Munch.Machine
