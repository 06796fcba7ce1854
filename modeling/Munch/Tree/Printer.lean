/-
Trees as patterns. Every choice and every body of a repetition is put in parentheses that capture
nothing, so no tree needs to know what it stands in.
-/
import Munch.Error
import Munch.Tree.Basic

namespace Munch.Tree

/-- The suffix of a repetition: the short forms where there is one, else counts in braces. -/
def suffixText (min : Int) (max : Option Int) (greedy : Bool) : String :=
  let suffix :=
    match max with
    | none =>
      if min = 0 then "*" else if min = 1 then "+" else "\x7b" ++ toString min ++ ",\x7d"
    | some max =>
      if min = 0 ∧ max = 1 then "?"
      else if min = max then "\x7b" ++ toString min ++ "\x7d"
      else "\x7b" ++ toString min ++ "," ++ toString max ++ "\x7d"
  if greedy then suffix else suffix ++ "?"

/-- The opening of a group. -/
def openingText (capturing : Bool) (name : Option String) : String :=
  if capturing then
    match name with
    | none => "("
    | some name => "(?P<" ++ name ++ ">"
  else "(?:"

mutual

/-- The tree as a pattern; a bare node has no text. -/
def text : Tree → Except Error String
  | .epsilon => return "(?:)"
  | .symbol set => return set.text
  | .concat items => return String.join (← texts items)
  | .alt items => return "(?:" ++ "|".intercalate (← texts items) ++ ")"
  | .repeated body min max greedy =>
    return "(?:" ++ (← text body) ++ ")" ++ suffixText min max greedy
  | .group body capturing name => return openingText capturing name ++ (← text body) ++ ")"
  | .look kind => return kind.text
  | .bare => throw .bareNode

def texts : List Tree → Except Error (List String)
  | [] => return []
  | t :: ts => return (← text t) :: (← texts ts)

end

end Munch.Tree
