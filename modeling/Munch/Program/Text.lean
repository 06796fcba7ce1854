/-
Programs as text: one line for each instruction, the entry marked.
-/
import Munch.Program.Basic

namespace Munch

open Text

def Inst.text : Inst → String
  | .accept index => s!"match {index}"
  | .save slot next => s!"save {slot} -> {next}"
  | .split first second => s!"split {first}, {second}"
  | .look kind next => s!"look {kind.text} -> {next}"
  | .char byte next => s!"char {byteText byte} -> {next}"
  | .span range next => s!"bytes {byteText range.lo}-{byteText range.hi} -> {next}"
  | .oneOf ranges next =>
    "ranges " ++ " ".intercalate (ranges.map fun r => byteText r.lo ++ "-" ++ byteText r.hi) ++
      s!" -> {next}"
  | .nop next => s!"nop -> {next}"

/-- A position with zeros in front up to the width. -/
def Program.positionText (width position : Nat) : String :=
  let digits := toString position
  String.ofList (List.replicate (width - digits.length) '0') ++ digits

def Program.text (p : Program) : String :=
  let width := (toString (p.insts.size - 1)).length
  String.join (p.insts.toList.zipIdx.map fun (inst, position) =>
    (if position = p.entry then ">" else " ") ++ positionText width position ++ ": " ++
      inst.text ++ "\n")

end Munch
