/-
From the text of a pattern to its tree, and from a text to the pattern that stands for it.
Alternatives hold concatenations, these hold items, and an item is an atom with repetition suffixes.
Only groups nest, so the reader of an expression is given to the readers below it, and the depth of
nesting is bounded by the length of the text.
-/
import Munch.Error
import Munch.Pattern.Repetition
import Munch.Pattern.SymbolSet
import Munch.Text.Identifier

namespace Munch

open Text

/-- A character as a tree: the bytes of its encoding in a row. -/
def Tree.ofChar (c : Char) : Tree :=
  match String.utf8EncodeChar c with
  | [b] => .symbol (.single b.toNat)
  | bytes => .concat (bytes.map fun b => .symbol (.single b.toNat))

namespace Reader

/-- Characters that stand for themselves only behind a backslash. -/
def isMeta (c : Char) : Bool :=
  ['|', '\\', '.', '*', '+', '?', '{', '^', '$', '(', ')', '['].contains c

/-- Characters that start a repetition suffix. -/
def startsSuffix (c : Char) : Bool :=
  ['*', '+', '?', '{'].contains c

/-- An escape outside of symbol sets. -/
def escape : Reader Tree := do
  advance 1
  match ← next with
  | none => fail .incompleteEscape
  | some c =>
    match Escape.classOf? c, Escape.byteOf? c with
    | some s, _ => return .symbol s.accepting
    | none, some b => return .symbol (.single b)
    | none, none =>
      if c = 'x' then return .symbol (.single (← hexByte))
      else if isAlphanumeric c then fail (.badEscape c)
      else return .ofChar c

/-- The dot, an escape or a character that stands for itself. -/
def symbol : Reader Tree := do
  if ← accepts ['.'] then return .symbol .dot
  else match ← peek with
    | none => fail (.unexpected none)
    | some c =>
      if c = '\\' then escape
      else if isMeta c then fail (.unexpected (some c))
      else
        advance 1
        return .ofChar c

/-- An assertion. -/
def look : Reader (Option Look) := do
  if ← accepts ['^'] then return some .startLine
  else if ← accepts ['$'] then return some .endLine
  else match ← get with
    | c :: d :: rest =>
      if c = '\\' then
        match Escape.lookOf? d with
        | some kind =>
          set rest
          return some kind
        | none => return none
      else return none
    | _ => return none

/-- The name of a group up to the bracket that closes it. -/
def groupName : Reader String := do
  let name := String.ofList (← takeWhile (· != '>'))
  if isIdentifier name then
    if ← accepts ['>'] then return name else fail (.expected ">")
  else fail .expectedGroupName

/-- What an opening parenthesis makes of its group: whether it captures, and under what name. -/
def groupKind : Reader (Bool × Option String) := do
  if ← accepts ['?'] then
    if ← accepts [':'] then return (false, none)
    else if (← sees ['=']) || (← sees ['!']) || (← sees ['<', '=']) || (← sees ['<', '!']) then
      throw .lookaround
    else if ← accepts ['P', '<'] then return (true, some (← groupName))
    else if ← accepts ['<'] then return (true, some (← groupName))
    else fail .unknownGroup
  else return (true, none)

/-- An expression in parentheses. -/
def group (expr : Reader Tree) : Reader (Option Tree) := do
  if ← accepts ['('] then
    let (capturing, name) ← groupKind
    let body ← expr
    if ← accepts [')'] then return some (.group body capturing name)
    else fail (.expected ")")
  else return none

/-- A group, a symbol set, an assertion or a symbol. -/
def atom (expr : Reader Tree) : Reader (Option Tree) := do
  match ← peek with
  | none => return none
  | some c =>
    if c = '|' ∨ c = ')' then return none
    else if startsSuffix c then fail .nothingToRepeat
    else match ← group expr with
      | some t => return some t
      | none =>
        match ← symbolSet with
        | some s => return some (.symbol s)
        | none =>
          match ← look with
          | some kind => return some (.look kind)
          | none => return some (← symbol)

/-- An atom with its repetition suffixes, the innermost first. -/
def item (expr : Reader Tree) : Reader (Option Tree) := do
  match ← atom expr with
  | none => return none
  | some t =>
    let suffixes ← many (suffix t.isLook)
    return some (suffixes.foldl (fun t s => .repeated t s.min (s.max.map Int.ofNat) s.greedy) t)

/-- Items one after the other, if there are any. -/
def concat (expr : Reader Tree) : Reader (Option Tree) := do
  match ← many (item expr) with
  | [] => return none
  | [t] => return some t
  | ts => return some (.concat ts)

/-- One alternative, which may be empty. -/
def branch (expr : Reader Tree) : Reader Tree := do
  return (← concat expr).getD .epsilon

/-- A bar and the alternative after it. -/
def nextBranch (expr : Reader Tree) : Reader (Option Tree) := do
  if ← accepts ['|'] then return some (← branch expr) else return none

/-- Alternatives, each kept once. -/
def alternatives (expr : Reader Tree) : Reader Tree := do
  let first ← branch expr
  let others ← many (nextBranch expr)
  match (first :: others).eraseDups with
  | [t] => return t
  | ts => return .alt ts

/-- An expression whose groups nest at most so deep. That the host refuses to nest calls beyond some
depth of its own, here and in all that follows a tree, is left out. -/
def exprUpTo : Nat → Reader Tree
  | 0 => fail (.unexpected (some '('))
  | depth + 1 => alternatives (exprUpTo depth)

/-- An expression. Each group takes a character, so none nests deeper than there are characters. -/
def expr : Reader Tree := do
  exprUpTo ((← get).length + 1)

/-- An expression with nothing after it. -/
def pattern : Reader Tree := do
  let t ← expr
  match ← peek with
  | none => return t
  | some c => if c = ')' then fail .unbalanced else fail (.unexpected (some c))

end Reader

/-- What stopped a reader, as an error at a position of the pattern. -/
def Stop.error (position : Nat) : Stop → Error
  | .fault f => .of (.malformed f position)
  | .lookaround => .of (.unsupported .lookaround none)
  | .numeral f => .numeral f
  | .noCharacter => .noCharacter

/-- Runs a reader on a text; an error has the position where the reader stopped. -/
def Reader.run {α : Type} (read : Reader α) (text : List Char) : Except Error α :=
  match EStateM.run read text with
  | .ok a _ => .ok a
  | .error stop rest => .error (stop.error (text.length - rest.length))

/-- The tree of a pattern. -/
def Tree.parse (pattern : String) : Except Error Tree :=
  Reader.pattern.run pattern.toList

/-- The pattern that stands for just the text: every character with a meaning of its own gets a
backslash in front. -/
def literal (text : String) : String :=
  String.ofList (text.toList.flatMap fun c => if Reader.isMeta c then ['\\', c] else [c])

end Munch
