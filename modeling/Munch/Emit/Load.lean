/-
Sources of functions, read and loaded. Each line that is no comment is read word by word, and the
blocks follow from the depths of the lines. Only what a routine may look like is read. A function
that has been read may still not load: its name can be in the way, or the host, which goes down a
level for every branch in a branch and for every `elif` behind one, runs out of levels.
-/
import Munch.Emit.Routine
import Munch.Text.Composition

namespace Munch

open Text

/-! ## Lines -/

/-- What stands in a word in front of its ending. -/
def before? (ending word : String) : Option String :=
  if ending.toList.isSuffixOf word.toList then
    some (String.ofList (word.toList.take (word.toList.length - ending.toList.length)))
  else none

/-- Decimal digits without zeros in front. -/
def digits? (cs : List Char) : Option Nat :=
  let n := Nat.ofDigitChars 10 cs 0
  if cs = Nat.toDigits 10 n then some n else none

/-- A number in its shortest form. -/
def number? (word : String) : Option Int :=
  match word.toList with
  | '-' :: cs => (digits? cs).map fun n : Nat => -(n : Int)
  | cs => (digits? cs).map fun n : Nat => (n : Int)

/-- A number in front of an ending. -/
def numberBefore? (ending word : String) : Option Int :=
  before? ending word >>= number?

def Test.ofWords? : List String → Option Test
  | ["step", "==", id] => return .step (← numberBefore? ":" id)
  | ["byte", "==", value] => do
    let value ← numberBefore? ":" value
    return .byte ⟨value, value⟩
  | [lo, "<=", "byte", "<=", hi] => return .byte ⟨← number? lo, ← numberBefore? ":" hi⟩
  | _ => none

def Phrase.ofWords? : List String → Option Phrase
  | ["def", name, "bytes,", "start:", "int", "=", "0)", "->", "tuple[int,", "int]", "|", "None:"] =>
    return .define (← before? "(data:" name)
  | ["step", "=", step] => return .setStep (← number? step)
  | ["last", "=", "None"] => some (.startLast none)
  | ["last", "=", index, "start)"] => do
    match index.toList with
    | '(' :: index => return .startLast (some (← numberBefore? "," (String.ofList index)))
    | _ => none
  | ["last", "=", index, "index"] => return .setLast (← numberBefore? "," index)
  | ["index", "=", "start"] => some .setIndex
  | ["length", "=", "len(data)"] => some .setLength
  | ["while", "index", "<", "length:"] => some .loop
  | ["byte", "=", "data[index]"] => some .setByte
  | ["index", "+=", "1"] => some .advance
  | "if" :: test => return .ask true (← Test.ofWords? test)
  | "elif" :: test => return .ask false (← Test.ofWords? test)
  | ["else:"] => some .otherwise
  | ["break"] => some .leave
  | ["return", "last"] => some .giveLast
  | ["return", index, "index"] => return .finish (← numberBefore? "," index)
  | _ => none

namespace Line

/-- Reads a line; four blanks in front are a level of depth. -/
def ofChars? (cs : List Char) : Option Line :=
  let blanks := (cs.takeWhile (· == ' ')).length
  if blanks % 4 = 0 then do
    let words := (cs.dropWhile (· == ' ')).splitOn ' '
    return ⟨blanks / 4, ← Phrase.ofWords? (words.map String.ofList)⟩
  else none

/-- The line is empty but for blanks and a comment. -/
def isSilent (cs : List Char) : Bool :=
  match cs.dropWhile (· == ' ') with
  | [] => true
  | c :: _ => c == '#'

/-- The character ends a line. -/
def isEnd (c : Char) : Bool := c == '\n' || c == '\r'

/-- The lines of a source that say something. -/
def ofSource? (source : String) : Option (List Line) :=
  if source.toList.contains '\x00' then none
  else ((source.toList.splitOnP isEnd).filter (!isSilent ·)).mapM ofChars?

end Line

/-! ## Blocks -/

/-- The body of a branch, which may not be empty. -/
def Block.suite? : Block × List Line → Option (Block × List Line)
  | (.next, _) => none
  | (block, rest) => some (block, rest)

/-- Reads a block at a depth, or what an open branch goes on with, and leaves the other lines. The
first number bounds how many are read. -/
def Block.read? : Nat → Bool → Nat → List Line → Option (Block × List Line)
  | 0, _, _, _ => none
  | _ + 1, _, _, [] => some (.next, [])
  | fuel + 1, opens, depth, line :: rest =>
    if line.depth ≠ depth then some (.next, line :: rest)
    else match opens, line.phrase with
      | true, .ask true test | false, .ask false test => do
        let (yes, rest) ← read? fuel true (depth + 1) rest >>= suite?
        let (no, rest) ← read? fuel false depth rest
        return (.branch test yes no, rest)
      | false, .otherwise => read? fuel true (depth + 1) rest >>= suite?
      | false, _ => some (.next, line :: rest)
      | true, .leave => some (.leave, rest)
      | true, .finish index => some (.finish index, rest)
      | true, .setLast index => do
        let (block, rest) ← read? fuel true depth rest
        return (.setLast index block, rest)
      | true, .setStep step => do
        let (block, rest) ← read? fuel true depth rest
        return (.setStep step block, rest)
      | true, _ => none

/-- The levels of a number; a sign takes one of its own. -/
def numberDepth (n : Int) : Nat := if n < 0 then 2 else 1

def Test.depth : Test → Nat
  | .step id => 1 + numberDepth id
  | .byte range => 1 + max (numberDepth range.lo) (numberDepth range.hi)

/-- How many levels of statements and expressions there are in a block. -/
def Block.depth : Block → Nat
  | .next => 0
  | .leave => 1
  | .finish index => 2 + numberDepth index
  | .setLast index rest => max (2 + numberDepth index) rest.depth
  | .setStep step rest => max (1 + numberDepth step) rest.depth
  | .branch test yes no => 1 + max test.depth (max yes.depth no.depth)

/-! ## Functions -/

namespace Matcher

/-- The function of which these are the lines. -/
def ofLines? : List Line → Option Matcher
  | ⟨0, .define name⟩ :: ⟨1, .setStep initial⟩ :: ⟨1, .startLast accepted⟩ :: ⟨1, .setIndex⟩ ::
      ⟨1, .setLength⟩ :: ⟨1, .loop⟩ :: ⟨2, .setByte⟩ :: ⟨2, .advance⟩ :: lines =>
    match Block.read? (lines.length + 1) true 2 lines with
    | some (body, [⟨1, .giveLast⟩]) =>
      if isIdentifier name then some ⟨name, initial, accepted, body⟩ else none
    | _ => none
  | _ => none

/-- The function in a source. -/
def read? (source : String) : Option Matcher :=
  Line.ofSource? source >>= ofLines?

end Matcher

namespace Routine

/-- Words of the emitted language that cannot name a function. -/
def reservedWords : List String :=
  ["False", "None", "True", "and", "as", "assert", "async", "await", "break", "class", "continue",
    "def", "del", "elif", "else", "except", "finally", "for", "from", "global", "if", "import", "in",
    "is", "lambda", "nonlocal", "not", "or", "pass", "raise", "return", "try", "while", "with",
    "yield"]

/-- A constant of the emitted language, which no function can replace however its name is written. -/
def constantName : String := "__debug__"

end Routine

namespace Matcher

/-- The levels that the host has for the body of the loop if three calls lead to its compiler: it
allows three levels for each of 1000 calls, and two of them lie around the body. -/
def hostRoom : Nat := 3 * (1000 - 3) - 2

/-- Loads the function in a source under a name, with room for so many levels, or for all. The
function is found again unless the emitted language takes its name for another, as it does where
characters can be composed. -/
def load (source name : String) (room : Option Nat) : Except Error Matcher :=
  match read? source with
  | none => .error (.unreadable name)
  | some f =>
    if Routine.reservedWords.contains f.name then .error (.reservedName f.name)
    else if room.any (· < f.body.depth) then .error (.tooDeep f.name)
    else if normalizesTo Routine.constantName f.name then .error (.reservedName f.name)
    else if f.name == name && isComposed f.name then .ok f
    else .error (.lostName name)

end Matcher

end Munch
