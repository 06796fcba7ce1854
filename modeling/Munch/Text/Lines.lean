/-
Splitting a text into lines. Besides the line feed, nine other characters end a line, and a
carriage return with the line feed after it ends one line only. A line end at the end of the text
opens no further line.
-/

namespace Munch.Text

/-- The characters that end a line. -/
def isLineBreak (c : Char) : Bool :=
  ['\n', '\r', '\x0b', '\x0c', '\x1c', '\x1d', '\x1e', '\u0085', '\u2028', '\u2029'].contains c

/-- The lines of a text, without what ends them. -/
def splitLines : List Char → List (List Char)
  | [] => []
  | '\r' :: '\n' :: rest => [] :: splitLines rest
  | c :: rest =>
    if isLineBreak c then [] :: splitLines rest
    else match splitLines rest with
      | [] => [[c]]
      | line :: lines => (c :: line) :: lines

/-- The lines of a text, without what ends them. -/
def lines (s : String) : List String :=
  (splitLines s.toList).map String.ofList

end Munch.Text
