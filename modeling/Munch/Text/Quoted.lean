/-
Quoted text. A text is put in single quotes, or in double quotes if that saves escaping the single
quotes in it. Printable characters stand for themselves; the quote in use, the backslash and all
that does not print is escaped, so a quoted text holds no line break and ends where it should.
-/
import Munch.Text.Byte
import Munch.Text.Printable

namespace Munch.Text

/-- One character inside the given quotes. -/
def escapeIn (quote c : Char) : List Char :=
  if c = quote ∨ c = '\\' then ['\\', c]
  else if c = '\t' then ['\\', 't']
  else if c = '\n' then ['\\', 'n']
  else if c = '\r' then ['\\', 'r']
  else if isPrintable c then [c]
  else if c.toNat ≤ 0xff then '\\' :: 'x' :: hex 2 c.toNat
  else if c.toNat ≤ 0xffff then '\\' :: 'u' :: hex 4 c.toNat
  else '\\' :: 'U' :: hex 8 c.toNat

/-- Double quotes for a text with single quotes and no double ones, else single quotes. -/
def quoteFor (cs : List Char) : Char :=
  if cs.contains '\x27' && !cs.contains '\x22' then '\x22' else '\x27'

def quotedChars (cs : List Char) : List Char :=
  quoteFor cs :: cs.flatMap (escapeIn (quoteFor cs)) ++ [quoteFor cs]

def quoted (s : String) : String :=
  String.ofList (quotedChars s.toList)

/-- A text that may be absent. -/
def quotedOption : Option String → String
  | none => "None"
  | some s => quoted s

/-- A list of texts in brackets. -/
def quotedList (texts : List String) : String :=
  "[" ++ ", ".intercalate (texts.map quoted) ++ "]"

end Munch.Text
