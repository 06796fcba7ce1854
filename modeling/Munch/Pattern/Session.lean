/-
Reading step by step. A cursor stands at a position of a text; a request runs one reader from there
and leaves the cursor where the reader came to, also when it failed. A cursor may be put behind the
end of the text, where there is nothing to read.
-/
import Munch.Pattern.Parser

namespace Munch

structure Cursor where
  text : List Char
  position : Nat

/-- What can be asked of a cursor. -/
inductive Cursor.Request where
  | load (text : String)
  | seek (position : Nat)
  | peek (ahead : Int)
  | sees (text : String)
  | accepts (text : String)
  | advance (count : Int)
  | parse (text : String)
  | expr
  | concat
  | item
  | atom
  | group
  | look
  | symbol
  | escape
  | hexByte
  | member
  | symbolSet
  | namedClass
  | counts
  | number
  /-- The characters up to the one that makes up the text. -/
  | takeUntil (stop : String)

inductive Cursor.Answer where
  | nothing
  | flag (b : Bool)
  | number (n : Int)
  | text (s : String)
  | tree (t : Tree)
  | ranges (rs : List Interval)
  | bounds (min : Nat) (max : Option Nat)

namespace Cursor

/-- What is left to read. -/
def rest (c : Cursor) : List Char :=
  c.text.drop c.position

/-- The cursor after a reader that left so many characters. A reader that consumes without looking
comes back to the end of the text from behind it, the others stay where they are. -/
def leave (c : Cursor) (settles : Bool) (left : Nat) : Cursor :=
  if settles || c.position ≤ c.text.length then ⟨c.text, c.text.length - left⟩ else c

/-- Runs a reader from where the cursor stands. -/
def run {α : Type} (c : Cursor) (settles : Bool) (read : Reader α) : Except Error α × Cursor :=
  match EStateM.run read c.rest with
  | .ok a rest => (.ok a, c.leave settles rest.length)
  | .error stop rest =>
    let after := c.leave settles rest.length
    (.error (stop.error after.position), after)

/-- A reader that may return nothing. -/
def optional {α : Type} (f : α → Answer) (read : Reader (Option α)) : Reader Answer := do
  match ← read with
  | none => return .nothing
  | some a => return f a

def memberAnswer : Reader.Member → Answer
  | .byte b => .number b
  | .set s => .tree (.symbol s)

def textAnswer (cs : List Char) : Answer :=
  if cs.isEmpty then .nothing else .text (String.ofList cs)

/-- Answers a request and moves the cursor. -/
def answer (c : Cursor) : Request → Except Error Answer × Cursor
  | .load text => (.ok .nothing, ⟨text.toList, 0⟩)
  | .seek position => (.ok .nothing, ⟨c.text, position⟩)
  | .peek ahead =>
    (.ok (.text (String.ofList (c.text[(c.position + ahead).toNat]?).toList)), c)
  | .sees text => c.run false (.flag <$> Reader.sees text.toList)
  | .accepts text => c.run false (.flag <$> Reader.accepts text.toList)
  | .advance count =>
    (.ok .nothing, ⟨c.text, min (c.position + count).toNat c.text.length⟩)
  | .parse text => (Cursor.mk text.toList 0).run false (.tree <$> Reader.pattern)
  | .expr => c.run false (.tree <$> Reader.expr)
  | .concat => c.run false (optional .tree (Reader.concat Reader.expr))
  | .item => c.run false (optional .tree (Reader.item Reader.expr))
  | .atom => c.run false (optional .tree (Reader.atom Reader.expr))
  | .group => c.run false (optional .tree (Reader.group Reader.expr))
  | .look => c.run false (optional (.tree ∘ .look) Reader.look)
  | .symbol => c.run false (.tree <$> Reader.symbol)
  | .escape => c.run true (.tree <$> Reader.escape)
  | .hexByte => c.run false (.number <$> Reader.hexByte)
  | .member => c.run true (memberAnswer <$> Reader.member)
  | .symbolSet => c.run false (optional (.tree ∘ .symbol) Reader.symbolSet)
  | .namedClass => c.run true (.ranges <$> Reader.namedClass)
  | .counts => c.run false ((fun b => .bounds b.1 b.2) <$> Reader.counts)
  | .number => c.run false (optional (fun n : Nat => .number n) Reader.number)
  | .takeUntil stop =>
    c.run false (textAnswer <$> Reader.takeWhile fun d => String.singleton d != stop)

end Cursor

end Munch
