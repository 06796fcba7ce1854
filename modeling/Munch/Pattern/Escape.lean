/-
Classes of bytes with a name, and what may follow a backslash.
-/
import Munch.Tree.Basic

namespace Munch

namespace ByteSet

def digits : ByteSet := ⟨[⟨0x30, 0x39⟩], true⟩

def spaces : ByteSet := ⟨[⟨0x09, 0x0d⟩, ⟨0x20, 0x20⟩], true⟩

/-- Letters, digits and the underscore. -/
def wordBytes : ByteSet := ⟨[⟨0x30, 0x39⟩, ⟨0x41, 0x5a⟩, ⟨0x5f, 0x5f⟩, ⟨0x61, 0x7a⟩], true⟩

/-- The members and the non-members change places. -/
def negated (s : ByteSet) : ByteSet := ⟨s.ranges, !s.accept⟩

/-- What the dot stands for: every byte but the line feed. -/
def dot : ByteSet := (negated (single 0x0a)).accepting

end ByteSet

namespace Escape

/-- The class that a letter after a backslash stands for. -/
def classOf? : Char → Option ByteSet
  | 'd' => some .digits
  | 'D' => some (.negated .digits)
  | 's' => some .spaces
  | 'S' => some (.negated .spaces)
  | 'w' => some .wordBytes
  | 'W' => some (.negated .wordBytes)
  | _ => none

/-- The control byte that a letter after a backslash stands for. -/
def byteOf? : Char → Option Int
  | 'n' => some 0x0a
  | 't' => some 0x09
  | 'r' => some 0x0d
  | 'f' => some 0x0c
  | 'v' => some 0x0b
  | 'a' => some 0x07
  | '0' => some 0x00
  | _ => none

/-- The assertion that a letter after a backslash stands for. -/
def lookOf? : Char → Option Look
  | 'A' => some .startText
  | 'z' => some .endText
  | 'Z' => some .endText
  | 'b' => some .wordBoundary
  | 'B' => some .notWordBoundary
  | _ => none

/-- The intervals of a class named between `[:` and `:]`. -/
def namedClass? : String → Option (List Interval)
  | "alnum" => some [⟨0x30, 0x39⟩, ⟨0x41, 0x5a⟩, ⟨0x61, 0x7a⟩]
  | "alpha" => some [⟨0x41, 0x5a⟩, ⟨0x61, 0x7a⟩]
  | "ascii" => some [⟨0x00, 0x7f⟩]
  | "blank" => some [⟨0x09, 0x09⟩, ⟨0x20, 0x20⟩]
  | "cntrl" => some [⟨0x00, 0x1f⟩, ⟨0x7f, 0x7f⟩]
  | "digit" => some ByteSet.digits.ranges
  | "graph" => some [⟨0x21, 0x7e⟩]
  | "lower" => some [⟨0x61, 0x7a⟩]
  | "print" => some [⟨0x20, 0x7e⟩]
  | "punct" => some [⟨0x21, 0x2f⟩, ⟨0x3a, 0x40⟩, ⟨0x5b, 0x60⟩, ⟨0x7b, 0x7e⟩]
  | "space" => some ByteSet.spaces.ranges
  | "upper" => some [⟨0x41, 0x5a⟩]
  | "word" => some ByteSet.wordBytes.ranges
  | "xdigit" => some [⟨0x30, 0x39⟩, ⟨0x41, 0x46⟩, ⟨0x61, 0x66⟩]
  | _ => none

end Escape

end Munch
