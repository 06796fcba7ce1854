/-
Texts as bytes. Decoding never fails: where bytes do not go on as they have to, the longest part
that could have become a character is replaced as a whole, and decoding starts again behind it.
-/

namespace Munch.Text

/-- The bytes of a text. -/
def utf8 (s : String) : List UInt8 :=
  s.toList.flatMap String.utf8EncodeChar

/-- What stands for bytes that make no character. -/
def replacement : Char := '\ufffd'

/-- A character whose first bytes have been read. -/
structure Partial where
  /-- The bits read so far. -/
  value : Nat
  /-- How many bytes are missing, less one. -/
  more : Nat
  /-- The least and the greatest byte that may come next. -/
  low : Nat
  high : Nat

/-- What a byte starts. -/
inductive Lead where
  | char (c : Char)
  | open (p : Partial)
  | bad

/-- What a byte starts. The byte after some of them is restricted, so that no character has two
encodings and none stands for half of a pair. -/
def lead (b : Nat) : Lead :=
  if b < 0x80 then .char (Char.ofNat b)
  else if b < 0xc2 then .bad
  else if b < 0xe0 then .open ⟨b - 0xc0, 0, 0x80, 0xbf⟩
  else if b = 0xe0 then .open ⟨0, 1, 0xa0, 0xbf⟩
  else if b = 0xed then .open ⟨0xd, 1, 0x80, 0x9f⟩
  else if b < 0xf0 then .open ⟨b - 0xe0, 1, 0x80, 0xbf⟩
  else if b = 0xf0 then .open ⟨0, 2, 0x90, 0xbf⟩
  else if b < 0xf4 then .open ⟨b - 0xf0, 2, 0x80, 0xbf⟩
  else if b = 0xf4 then .open ⟨4, 2, 0x80, 0x8f⟩
  else .bad

/-- The characters of the bytes, the first of which may go on with a character begun before. -/
def decodeFrom : Option Partial → List UInt8 → List Char
  | none, [] => []
  | some _, [] => [replacement]
  | state, b :: rest =>
    let start :=
      match lead b.toNat with
      | .char c => c :: decodeFrom none rest
      | .open p => decodeFrom (some p) rest
      | .bad => replacement :: decodeFrom none rest
    match state with
    | none => start
    | some p =>
      if p.low ≤ b.toNat ∧ b.toNat ≤ p.high then
        let value := 64 * p.value + b.toNat % 64
        match p.more with
        | 0 => Char.ofNat value :: decodeFrom none rest
        | more + 1 => decodeFrom (some ⟨value, more, 0x80, 0xbf⟩) rest
      else replacement :: start

/-- The text of the bytes. -/
def decode (bytes : List UInt8) : String :=
  String.ofList (decodeFrom none bytes)

end Munch.Text
