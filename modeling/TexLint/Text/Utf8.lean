import TexLint.Text.Basic

/-!
# UTF-8

The characters that a file holds, read from its bytes.

## The model

* Bytes are read one at a time. `PendingChar` is a character of which some bytes are
  still to come, with the bounds of the next one; the bounds leave out overlong forms,
  surrogates and what lies beyond the last code point.
* A byte that does not fit ends the pending character, which is then no character, and
  is read anew as a first byte. So `decodeUtf8` gives, in order, the characters and a
  mark for each longest run of bytes that begins one without completing it.
* `text?` refuses bytes with such a mark, `lossyText` puts a replacement character there.
-/

namespace TexLint

/-- The bytes of a file. -/
abbrev Bytes := List UInt8

/-- A character of which some bytes are still to come. -/
structure PendingChar where
  /-- How many bytes are to come. -/
  missing : Nat
  /-- The value of the bytes so far. -/
  value : Nat
  /-- The least value of the next byte. -/
  low : Nat
  /-- The greatest value of the next byte. -/
  high : Nat

/-- The character that begins with a byte, if it has more than one. -/
def PendingChar.ofFirst? (b : Nat) : Option PendingChar :=
  if 0xC2 ≤ b ∧ b ≤ 0xDF then some ⟨1, b - 0xC0, 0x80, 0xBF⟩
  else if b = 0xE0 then some ⟨2, 0, 0xA0, 0xBF⟩
  else if b = 0xED then some ⟨2, 0xD, 0x80, 0x9F⟩
  else if 0xE1 ≤ b ∧ b ≤ 0xEF then some ⟨2, b - 0xE0, 0x80, 0xBF⟩
  else if b = 0xF0 then some ⟨3, 0, 0x90, 0xBF⟩
  else if 0xF1 ≤ b ∧ b ≤ 0xF3 then some ⟨3, b - 0xF0, 0x80, 0xBF⟩
  else if b = 0xF4 then some ⟨3, 4, 0x80, 0x8F⟩
  else none

/-- How far bytes have been read. -/
structure Utf8Reading where
  /-- The characters and the marks for what is none, the last one first. -/
  done : List (Option Char)
  /-- The character being read. -/
  pending : Option PendingChar

namespace Utf8Reading

/-- Reads a first byte. -/
def readFirst (done : List (Option Char)) (b : Nat) : Utf8Reading :=
  if b < 0x80 then ⟨some (Char.ofNat b) :: done, none⟩
  else
    match PendingChar.ofFirst? b with
    | some p => ⟨done, some p⟩
    | none => ⟨none :: done, none⟩

/-- Reads one byte. -/
def next (r : Utf8Reading) (byte : UInt8) : Utf8Reading :=
  let b := byte.toNat
  match r.pending with
  | none => readFirst r.done b
  | some p =>
    if p.low ≤ b ∧ b ≤ p.high then
      let value := p.value * 64 + (b - 0x80)
      if p.missing ≤ 1 then ⟨some (Char.ofNat value) :: r.done, none⟩
      else ⟨r.done, some ⟨p.missing - 1, value, 0x80, 0xBF⟩⟩
    else readFirst (none :: r.done) b

/-- What has been read once there are no more bytes. -/
def finish (r : Utf8Reading) : List (Option Char) :=
  (if r.pending.isSome then none :: r.done else r.done).reverse

end Utf8Reading

/-- The characters that bytes encode, with a mark for what encodes none. -/
def decodeUtf8 (bytes : Bytes) : List (Option Char) :=
  (bytes.foldl Utf8Reading.next ⟨[], none⟩).finish

namespace Bytes

/-- The text that bytes encode, if all of them do. -/
def text? (bytes : Bytes) : Option Text :=
  let decoded := decodeUtf8 bytes
  if decoded.all Option.isSome then some (decoded.filterMap id) else none

/-- The text that bytes encode, with replacement characters for what encodes none. -/
def lossyText (bytes : Bytes) : Text := (decodeUtf8 bytes).map (·.getD '\uFFFD')

/-- The bytes that encode a text. -/
def ofText (text : Text) : Bytes := text.flatMap String.utf8EncodeChar

end Bytes

end TexLint
