import TexLint.Json.Value

/-!
# Writing JSON

The text of a value. Its layout says what stands between the parts of an array or object;
empty ones are written without anything in them.

## The model

* `Layout.indented` is for people to read: every item stands on a line of its own, two
  blanks deeper than what holds it.
* `Layout.compact` has nothing between the parts.
-/

namespace TexLint

namespace Json

/-- A hexadecimal digit in lower case. -/
def hexChar (n : Nat) : Char :=
  if n < 10 then Char.ofNat ('0'.toNat + n) else Char.ofNat ('a'.toNat + n - 10)

/-- How a character is written in a string: quotes, backslashes and control characters
have escapes, the shortest there is. -/
def writtenChar (c : Char) : List Char :=
  if c = '"' then ['\\', '"']
  else if c = '\\' then ['\\', '\\']
  else if c = '\x08' then ['\\', 'b']
  else if c = '\x0c' then ['\\', 'f']
  else if c = '\n' then ['\\', 'n']
  else if c = '\r' then ['\\', 'r']
  else if c = '\t' then ['\\', 't']
  else if c.toNat < 0x20 then
    ['\\', 'u', '0', '0', hexChar (c.toNat / 16), hexChar (c.toNat % 16)]
  else [c]

/-- A string with its quotes. One that stands for no text is written as half a
surrogate pair. -/
def writtenString : JsonString → List Char
  | some s => '"' :: s.toList.flatMap writtenChar ++ ['"']
  | none => "\"\\ud800\"".toList

/-- Whether a character may stand between the parts of a value. -/
def isBlank (c : Char) : Bool := c == ' ' || c == '\n' || c == '\t' || c == '\r'

/-- What stands between the parts of a value. -/
structure Layout where
  /-- What stands before an item that is nested to the given depth. -/
  newLine : Nat → List Char
  /-- What stands before the value of a field. -/
  gap : List Char
  /-- Only blanks stand before an item. -/
  newLine_blank : ∀ depth, ∀ c ∈ newLine depth, isBlank c = true
  /-- Only blanks stand before the value of a field. -/
  gap_blank : ∀ c ∈ gap, isBlank c = true

namespace Layout

/-- The layout with each item on a line of its own. -/
def indented : Layout where
  newLine depth := '\n' :: List.replicate (2 * depth) ' '
  gap := [' ']
  newLine_blank depth c hc := by
    rcases List.mem_cons.1 hc with rfl | hc
    · rfl
    · rw [List.eq_of_mem_replicate hc]
      rfl
  gap_blank := List.all_eq_true.mp rfl

/-- The layout in one line without blanks. -/
def compact : Layout where
  newLine _ := []
  gap := []
  newLine_blank := by simp
  gap_blank := by simp

end Layout

mutual

/-- A value that is nested to the given depth. -/
def written (l : Layout) (depth : Nat) : Json → List Char
  | null => "null".toList
  | bool value => (if value then "true" else "false").toList
  | number lexeme => lexeme.toList
  | string value => writtenString value
  | array [] => "[]".toList
  | array (item :: items) =>
    '[' :: l.newLine (depth + 1) ++ item.written l (depth + 1) ++
      writtenItems l (depth + 1) items ++ l.newLine depth ++ [']']
  | object [] => ['{', '}']
  | object ((name, value) :: fields) =>
    '{' :: l.newLine (depth + 1) ++ writtenString name ++ ':' :: l.gap ++
      value.written l (depth + 1) ++ writtenFields l (depth + 1) fields ++ l.newLine depth ++ ['}']

/-- The items after the first one of an array. -/
def writtenItems (l : Layout) (depth : Nat) : List Json → List Char
  | [] => []
  | item :: items =>
    ',' :: l.newLine depth ++ item.written l depth ++ writtenItems l depth items

/-- The fields after the first one of an object. -/
def writtenFields (l : Layout) (depth : Nat) : List (JsonString × Json) → List Char
  | [] => []
  | (name, value) :: fields =>
    ',' :: l.newLine depth ++ writtenString name ++ ':' :: l.gap ++ value.written l depth ++
      writtenFields l depth fields

end

/-- The text of a value in a layout. -/
def write (l : Layout) (value : Json) : List Char := value.written l 0

/-- The text of a value, indented for people to read. -/
def pretty (value : Json) : String := String.ofList (value.write .indented)

end Json

end TexLint
