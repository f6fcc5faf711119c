import TexLint.Json.Magnitude

/-!
# JSON values

The values of the data format in which knowledge is stored and answers are written.

## The model

* An object keeps its fields in the order in which they are written, repeated names
  included; what a repeated name means is for the reader of a record to say.
* A string may hold escapes that name one half of a surrogate pair without the other.
  Such a string stands for no text, and its value is `none`.
-/

namespace TexLint

/-- What a JSON string stands for: a text, or nothing if it holds half a surrogate pair. -/
abbrev JsonString := Option String

/-- A JSON value. -/
inductive Json where
  /-- The value without content. -/
  | null
  /-- A truth value. -/
  | bool (value : Bool)
  /-- A number as it is written. -/
  | number (lexeme : String)
  /-- A string. -/
  | string (value : JsonString)
  /-- A sequence of values. -/
  | array (items : List Json)
  /-- Named values in the order in which they are written. -/
  | object (fields : List (JsonString × Json))

namespace Json

/-- The string that stands for a text. -/
def text (s : String) : Json := string (some s)

/-- A natural number. -/
def nat (n : Nat) : Json := number (toString n)

/-- A sequence of strings. -/
def texts (names : List String) : Json := array (names.map text)

/-- An object with the given fields. -/
def record (fields : List (String × Json)) : Json :=
  object (fields.map fun f => (some f.1, f.2))

mutual

/-- Whether a value can be kept: all its strings stand for texts, its numbers are finite,
and it is nested at most `levels` deep. -/
def isKept (levels : Nat) : Json → Bool
  | null | bool _ => true
  | number lexeme => isFinite lexeme
  | string value => value.isSome
  | array items => 0 < levels && areKept (levels - 1) items
  | object fields => 0 < levels && areKeptFields (levels - 1) fields

/-- Whether all values of a sequence can be kept. -/
def areKept (levels : Nat) : List Json → Bool
  | [] => true
  | item :: items => item.isKept levels && areKept levels items

/-- Whether all names and values of an object can be kept. -/
def areKeptFields (levels : Nat) : List (JsonString × Json) → Bool
  | [] => true
  | (name, value) :: fields => name.isSome && value.isKept levels && areKeptFields levels fields

end

end Json

end TexLint
