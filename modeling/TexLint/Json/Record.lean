import TexLint.Json.Value

/-!
# Records in JSON

A record with known fields is written as an object or as an array.

## The model

* In an object the fields come in any order. Fields of other names are passed over, but
  a known field must not come twice, and every name must stand for a text.
* In an array the values come in the order of the known fields. The last ones may be
  left out, but there must not be more values than fields.
* Whether a field may be missing is for each field to say (`Json.required`,
  `Json.withDefault`).
-/

namespace TexLint

namespace Json

/-- The value of a known field in an object, if it has it once; nothing if it has it
more than once. -/
def field? (fields : List (JsonString × Json)) (name : String) : Option (Option Json) :=
  match fields.filter (·.1 == some name) with
  | [] => some none
  | [f] => some (some f.2)
  | _ => none

/-- The values of the known fields of a record, each of which may be missing. -/
def fieldsOf (names : List String) : Json → Option (List (Option Json))
  | object fields =>
    if fields.all (·.1.isSome) then names.mapM (field? fields) else none
  | array items =>
    if items.length ≤ names.length then
      some (items.map some ++ List.replicate (names.length - items.length) none)
    else none
  | _ => none

/-- Reads a field that must be there. -/
def required {α : Type} (read : Json → Option α) (field : Option Json) : Option α :=
  field.bind read

/-- Reads a field that has a value of its own when it is missing. -/
def withDefault {α : Type} (default : α) (read : Json → Option α) : Option Json → Option α
  | none => some default
  | some value => read value

/-- Reads a text. -/
def toText? : Json → Option String
  | string value => value
  | _ => none

/-- Reads a truth value. -/
def toBool? : Json → Option Bool
  | bool value => some value
  | _ => none

/-- Reads a sequence whose items are read by the given function. -/
def toList? {α : Type} (read : Json → Option α) : Json → Option (List α)
  | array items => items.mapM read
  | _ => none

/-- Reads the names and values of an object in the order in which they are written. -/
def toFields? {α : Type} (read : Json → Option α) : Json → Option (List (String × α))
  | object fields => fields.mapM fun (name, value) => do some (← name, ← read value)
  | _ => none

/-- Reads a value that may be absent, in place of which the null value stands. -/
def toOption? {α : Type} (read : Json → Option α) : Json → Option (Option α)
  | null => some none
  | value => (read value).map some

end Json

end TexLint
