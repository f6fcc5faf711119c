import TexLint.Json.Record

/-!
# Settings

What the user asks of the checks.
-/

namespace TexLint

/-- What the checks are to do. -/
structure Settings where
  /-- Whether missing imports are reported. -/
  dependencyCheck : Bool
  deriving DecidableEq, Repr

namespace Settings

/-- Missing imports are reported unless a setting says otherwise. -/
def default : Settings := ⟨true⟩

/-- Reads settings; what they leave out is as by default. -/
def ofJson? (j : Json) : Option Settings := do
  match ← Json.fieldsOf ["automatic_dependency_check"] j with
  | [check] => some ⟨← Json.withDefault default.dependencyCheck Json.toBool? check⟩
  | _ => none

end Settings

end TexLint
