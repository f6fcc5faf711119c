import TexLint.Manuscript.Basic
import TexLint.Document.Options

/-!
# Imports of packages

Which packages a manuscript imports, with which options.
-/

namespace TexLint

/-- The import of one package. -/
structure PackageImport where
  /-- The name of the package. -/
  name : String
  /-- The options of the command that imports it. -/
  options : OptionMap
  /-- The position of that command in its document. -/
  usage : Nat
  deriving DecidableEq, Repr

/-- The names of packages in a brace group: the values between its commas. -/
def packageNames (group : Parameter) : List String :=
  (split .parameter group.interior).filterMap fun piece =>
    let name := trim piece.text
    if name.isEmpty then none else some (String.ofList name)

namespace CommandUsage

/-- The imports that a command makes. -/
def imports (u : CommandUsage) : List PackageImport :=
  if Vocabulary.packageImports.contains u.name then
    match u.firstRequired with
    | some group =>
      let options := optionMap u.optionalParameters
      (packageNames group).map (⟨·, options, u.index⟩)
    | none => []
  else []

end CommandUsage

namespace Manuscript

/-- All imports. -/
def packageImports (m : Manuscript) : List (Located PackageImport) :=
  m.collect fun d => d.commands.flatMap (·.imports)

/-- The names of the imported packages. -/
def includedPackages (m : Manuscript) : List String :=
  distinct (m.packageImports.map (·.value.name))

end Manuscript

end TexLint
