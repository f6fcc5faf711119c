/-!
# Packages

A package that a document has to import before some commands or environments can be
used, with the options it is imported with.
-/

namespace TexLint

/-- A package with the options to import it with. -/
structure Package where
  /-- The name of the package. The empty name stands for what needs no import. -/
  name : String
  /-- The options in order. -/
  options : List String
  deriving DecidableEq, Repr

namespace Package

/-- What the format or the document class provides, which needs no import. -/
def kernel : Package := ⟨"", []⟩

/-- The package of the given name, imported without options. -/
def named (name : String) : Package := ⟨name, []⟩

/-- Whether nothing has to be imported. -/
def isKernel (p : Package) : Bool := p.name == ""

/-- The command that imports the package. -/
def importCommand (p : Package) : String :=
  let options :=
    if p.options.isEmpty then "" else "[" ++ String.intercalate "," p.options ++ "]"
  "\\usepackage" ++ options ++ "\x7b" ++ p.name ++ "\x7d"

/-- The name of the package for people to read. -/
def display (p : Package) : String := if p.isKernel then "<default>" else p.name

end Package

end TexLint
