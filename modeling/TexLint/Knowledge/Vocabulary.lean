/-!
# Well-known names

The commands and packages that the checks know by name, commands with their backslash.
-/

namespace TexLint.Vocabulary

/-- The commands whose first required argument lists labels. -/
def labelReferences : List String :=
  ["\\ref", "\\eqref", "\\nameref", "\\autoref", "\\fullref", "\\pageref", "\\vref",
    "\\Autoref", "\\cref", "\\Cref", "\\labelcref", "\\cpageref"]

/-- The commands that define a label. -/
def labelDefinitions : List String := ["\\label"]

/-- The commands whose first required argument is a link. -/
def urls : List String := ["\\url", "\\href"]

/-- The commands that import packages. -/
def packageImports : List String := ["\\usepackage", "\\RequirePackage"]

/-- The command that chooses the document class. -/
def documentClass : String := "\\documentclass"

/-- The commands that bring another source file into the document. -/
def includes : List String := ["\\input", "\\include", "\\subfile", "\\subfileinclude"]

/-- The command that starts the index. -/
def makeIndex : String := "\\makeindex"

/-- The commands that define a command. -/
def commandDefinitions : List String :=
  ["\\newcommand", "\\newcommand*", "\\newif", "\\NewDocumentCommand",
    "\\DeclareMathOperator", "\\DeclarePairedDelimiter", "\\DeclarePairedDelimiterX",
    "\\DeclarePairedDelimiterXPP"]

/-- The commands that redefine a command. -/
def commandRedefinitions : List String :=
  ["\\renewcommand", "\\renewcommand*", "\\providecommand", "\\providecommand*",
    "\\ProvideDocumentCommand", "\\DeclareDocumentCommand", "\\RenewDocumentCommand", "\\def",
    "\\let"]

/-- The commands that define an environment. -/
def environmentDefinitions : List String :=
  ["\\newenvironment", "\\newtheorem", "\\NewDocumentEnvironment",
    "\\ProvideDocumentEnvironment", "\\DeclareDocumentEnvironment"]

/-- The commands that redefine an environment. -/
def environmentRedefinitions : List String := ["\\renewenvironment", "\\RenewDocumentEnvironment"]

/-- The packages that provide an index. -/
def indexPackages : List String :=
  ["makeidx", "multind", "index", "splitidx", "splitindex", "imakeidx", "hvindex",
    "idxlayout", "repeatindex", "indextools"]

/-- The packages that provide a glossary. -/
def glossaryPackages : List String := ["glossaries", "glossaries-extra"]

/-- Whether a command defines or redefines a command. -/
def definesCommand (name : String) : Bool :=
  commandDefinitions.contains name || commandRedefinitions.contains name

/-- Whether a command defines or redefines an environment. -/
def definesEnvironment (name : String) : Bool :=
  environmentDefinitions.contains name || environmentRedefinitions.contains name

end TexLint.Vocabulary
