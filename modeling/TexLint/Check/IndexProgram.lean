import TexLint.Manuscript.Import

/-!
# Index programs

The programs that have to be run to make the index and the glossary of a manuscript.
-/

namespace TexLint

/-- The programs that make indexes and glossaries. -/
inductive IndexProgram where
  /-- The usual index program. -/
  | makeindex
  /-- The index program for other languages, run through its front end. -/
  | xindy
  /-- The same program run directly. -/
  | truexindy
  /-- The usual glossary program. -/
  | makeglossaries
  /-- The glossary program for systems without Perl. -/
  | makeglossariesLite
  /-- The glossary program for databases. -/
  | bib2gls
  deriving DecidableEq, Repr

namespace IndexProgram

/-- The name of a program. -/
def name : IndexProgram → String
  | makeindex => "makeindex"
  | xindy => "xindy"
  | truexindy => "truexindy"
  | makeglossaries => "makeglossaries"
  | makeglossariesLite => "makeglossaries-lite"
  | bib2gls => "bib2gls"

/-- The command that runs a program. -/
def executable : IndexProgram → String
  | xindy => "texindy"
  | truexindy => "xindy"
  | program => program.name

end IndexProgram

namespace Manuscript

/-- The options given to imports of index and glossary packages. -/
def indexPackageOptions (m : Manuscript) : List String :=
  (m.packageImports.filter fun i =>
      Vocabulary.indexPackages.contains i.value.name ||
        Vocabulary.glossaryPackages.contains i.value.name).flatMap (·.value.options.keys)

/-- The options given where the index is started, later ones over earlier ones. -/
def makeIndexOptions (m : Manuscript) : OptionMap :=
  (m.commands.filter (·.value.name == Vocabulary.makeIndex)).foldl
    (fun options u => options.extend (optionMap u.value.optionalParameters)) .empty

/-- Whether the start of the index asks for a program, as an option or as the value of
`program`. -/
def requestsProgram (m : Manuscript) (name : String) : Bool :=
  m.makeIndexOptions.contains name || m.makeIndexOptions.get? "program" == some name

/-- The program for an index package. -/
def packageIndexProgram? (m : Manuscript) : Option IndexProgram :=
  if Vocabulary.indexPackages.any m.includedPackages.contains then
    some (if m.indexPackageOptions.contains "xindy" then .xindy else .makeindex)
  else none

/-- The program for a glossary package. The usual one needs Perl. -/
def glossaryProgram? (m : Manuscript) (hasPerl : Bool) : Option IndexProgram :=
  if m.includedPackages.contains "glossaries" then
    some (if hasPerl then .makeglossaries else .makeglossariesLite)
  else if m.includedPackages.contains "glossaries-extra" && m.indexPackageOptions.contains "record"
  then some .bib2gls
  else none

/-- The program that the start of the index asks for. -/
def requestedProgram? (m : Manuscript) : Option IndexProgram :=
  if m.requestsProgram "makeindex" then some .makeindex
  else if m.requestsProgram "xindy" || m.requestsProgram "texindy" then some .xindy
  else if m.requestsProgram "truexindy" then some .truexindy
  else none

/-- The programs to run, each once. -/
def indexPrograms (m : Manuscript) (hasPerl : Bool) :
    Except ManuscriptError (List IndexProgram) := do
  let _ ← m.root
  return distinct
    (m.packageIndexProgram?.toList ++ (m.glossaryProgram? hasPerl).toList ++
      m.requestedProgram?.toList)

end Manuscript

end TexLint
