import TexLint.Manuscript.Import
import TexLint.Settings
import TexLint.Knowledge.Catalogue
import TexLint.Knowledge.LoadGraph

/-!
# Missing imports

The commands and environments whose package a manuscript does not import.

## The model

* A package is satisfied if the manuscript imports it, or imports one that loads it.
* A command needs one of the packages that its schemas name. It needs none if a schema
  says that none is needed, or if it is just being defined.
* An environment needs the package that its schema names, unless the manuscript defines
  the environment itself.
* Problems with commands come before problems with environments, both in the order of
  the documents and of the places in them.
-/

namespace TexLint

/-- What lacks its package. -/
inductive ProblemKind where
  /-- A command. -/
  | missingCommandImport
  /-- An environment. -/
  | missingEnvironmentImport
  deriving DecidableEq, Repr

/-- A use of something whose package is not imported. -/
structure Problem where
  /-- What lacks its package. -/
  kind : ProblemKind
  /-- The position of the document. -/
  document : Nat
  /-- The place in the document. -/
  span : Span
  /-- The packages that provide what is used; importing any of them mends the problem. -/
  packages : List Package
  deriving DecidableEq, Repr

/-- A choice between names: "a", "a or b", "a, b or c". -/
def alternatives (names : List String) : String :=
  match names.getLast? with
  | none => ""
  | some last =>
    let others := names.dropLast
    if others.isEmpty then last else String.intercalate ", " others ++ " or " ++ last

/-- The wording of a problem. -/
def Problem.message (p : Problem) : String :=
  let what := match p.kind with
    | .missingCommandImport => "Command"
    | .missingEnvironmentImport => "Environment"
  what ++ " requires " ++ alternatives (p.packages.map (·.name)) ++ " package"

/-- What is known of commands, environments and packages. -/
structure Knowledge where
  /-- The known commands and environments. -/
  catalogue : Catalogue
  /-- The loads and conflicts of packages. -/
  graph : LoadGraph
  deriving DecidableEq, Repr

/-- The length of what stands between the start of an environment and its name. -/
def beginLength : Nat := byteLength "\\begin\x7b".toList

namespace Knowledge

/-- Whether a package is imported or loaded by one that is. -/
def isSatisfied (k : Knowledge) (included : List String) (p : Package) : Bool :=
  included.contains p.name || k.graph.isLoadedByAny p.name included

/-- The packages that the schemas of a command name, each at its first place. -/
def dependencies (schemas : List CommandSchema) : List Package :=
  distinct (schemas.filterMap (·.dependency))

/-- The packages of which one is needed and none is satisfied, if any is needed. -/
def unsatisfied? (k : Knowledge) (included : List String) (packages : List Package) :
    Option (List Package) :=
  if packages.isEmpty || packages.any (·.isKernel) || packages.any (k.isSatisfied included) then
    none
  else some packages

/-- The place of a command's name, whose length the schemas give. -/
def nameSpan (schemas : List CommandSchema) (u : CommandUsage) : Span :=
  let lengths := schemas.map fun s => byteLength s.command.toList
  .ofLength u.span.start (lengths.min?.getD 0 + 1)

/-- The problem with a command, if it has one. -/
def commandProblem? (k : Knowledge) (included : List String) (position : Nat) (d : Document)
    (u : CommandUsage) : Option Problem :=
  if d.isBeingDefined u then none
  else
    let schemas := k.catalogue.commandSchemas u.baseName
    (k.unsatisfied? included (dependencies schemas)).map fun packages =>
      ⟨.missingCommandImport, position, nameSpan schemas u, packages⟩

/-- The problem with an environment, if it has one. -/
def environmentProblem? (k : Knowledge) (included defined : List String) (position : Nat)
    (u : EnvironmentUsage) : Option Problem :=
  if defined.contains u.name then none
  else
    let package := (k.catalogue.environment? u.name).bind (·.dependency)
    (k.unsatisfied? included package.toList).map fun packages =>
      let span := .ofLength (u.span.start + beginLength) (byteLength u.name.toList)
      ⟨.missingEnvironmentImport, position, span, packages⟩

/-- The problems in the documents of a manuscript whose positions satisfy `inScope`. -/
def problems (k : Knowledge) (m : Manuscript) (inScope : Nat → Bool) : List Problem :=
  let included := m.includedPackages
  let defined := m.definedEnvironments
  let documents := (m.documents.mapIdx fun position d => (position, d)).filter (inScope ·.1)
  (documents.flatMap fun (position, d) =>
      d.commands.filterMap (k.commandProblem? included position d)) ++
    documents.flatMap fun (position, d) =>
      d.environments.filterMap (k.environmentProblem? included defined position)

/-- The problems of a manuscript: in all its documents, or in one. -/
def analyze (k : Knowledge) (settings : Settings) (m : Manuscript) (only : Option Nat) :
    Except ManuscriptError (List Problem) :=
  if settings.dependencyCheck then do
    m.ensureReady
    return k.problems m fun position => only.all (· == position)
  else .ok []

end Knowledge

end TexLint
