import TexLint.CommandLine.Arguments
import TexLint.Check.Report
import TexLint.Knowledge.Builtin
import TexLint.Knowledge.Distribution
import TexLint.Manuscript.Load

/-!
# Running a command

What a command prints and writes, as a function of the files that it can see.

## The model

* `World` is what the program finds: the files, whether Perl is there, and where the user
  keeps caches. A run gives the text to print and the files as they are afterwards.
* A `Failure` ends a run; what fails first is what is told. Settings are read first, then
  overlays one by one, then the index, then the manuscript.
* `Command.consulted` names the paths that a run looks at, as far as the files that are
  already known tell. A run depends on no other file.
-/

namespace TexLint

/-- What the program finds where it runs. -/
structure World where
  /-- The files. -/
  files : FileTree
  /-- Whether Perl is there. -/
  hasPerl : Bool
  /-- The directory for the caches of the user. -/
  cacheDirectory : Option String

/-- Why a command fails. -/
inductive Failure where
  /-- A file cannot be read. -/
  | cannotRead (path : String)
  /-- A file does not hold settings. -/
  | invalidSettings (path : String)
  /-- The schemas of an overlay are no good. -/
  | invalidOverlay (path : String)
  /-- The loads and conflicts of an overlay are no good. -/
  | invalidGraph (path : String)
  /-- There is no index of installed packages in a file. -/
  | noIndex (path : String)
  /-- There is no distribution to scan. -/
  | noDistribution
  /-- What is to be scanned is no directory. -/
  | noDirectory (path : String)
  /-- An index cannot be saved. -/
  | cannotSave (error : SaveError)
  /-- A question about the manuscript has no answer. -/
  | manuscript (error : ManuscriptError)
  /-- A schema prescribes an extension that no file name can have. -/
  | unfitExtension (extension : String)
  deriving DecidableEq, Repr

/-- The wording of a failure. -/
def Failure.message : Failure → String
  | cannotRead path => "Failed to read " ++ path
  | invalidSettings path => "Invalid settings in " ++ path
  | invalidOverlay path => "Invalid registry overlay " ++ path
  | invalidGraph path => "Invalid package graph in " ++ path
  | noIndex path => "No package index at " ++ path
  | noDistribution => "TeX distribution not found, nothing to scan"
  | noDirectory path => "TeX root " ++ path ++ " is not a directory"
  | cannotSave (.noDirectory path) => "Failed to create " ++ path
  | cannotSave (.noFile path) => "Failed to write " ++ path
  | manuscript error => error.message
  | unfitExtension extension =>
    "extension cannot contain path separators: " ++ extension

/-- The line that tells of a failure. -/
def Failure.report (failure : Failure) : String := "Error: " ++ failure.message

/-- Whether a failure breaks the program off where it stands. -/
def Failure.breaksOff : Failure → Bool
  | unfitExtension _ => true
  | _ => false

/-- The failure of loading a manuscript. -/
def LoadError.toFailure : LoadError → Failure
  | unreadable path => .cannotRead path
  | unfitExtension extension => .unfitExtension extension

/-- The result with its error as a failure. -/
def orFail {ε α : Type} (failure : ε → Failure) : Except ε α → Except Failure α
  | .ok a => .ok a
  | .error e => .error (failure e)

/-- The text of a file. -/
def readFile (files : FileTree) (path : String) : Except Failure Text :=
  orFail (fun _ => .cannotRead path) (files.readText path)

/-- The settings in a file, or the default ones. -/
def loadSettings (files : FileTree) : Option String → Except Failure Settings
  | none => .ok .default
  | some path => do
    match Json.readAs? Settings.ofJson? (← readFile files path) with
    | some settings => return settings
    | none => .error (.invalidSettings path)

namespace Knowledge

/-- What is known without any source. -/
def builtin : Knowledge := ⟨.builtin, .builtin⟩

/-- What is known with an overlay. -/
def withOverlay (files : FileTree) (k : Knowledge) (path : String) : Except Failure Knowledge := do
  let text ← readFile files path
  match k.catalogue.mergeText text, k.graph.mergeText? text with
  | (_, some _), _ => .error (.invalidOverlay path)
  | (_, none), none => .error (.invalidGraph path)
  | (catalogue, none), some graph => return ⟨catalogue, graph⟩

/-- What is known with an index of installed packages. -/
def withIndex (k : Knowledge) (i : PackageIndex) : Knowledge :=
  ⟨k.catalogue.extendFromIndex i, k.graph.extendFromIndex i⟩

/-- What is known with the given sources. -/
def load (files : FileTree) (sources : KnowledgeSources) : Except Failure Knowledge := do
  let k ← sources.overlays.foldlM (withOverlay files) builtin
  match sources.packageCache with
  | none => return k
  | some path =>
    match PackageIndex.load? files path with
    | some i => return k.withIndex i
    | none => .error (.noIndex path)

end Knowledge

/-- The manuscript that a file belongs to. -/
def loadManuscript (files : FileTree) (k : Knowledge) (path : String) :
    Except Failure Manuscript :=
  orFail LoadError.toFailure (Manuscript.load files k.catalogue path)

/-- The directories in which a distribution may be found, the first choice first. -/
def distributionRoots : List String :=
  ["/usr/local/texlive/2025/texmf-dist/tex/latex",
    "/usr/local/texlive/2024/texmf-dist/tex/latex",
    "/usr/local/texlive/2023/texmf-dist/tex/latex",
    "/usr/share/texlive/texmf-dist/tex/latex"]

/-- The directory for the caches of a user: one that the user names by its full path, or
the usual one in the home directory. -/
def cacheDirectory? (named home : Option String) : Option String :=
  (named.filter Path.isAbsolute).or (home.map (Path.join · ".cache"))

/-- Where the index of installed packages is kept in a directory for caches. -/
def cachePath (directory : String) : String := Path.join directory "ferrotex/packages.json"

/-- The given lines as a text, each with its end. -/
def ofLines (lines : List String) : String := String.join (lines.map (· ++ "\n"))

/-- A sequence of JSON values as a text. -/
def ofJsonItems (items : List Json) : String := (Json.array items).pretty ++ "\n"

namespace Command

/-- What a report of missing imports prints. -/
def runCheck (w : World) (file : String) (sources : KnowledgeSources) (config : Option String)
    (json skipImports : Bool) : Except Failure String := do
  let settings ← loadSettings w.files config
  let settings : Settings := if skipImports then ⟨false⟩ else settings
  let k ← Knowledge.load w.files sources
  let m ← loadManuscript w.files k file
  let problems ← orFail .manuscript (k.analyze settings m none)
  return if json then ofJsonItems (problems.filterMap (·.toJson? m))
    else ofLines (problems.filterMap (·.report? m))

/-- What a list of references prints. -/
def runReferences (w : World) (file : String) (sources : KnowledgeSources) :
    Except Failure String := do
  let k ← Knowledge.load w.files sources
  let m ← loadManuscript w.files k file
  let resolved ← orFail .manuscript (resolveAll k.catalogue m .empty)
  return ofJsonItems (resolved.found.filterMap fun (u, found) => referencesJson? m u found)

/-- What a list of index programs prints. -/
def runIndexPrograms (w : World) (file : String) (json : Bool) : Except Failure String := do
  let m ← loadManuscript w.files .builtin file
  let programs ← orFail .manuscript (m.indexPrograms w.hasPerl)
  return if json then ofJsonItems (programs.map (·.toJson))
    else ofLines (programs.map (·.report))

/-- What a scan of a distribution prints, and the files with the index in it. -/
def runScan (w : World) (root output : Option String) : Except Failure (String × FileTree) := do
  let some root := root.or (distributionRoots.find? w.files.isDirectory) | .error .noDistribution
  let some index := PackageIndex.ofDirectory? w.files root | .error (.noDirectory root)
  let files ←
    match output.or (w.cacheDirectory.map cachePath) with
    | none => pure w.files
    | some path => orFail .cannotSave (index.save w.files path)
  return (ofLines ["Indexed " ++ toString index.packages.entries.length ++ " packages"], files)

/-- Runs a command: what it prints, and the files afterwards. -/
def run (w : World) : Command → Except Failure (String × FileTree)
  | check file sources config json skipImports =>
    (runCheck w file sources config json skipImports).map (·, w.files)
  | references file sources => (runReferences w file sources).map (·, w.files)
  | indexPrograms file json => (runIndexPrograms w file json).map (·, w.files)
  | scanPackages root output => runScan w root output

/-- The paths that the sources of knowledge name. -/
def sourcePaths (sources : KnowledgeSources) : List String :=
  sources.overlays ++ sources.packageCache.toList

/-- The paths that are looked at to load a manuscript. -/
def manuscriptPaths (files : FileTree) (catalogue : Catalogue) (file : String) : List String :=
  let named := (files.readText file).toOption.bind magicRoot?
  let root := named.map (Path.join ((Path.parent? file).getD ""))
  let base := ((Path.parent? (root.getD file)).getD "")
  let texts := ((Manuscript.load files catalogue file).toOption.map (·.documents)).getD []
  let c : LoadContext := ⟨files, catalogue, base⟩
  file :: root.toList ++ texts.flatMap fun d => c.possibleIncludes d.text

/-- The paths that a run looks at, as far as the known files tell. -/
def consulted (files : FileTree) : Command → List String
  | check file sources config _ _ =>
    config.toList ++ sourcePaths sources ++ withSources sources file
  | references file sources => sourcePaths sources ++ withSources sources file
  | indexPrograms file _ => manuscriptPaths files .builtin file
  | scanPackages root _ => root.elim distributionRoots ([·])
where
  /-- The paths of a manuscript that is loaded with the given sources. -/
  withSources (sources : KnowledgeSources) (file : String) : List String :=
    match Knowledge.load files sources with
    | .ok k => manuscriptPaths files k.catalogue file
    | .error _ => []

end Command

/-- What comes of a command line. -/
structure Outcome where
  /-- The exit status: 0, 1 after a failure, 2 if the command line is no good, 101 if the
  program is broken off. -/
  status : Nat
  /-- What is printed. -/
  output : String
  /-- What is told of a failure, unless the program is broken off. -/
  error : Option String
  /-- The files afterwards. -/
  files : FileTree

/-- Runs the program with the given arguments. -/
def runProgram (w : World) (arguments : List String) : Outcome :=
  match Command.ofArguments arguments with
  | .error .help => ⟨0, Command.usage, none, w.files⟩
  | .error .unfit => ⟨2, "", none, w.files⟩
  | .ok command =>
    match command.run w with
    | .ok (output, files) => ⟨0, output, none, files⟩
    | .error failure =>
      if failure.breaksOff then ⟨101, "", none, w.files⟩
      else ⟨1, "", some failure.report, w.files⟩

end TexLint
