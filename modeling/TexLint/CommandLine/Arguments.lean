import TexLint.Document.Options

/-!
# Arguments of the command line

What the words after the name of the program ask for.

## The model

* The first word names a command. What may follow is laid down by an `ArgumentForm`:
  flags, options with a value, options that may come several times, and a file.
* The value of an option follows as the next word or behind an equals sign. A word that
  looks like an option is no value, and no value is empty.
* Flags and options that may come once must not come twice. After a double dash all
  words are files.
-/

namespace TexLint

/-- Why a command line asks for nothing that can be run. -/
inductive ArgumentRefusal where
  /-- The words do not fit the form. -/
  | unfit
  /-- The words ask how the program is used. -/
  | help
  deriving DecidableEq, Repr

/-- What may follow the name of a command. -/
structure ArgumentForm where
  /-- The options without a value. -/
  flags : List String
  /-- The options with a value that may come once. -/
  single : List String
  /-- The options with a value that may come several times. -/
  repeated : List String
  /-- Whether one file must be named. -/
  takesFile : Bool
  deriving DecidableEq, Repr

/-- The arguments that have been given. -/
structure Arguments where
  /-- The options without a value. -/
  flags : List String
  /-- The options with their values, in order. -/
  values : List (String × String)
  /-- The file. -/
  file : Option String
  deriving DecidableEq, Repr

namespace Arguments

/-- Nothing has been given. -/
def none : Arguments := ⟨[], [], .none⟩

/-- Whether a flag has been given. -/
def has (a : Arguments) (flag : String) : Bool := a.flags.contains flag

/-- The values of an option. -/
def valuesOf (a : Arguments) (option : String) : List String :=
  (a.values.filter (·.1 == option)).map Prod.snd

/-- The value of an option that may come once. -/
def value? (a : Arguments) (option : String) : Option String := (a.valuesOf option).head?

end Arguments

namespace ArgumentForm

/-- Takes a word as the file. -/
def takeFile (form : ArgumentForm) (a : Arguments) (word : String) :
    Except ArgumentRefusal Arguments :=
  if form.takesFile && a.file.isNone && word != "" then .ok { a with file := some word }
  else .error .unfit

/-- Takes a flag. -/
def takeFlag (a : Arguments) (name : String) : Except ArgumentRefusal Arguments :=
  if a.flags.contains name then .error .unfit else .ok { a with flags := a.flags ++ [name] }

/-- Takes an option with its value. -/
def takeValue (form : ArgumentForm) (a : Arguments) (name value : String) :
    Except ArgumentRefusal Arguments :=
  if value == "" || (form.single.contains name && a.values.any (·.1 == name)) then .error .unfit
  else .ok { a with values := a.values ++ [(name, value)] }

/-- Whether a word looks like an option: it starts with a dash and is not just one. -/
def isOption (word : String) : Bool := word.toList.head? == some '-' && word != "-"

/-- The name of a long option and the value behind its equals sign, if it has one. -/
def splitOption (option : Text) : String × Option String :=
  let name := String.ofList (option.takeWhile (· != '='))
  match option.dropWhile (· != '=') with
  | _ :: value => (name, some (String.ofList value))
  | [] => (name, .none)

/-- Reads the words that follow the name of a command. -/
def read (form : ArgumentForm) (a : Arguments) : List String → Except ArgumentRefusal Arguments
  | [] => if form.takesFile && a.file.isNone then .error .unfit else .ok a
  | word :: words =>
    match word.toList with
    | ['-', '-'] => do
      let a ← words.foldlM form.takeFile a
      if form.takesFile && a.file.isNone then .error .unfit else .ok a
    | '-' :: '-' :: option =>
      match splitOption option with
      | (name, some value) =>
        if form.single.contains name || form.repeated.contains name then do
          form.read (← form.takeValue a name value) words
        else .error .unfit
      | (name, .none) =>
        if name == "help" then .error .help
        else if form.flags.contains name then do form.read (← takeFlag a name) words
        else if form.single.contains name || form.repeated.contains name then
          match words with
          | value :: words =>
            if isOption value then .error .unfit
            else do form.read (← form.takeValue a name value) words
          | [] => .error .unfit
        else .error .unfit
    | '-' :: c :: _ => .error (if c = 'h' then .help else .unfit)
    | _ => do form.read (← form.takeFile a word) words

end ArgumentForm

/-- Where knowledge beyond the built-in one comes from. -/
structure KnowledgeSources where
  /-- The files of overlays. -/
  overlays : List String
  /-- The file of the index of installed packages. -/
  packageCache : Option String
  deriving DecidableEq, Repr

/-- What the program is asked to do. -/
inductive Command where
  /-- Report missing imports. -/
  | check (file : String) (sources : KnowledgeSources) (config : Option String)
      (json skipImports : Bool)
  /-- List what commands refer to. -/
  | references (file : String) (sources : KnowledgeSources)
  /-- List the index programs. -/
  | indexPrograms (file : String) (json : Bool)
  /-- Make the index of installed packages. -/
  | scanPackages (root output : Option String)
  deriving DecidableEq, Repr

namespace Command

/-- The options that name sources of knowledge. -/
def sourceForm : ArgumentForm := ⟨[], ["package-cache"], ["registry"], true⟩

/-- The sources of knowledge that arguments name. -/
def sourcesOf (a : Arguments) : KnowledgeSources :=
  ⟨a.valuesOf "registry", a.value? "package-cache"⟩

/-- Reads the command that the given word names from the words that follow. -/
def ofWords (name : String) (words : List String) : Except ArgumentRefusal Command :=
  match name with
  | "check" => do
    let form := { sourceForm with
      flags := ["json", "no-dependency-check"], single := ["package-cache", "config"] }
    let a ← form.read .none words
    let file := a.file.getD ""
    return check file (sourcesOf a) (a.value? "config") (a.has "json") (a.has "no-dependency-check")
  | "references" => do
    let a ← sourceForm.read .none words
    return references (a.file.getD "") (sourcesOf a)
  | "index-programs" => do
    let a ← (⟨["json"], [], [], true⟩ : ArgumentForm).read .none words
    return indexPrograms (a.file.getD "") (a.has "json")
  | "scan-packages" => do
    let a ← (⟨[], ["root", "output"], [], false⟩ : ArgumentForm).read .none words
    return scanPackages (a.value? "root") (a.value? "output")
  | _ => .error .unfit

/-- How the program is used. -/
def usage : String :=
  "Usage:\n" ++
  "  check FILE [--json] [--config FILE] [--no-dependency-check]\n" ++
  "        [--registry FILE]... [--package-cache FILE]\n" ++
  "  references FILE [--registry FILE]... [--package-cache FILE]\n" ++
  "  index-programs FILE [--json]\n" ++
  "  scan-packages [--root DIR] [--output FILE]\n"

/-- The words that help can be asked about. -/
def topics : List String := ["check", "references", "index-programs", "scan-packages", "help"]

/-- What a command line asks for. Help is asked for by an option or by a word, which may
be followed by one topic. -/
def ofArguments : List String → Except ArgumentRefusal Command
  | [] => .error .unfit
  | ["help"] => .error .help
  | ["help", topic] => .error (if topics.contains topic then .help else .unfit)
  | name :: words =>
    if name == "--help" || "-h".isPrefixOf name then .error .help else ofWords name words

end Command

end TexLint
