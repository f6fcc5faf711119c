import TexLint.Knowledge.PackageIndex
import TexLint.Document.Options

/-!
# Scanning style files

A style file is read for the definitions and the loads in it. It is not parsed: the
scan looks for known control words and what must follow them, anywhere in the text.

## The model

* A `Pattern` says of a text whether it starts with an occurrence, what the occurrence
  names, and what text is left behind it.
* `occurrences` finds the occurrences of a pattern from left to right; the search goes
  on behind each of them.
* `PackageContents.ofStyleFile` collects the names, each at its first occurrence.
-/

namespace TexLint

/-- A pattern: what an occurrence at the start of a text names, and the text behind it. -/
abbrev Pattern := Text → Option (Text × Text)

/-- The worker of `occurrences`: `skip` counts the characters of the last occurrence that
are still to come. -/
def occurrencesFrom (pattern : Pattern) (skip : Nat) : Text → List Text
  | [] => []
  | c :: rest =>
    match skip with
    | skip + 1 => occurrencesFrom pattern skip rest
    | 0 =>
      match pattern (c :: rest) with
      | some (name, behind) => name :: occurrencesFrom pattern (rest.length - behind.length) rest
      | none => occurrencesFrom pattern 0 rest

/-- What the occurrences of a pattern name, from left to right. -/
def occurrences (pattern : Pattern) (text : Text) : List Text := occurrencesFrom pattern 0 text

namespace StyleFile

/-- The text behind one of the given control words at its start. -/
def afterWord? (words : List String) (text : Text) : Option Text :=
  words.findSome? fun word =>
    let chars := '\\' :: word.toList
    if chars.isPrefixOf text then some (text.drop chars.length) else none

/-- The text behind a character that may stand at its start. -/
def skipOptional (c : Char) : Text → Text
  | [] => []
  | d :: rest => if d = c then rest else d :: rest

/-- The text behind a bracket group that may stand at its start. A bracket that is not
closed is no group. -/
def skipBrackets : Text → Text
  | '[' :: rest =>
    match rest.dropWhile (· != ']') with
    | _ :: behind => behind
    | [] => '[' :: rest
  | text => text

/-- The letters of command names in style files. -/
def isNameChar (c : Char) : Bool := c.isAlpha || c == '@'

/-- The letters of environment names in style files. -/
def isEnvironmentChar (c : Char) : Bool := c.isAlpha || c == '*'

/-- The name of the control word at the start of a text. -/
def controlWord? : Pattern
  | '\\' :: rest =>
    let name := rest.takeWhile isNameChar
    if name.isEmpty then none else some (name, rest.dropWhile isNameChar)
  | _ => none

/-- The interior of the brace group at the start of a text, up to the first character
that `inside` rejects, which must be the closing brace. -/
def braced? (inside : Char → Bool) : Pattern
  | '{' :: rest =>
    match rest.dropWhile inside with
    | '}' :: behind => some (rest.takeWhile inside, behind)
    | _ => none
  | _ => none

/-- The control words that define commands. -/
def commandWords : List String :=
  ["newcommand", "renewcommand", "providecommand", "DeclareRobustCommand",
    "NewDocumentCommand", "RenewDocumentCommand", "ProvideDocumentCommand",
    "DeclareDocumentCommand"]

/-- The primitives that define commands. -/
def primitiveWords : List String := ["def", "edef", "gdef", "xdef"]

/-- The control words that define environments. -/
def environmentWords : List String :=
  ["newenvironment", "renewenvironment", "NewDocumentEnvironment",
    "RenewDocumentEnvironment", "ProvideDocumentEnvironment", "DeclareDocumentEnvironment"]

/-- The definition of a command, whose name may stand in braces. -/
def commandDefinition : Pattern := fun text =>
  (afterWord? commandWords text).bind fun rest =>
    controlWord? (trimStart (skipOptional '{' (trimStart (skipOptional '*' rest))))

/-- The definition of a command by a primitive. -/
def primitiveDefinition : Pattern := fun text =>
  (afterWord? primitiveWords text).bind fun rest => controlWord? (trimStart rest)

/-- The definition of an environment. -/
def environmentDefinition : Pattern := fun text =>
  (afterWord? environmentWords text).bind fun rest =>
    (braced? isEnvironmentChar (trimStart (skipOptional '*' rest))).filter (!·.1.isEmpty)

/-- The load of a list of packages. -/
def packageLoad : Pattern := fun text =>
  (afterWord? ["RequirePackage"] text).bind fun rest =>
    braced? (· != '}') (trimStart (skipBrackets (trimStart rest)))

/-- The names in a list with commas between them. -/
def listedNames (list : Text) : List Text :=
  ((splitOnChar ',' list).map trim).filter (!·.isEmpty)

end StyleFile

/-- What the text of a style file defines and loads. -/
def PackageContents.ofStyleFile (text : Text) : PackageContents where
  commands := distinct
    ((occurrences StyleFile.commandDefinition text ++
      occurrences StyleFile.primitiveDefinition text).map String.ofList)
  environments := distinct
    ((occurrences StyleFile.environmentDefinition text).map String.ofList)
  requires := distinct
    (((occurrences StyleFile.packageLoad text).flatMap StyleFile.listedNames).map String.ofList)

end TexLint
