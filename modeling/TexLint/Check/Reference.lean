import TexLint.Check.Alias
import TexLint.Knowledge.Catalogue

/-!
# What commands refer to

A command may refer to labels, to files or to links in its parameters, or stand for a
definition in the manuscript. The first of these that applies is the answer.

## The model

* The places of labels, files and links are counted from the start of the command
  (`Reference.span?`); `Reference.target?` is the text there.
* A label command is one that is known as such, or an alias of one.
* Which parameters name files is for the first schema of the command to say. A parameter
  for which the schema has no argument is read like the last argument with a file.
-/

namespace TexLint

/-- Something that a command refers to. -/
inductive Reference where
  /-- A label. -/
  | label (span : Span)
  /-- A file. -/
  | file (span : Span) (argument : FileArgument)
  /-- A link. -/
  | url (span : Span)
  /-- The definitions of the command in the manuscript. -/
  | definition (command : String)
  deriving DecidableEq, Repr

namespace Reference

/-- What kind of thing is referred to. -/
def kind : Reference → String
  | label _ => "label"
  | file _ _ => "file"
  | url _ => "url"
  | definition _ => "definition"

/-- Where the reference stands, counted from the start of the command. -/
def span? : Reference → Option Span
  | label span | file span _ | url span => some span
  | definition _ => none

/-- What the reference names, in the text of the document that holds the command. -/
def target? (r : Reference) (u : CommandUsage) (text : Text) : Option Text :=
  r.span?.bind fun span => slice? text (span.shift u.span.start)

end Reference

namespace CommandUsage

/-- The places of the values in a parameter that are not empty. -/
def valueSpans (u : CommandUsage) (p : Parameter) : List Span :=
  ((parameterPieces p.text).filter (!·.text.isEmpty)).map fun piece =>
    (piece.shift (u.relativeOffset p)).span

/-- The place of all that a parameter holds, if there is more to it than a delimiter. -/
def wholeSpan? (u : CommandUsage) (p : Parameter) : Option Span :=
  if byteLength p.text < 2 then none
  else some (.ofLength (u.relativeOffset p + 1) (byteLength p.interior))

/-- The files that a parameter names if it is read as the given argument. -/
def filesIn (u : CommandUsage) (p : Parameter) (argument : RequiredArgument) : List Reference :=
  match argument.file with
  | none => []
  | some file =>
    if argument.commaSeparated then (u.valueSpans p).map (.file · file)
    else (u.wholeSpan? p).toList.map (.file · file)

/-- The files that the parameters of a command name, read as its schema says. -/
def fileReferences (u : CommandUsage) (schema : CommandSchema) : List Reference :=
  let arguments := schema.requiredArguments
  let lastFile := arguments.reverse.find? (·.file.isSome)
  (u.requiredParameters.mapIdx fun i p =>
    ((arguments[i]?).or lastFile).elim [] (u.filesIn p)).flatten

end CommandUsage

/-- The files that a command names, by the first schema it has. -/
def filesOf (catalogue : Catalogue) (u : CommandUsage) : List Reference :=
  ((catalogue.commandSchemas u.baseName).head?).elim [] u.fileReferences

/-- The definitions of a command, if the manuscript has any. -/
def definitionReference (defined : List String) (u : CommandUsage) : List Reference :=
  if defined.contains u.name then [.definition u.name] else []

/-- What a command refers to, given the commands that the manuscript defines and what is
known of aliases. -/
def references (catalogue : Catalogue) (defined : List String) (aliases : AliasCache)
    (u : CommandUsage) : List Reference :=
  match u.firstRequired with
  | none => definitionReference defined u
  | some first =>
    if aliases.isAlias Vocabulary.labelReferences u.baseName then
      (u.valueSpans first).map .label
    else
      let files := filesOf catalogue u
      if !files.isEmpty then files
      else if Vocabulary.urls.contains u.baseName then (u.valueSpans first).map .url
      else definitionReference defined u

/-- An answer about a manuscript, with the manuscript and the aliases as they are kept for the
next question. -/
structure Resolved (α : Type) where
  /-- The answer. -/
  found : α
  /-- The manuscript. -/
  manuscript : Manuscript
  /-- The aliases. -/
  aliases : AliasCache

/-- What a command refers to, with the aliases brought up to date first. -/
def resolve (catalogue : Catalogue) (m : Manuscript) (aliases : AliasCache) (u : CommandUsage) :
    Except ManuscriptError (Resolved (List Reference)) := do
  m.ensureReady
  let (m, aliases) := aliases.update Vocabulary.labelReferences m
  return ⟨references catalogue m.definedCommands aliases u, m, aliases⟩

/-- The commands that refer to something, and what they refer to. If there is a command
at all, the manuscript must be ready, and the aliases are brought up to date first. -/
def resolveAll (catalogue : Catalogue) (m : Manuscript) (aliases : AliasCache) :
    Except ManuscriptError (Resolved (List (Located CommandUsage × List Reference))) :=
  match m.commands with
  | [] => .ok ⟨[], m, aliases⟩
  | commands => do
    m.ensureReady
    let (m, aliases) := aliases.update Vocabulary.labelReferences m
    let defined := m.definedCommands
    let found := commands.map fun u => (u, references catalogue defined aliases u.value)
    return ⟨found.filter (!·.2.isEmpty), m, aliases⟩

end TexLint
