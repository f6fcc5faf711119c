import TexLint.Document.Basic
import TexLint.Knowledge.Vocabulary

/-!
# Definitions of commands

Which commands a document defines, and which commands the definitions invoke.

## The model

* A definition names the command in its first brace group, `\newcommand{\foo}…`, or the
  command follows the defining one without a gap, `\def\foo…`.
* The body of a definition is the commands inside the parameters of its container: the
  defining command in the first form, the defined one in the second. The brace group
  with the name is not part of the body.
-/

namespace TexLint

/-- A definition of a command. -/
structure Definition where
  /-- The command that makes the definition. -/
  definer : CommandUsage
  /-- The command that is defined, with its backslash. -/
  name : String
  /-- Where the defined command is written. -/
  nameSpan : Span
  /-- The commands that the definition invokes. -/
  body : List CommandUsage
  deriving DecidableEq, Repr

namespace Definition

/-- Whether a usage is the command being defined, as opposed to a use of it. -/
def defines (d : Definition) (u : CommandUsage) : Bool :=
  d.name == u.name && d.nameSpan.contains u.span

/-- The names of the commands that the definition invokes. -/
def bodyNames (d : Definition) : List String := d.body.map (·.name)

end Definition

namespace Document

/-- The commands after a container that lie inside it, up to the first that does not. -/
def inside (d : Document) (container : CommandUsage) : List CommandUsage :=
  (d.commands.drop (container.index + 1)).takeWhile (container.span.contains ·.span)

/-- The definition in braces that a command makes, whose name stands in the given group. -/
def bracedDefinition? (d : Document) (u : CommandUsage) (group : Parameter) :
    Option Definition :=
  let name := trim group.interior
  if name.head? = some '\\' then
    some
      { definer := u
        name := String.ofList name
        nameSpan := group.span
        body := (d.inside u).filter (!group.span.contains ·.span) }
  else none

/-- The definition that a command makes of the command glued to it. -/
def gluedDefinition? (d : Document) (u : CommandUsage) : Option Definition :=
  (d.commands[u.index + 1]?).bind fun target =>
    if target.span.start = u.span.stop then
      some
        { definer := u
          name := target.name
          nameSpan := target.span
          body := d.inside target }
    else none

/-- The definition that a command of the document makes, if it makes one. -/
def definition? (d : Document) (u : CommandUsage) : Option Definition :=
  if Vocabulary.definesCommand u.name then
    match u.firstRequired with
    | some group => d.bracedDefinition? u group
    | none => d.gluedDefinition? u
  else none

/-- The definitions in the document, in order. -/
def definitions (d : Document) : List Definition := d.commands.filterMap d.definition?

/-- Whether a command of the document is being defined by the one just before it. -/
def isBeingDefined (d : Document) (u : CommandUsage) : Bool :=
  ((d.previous? u).bind d.definition?).any (·.defines u)

end Document

end TexLint
