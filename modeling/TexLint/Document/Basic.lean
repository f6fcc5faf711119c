import TexLint.Document.Usage

/-!
# Documents

A document is a source file that has been read: its text, the commands and environments
used in it, and what is wrong with it.
-/

namespace TexLint

/-- A source file that has been read. -/
structure Document where
  /-- The path of the file as it was given. -/
  path : String
  /-- The text of the file. -/
  text : Text
  /-- The commands in the order in which they start. -/
  commands : List CommandUsage
  /-- The environments in the order in which they start. -/
  environments : List EnvironmentUsage
  /-- The defects of the source. -/
  errors : List SyntaxError
  deriving DecidableEq, Repr

namespace Document

/-- Reads a source file. -/
def read (path : String) (text : Text) : Document :=
  let parsed := parse text
  { path, text
    commands := commandUsages parsed.tree
    environments := environmentUsages parsed.tree
    errors := parsed.errors }

/-- The command that starts just before the given one. -/
def previous? (d : Document) (u : CommandUsage) : Option CommandUsage :=
  u.previousIndex.bind (d.commands[·]?)

end Document

end TexLint
