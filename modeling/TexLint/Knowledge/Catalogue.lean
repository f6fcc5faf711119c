import TexLint.Knowledge.Schema
import TexLint.Knowledge.PackageIndex

/-!
# The catalogue of known commands and environments

The catalogue finds the schemas of a command and the schema of an environment by name.

## The model

* A command is known by its name without the backslash. Its schemas stand in the order
  in which they were registered, and none of them stands there twice.
* A schema with a file argument that allows no extension is refused.
* An environment has one schema; registering it again replaces the schema.
* The index of installed packages adds only names that are not known.
-/

namespace TexLint

/-- A schema that is refused: the named file argument of the command allows no extension. -/
structure InvalidSchema where
  /-- The command as the schema gives it. -/
  command : String
  /-- The name of the argument. -/
  argument : String
  deriving DecidableEq, Repr

/-- The name of a command without one leading backslash. -/
def withoutBackslash (name : String) : String :=
  match name.toList with
  | '\\' :: rest => String.ofList rest
  | _ => name

/-- The known commands and environments. -/
structure Catalogue where
  /-- The schemas of each command. -/
  commands : OrderedMap String (List CommandSchema)
  /-- The schema of each environment. -/
  environments : OrderedMap String EnvironmentSchema
  deriving DecidableEq, Repr

/-- A list of schemas, from which a catalogue is filled and to which it is written. -/
structure CatalogueEntries where
  /-- The schemas of commands. -/
  commands : List CommandSchema
  /-- The schemas of environments. -/
  environments : List EnvironmentSchema
  deriving DecidableEq, Repr

namespace Catalogue

/-- The catalogue that knows nothing. -/
def empty : Catalogue := ⟨.empty, .empty⟩

/-- The schemas of a command, whose name may be given with its backslash. -/
def commandSchemas (c : Catalogue) (name : String) : List CommandSchema :=
  (c.commands.get? (withoutBackslash name)).getD []

/-- The schema of an environment. -/
def environment? (c : Catalogue) (name : String) : Option EnvironmentSchema :=
  c.environments.get? name

/-- Adds a schema of a command after those that are known. -/
def registerCommand (c : Catalogue) (schema : CommandSchema) : Except InvalidSchema Catalogue :=
  match schema.argumentWithoutExtensions with
  | some argument => .error ⟨schema.command, argument.name⟩
  | none =>
    let schema := { schema with command := withoutBackslash schema.command }
    let known := (c.commands.get? schema.command).getD []
    .ok { c with commands := c.commands.insert schema.command (addNew known schema) }

/-- Sets the schema of an environment. -/
def registerEnvironment (c : Catalogue) (schema : EnvironmentSchema) : Catalogue :=
  { c with environments := c.environments.insert schema.name schema }

/-- Adds the schemas of commands one after the other, up to the first one that is
refused; the second part says which one that is. -/
def registerCommands (c : Catalogue) : List CommandSchema → Catalogue × Option InvalidSchema
  | [] => (c, none)
  | schema :: schemas =>
    match c.registerCommand schema with
    | .ok c => c.registerCommands schemas
    | .error e => (c, some e)

/-- Adds entries: the commands, then the environments unless a command is refused. What
was added before a refusal stays. -/
def merge (c : Catalogue) (entries : CatalogueEntries) : Catalogue × Option InvalidSchema :=
  match c.registerCommands entries.commands with
  | (c, none) => (entries.environments.foldl registerEnvironment c, none)
  | refused => refused

/-- Adds a command that a package is found to define, unless the command is known. -/
def addFoundCommand (package : String) (c : Catalogue) (name : String) : Catalogue :=
  if c.commands.contains name then c
  else { c with commands := c.commands.insert name [⟨name, [], some (.named package)⟩] }

/-- Adds an environment that a package is found to define, unless it is known. -/
def addFoundEnvironment (package : String) (c : Catalogue) (name : String) : Catalogue :=
  if c.environments.contains name then c
  else c.registerEnvironment ⟨name, some (.named package)⟩

/-- Adds what a package is found to define. -/
def addFound (c : Catalogue) (found : String × PackageContents) : Catalogue :=
  found.2.environments.foldl (addFoundEnvironment found.1)
    (found.2.commands.foldl (addFoundCommand found.1) c)

/-- Adds what the index of installed packages lists and the catalogue does not know. -/
def extendFromIndex (c : Catalogue) (index : PackageIndex) : Catalogue :=
  index.packages.entries.foldl addFound c

/-- All schemas in order. -/
def toEntries (c : Catalogue) : CatalogueEntries :=
  ⟨c.commands.entries.flatMap Prod.snd, c.environments.entries.map Prod.snd⟩

end Catalogue

end TexLint
