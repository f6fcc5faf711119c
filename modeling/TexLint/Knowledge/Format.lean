import TexLint.Json.Record
import TexLint.Knowledge.Catalogue
import TexLint.Knowledge.LoadGraph

/-!
# Knowledge in JSON

The JSON forms of packages, schemas, catalogues, graphs and the index of installed
packages.

## The model

* Each type has a form it is written in (`toJson`) and a reader (`ofJson?`), which takes
  records in either of their two forms and knows which fields may be missing.
* An argument is read as a whole before it is known which fields it has, so all that it
  holds must be such as can be kept (`Json.isKept`). `levels` says how deep the argument
  may be nested.
-/

namespace TexLint

open Json (required withDefault fieldsOf toText? toBool? toList? toFields? toOption?)

/-- How deep a JSON value that is kept may be nested. -/
def maxJsonLevels : Nat := 127

/-- The form of a value that may be absent. -/
def Json.ofOption {α : Type} (toJson : α → Json) : Option α → Json
  | none => .null
  | some a => toJson a

namespace Package

/-- The JSON form of a package. Options are written only if there are any. -/
def toJson (p : Package) : Json :=
  .record (("name", .text p.name) ::
    if p.options.isEmpty then [] else [("options", .texts p.options)])

/-- Reads a package. -/
def ofJson? (j : Json) : Option Package := do
  match ← fieldsOf ["name", "options"] j with
  | [name, options] =>
    some ⟨← required toText? name, ← withDefault [] (toList? toText?) options⟩
  | _ => none

end Package

namespace FileArgument

/-- The JSON form of a file argument. -/
def toJson (f : FileArgument) : Json :=
  .record [("extensions", .texts f.extensions), ("default_extension", .text f.defaultExtension)]

/-- Reads a file argument. -/
def ofJson? (j : Json) : Option FileArgument := do
  match ← fieldsOf ["extensions", "default_extension"] j with
  | [extensions, default] =>
    some ⟨← required (toList? toText?) extensions, ← required toText? default⟩
  | _ => none

end FileArgument

namespace Argument

/-- The JSON form of an argument, which names its kind. -/
def toJson : Argument → Json
  | required a =>
    .record ([("kind", .text "required"), ("name", .text a.name)] ++
      (a.file.map fun f => ("file", f.toJson)).toList ++
      [("comma_separated", .bool a.commaSeparated)])
  | optional name => .record [("kind", .text "optional"), ("name", .text name)]

/-- The kind of an argument and the rest of its record. -/
def splitKind? : Json → Option (Json × Json)
  | .object fields =>
    match fields.filter (·.1 == some "kind") with
    | [kind] => some (kind.2, .object (fields.filter (·.1 != some "kind")))
    | _ => none
  | .array (kind :: rest) => some (kind, .array rest)
  | _ => none

/-- Reads an argument. Values are separated by commas unless it says otherwise. -/
def ofJson? (levels : Nat) (j : Json) : Option Argument := do
  if !j.isKept levels then none
  let (kind, rest) ← splitKind? j
  match ← toText? kind with
  | "required" =>
    match ← fieldsOf ["name", "file", "comma_separated"] rest with
    | [name, file, commaSeparated] =>
      let file ← withDefault none (toOption? FileArgument.ofJson?) file
      some (.required
        ⟨← Json.required toText? name, file, ← withDefault true toBool? commaSeparated⟩)
    | _ => none
  | "optional" =>
    match ← fieldsOf ["name"] rest with
    | [name] => some (.optional (← Json.required toText? name))
    | _ => none
  | _ => none

end Argument

namespace CommandSchema

/-- The JSON form of the schema of a command. -/
def toJson (s : CommandSchema) : Json :=
  .record
    [("command", .text s.command), ("arguments", .array (s.arguments.map (·.toJson))),
      ("dependency", Json.ofOption Package.toJson s.dependency)]

/-- Reads the schema of a command, whose record may be nested to the given depth. -/
def ofJson? (levels : Nat) (j : Json) : Option CommandSchema := do
  match ← fieldsOf ["command", "arguments", "dependency"] j with
  | [command, arguments, dependency] =>
    let arguments ← withDefault [] (toList? (Argument.ofJson? (levels - 2))) arguments
    let dependency ← withDefault none (toOption? Package.ofJson?) dependency
    some ⟨← required toText? command, arguments, dependency⟩
  | _ => none

end CommandSchema

namespace EnvironmentSchema

/-- The JSON form of the schema of an environment. -/
def toJson (s : EnvironmentSchema) : Json :=
  .record [("name", .text s.name), ("dependency", Json.ofOption Package.toJson s.dependency)]

/-- Reads the schema of an environment. -/
def ofJson? (j : Json) : Option EnvironmentSchema := do
  match ← fieldsOf ["name", "dependency"] j with
  | [name, dependency] =>
    some ⟨← required toText? name, ← withDefault none (toOption? Package.ofJson?) dependency⟩
  | _ => none

end EnvironmentSchema

namespace CatalogueEntries

/-- The JSON form of the entries of a catalogue. -/
def toJson (e : CatalogueEntries) : Json :=
  .record
    [("commands", .array (e.commands.map (·.toJson))),
      ("environments", .array (e.environments.map (·.toJson)))]

/-- Reads the entries of a catalogue. -/
def ofJson? (j : Json) : Option CatalogueEntries := do
  match ← fieldsOf ["commands", "environments"] j with
  | [commands, environments] =>
    some
      ⟨← withDefault [] (toList? (CommandSchema.ofJson? (maxJsonLevels - 2))) commands,
        ← withDefault [] (toList? EnvironmentSchema.ofJson?) environments⟩
  | _ => none

end CatalogueEntries

/-- Reads an ordered map from an object. -/
def OrderedMap.ofJson? {α : Type} (read : Json → Option α) (j : Json) :
    Option (OrderedMap String α) :=
  (toFields? read j).map .ofList

/-- The JSON form of an ordered map: an object. -/
def OrderedMap.toJson {α : Type} (toJson : α → Json) (m : OrderedMap String α) : Json :=
  .record (m.entries.map fun e => (e.1, toJson e.2))

namespace LoadEntries

/-- The JSON form of the entries of a graph. -/
def toJson (e : LoadEntries) : Json :=
  .record
    [("loads", e.loads.toJson Json.texts), ("conflicts", .array (e.conflicts.map Json.texts))]

/-- Reads the entries of a graph. -/
def ofJson? (j : Json) : Option LoadEntries := do
  match ← fieldsOf ["loads", "conflicts"] j with
  | [loads, conflicts] =>
    some
      ⟨← withDefault .empty (OrderedMap.ofJson? (toList? toText?)) loads,
        ← withDefault [] (toList? (toList? toText?)) conflicts⟩
  | _ => none

end LoadEntries

namespace PackageContents

/-- The JSON form of the contents of a style file. -/
def toJson (c : PackageContents) : Json :=
  .record
    [("commands", .texts c.commands), ("environments", .texts c.environments),
      ("requires", .texts c.requires)]

/-- Reads the contents of a style file. -/
def ofJson? (j : Json) : Option PackageContents := do
  match ← fieldsOf ["commands", "environments", "requires"] j with
  | [commands, environments, requires] =>
    some
      ⟨← required (toList? toText?) commands, ← required (toList? toText?) environments,
        ← withDefault [] (toList? toText?) requires⟩
  | _ => none

end PackageContents

namespace PackageIndex

/-- The JSON form of an index. -/
def toJson (i : PackageIndex) : Json :=
  .record [("packages", i.packages.toJson PackageContents.toJson)]

/-- Reads an index. -/
def ofJson? (j : Json) : Option PackageIndex := do
  match ← fieldsOf ["packages"] j with
  | [packages] => some ⟨← required (OrderedMap.ofJson? PackageContents.ofJson?) packages⟩
  | _ => none

end PackageIndex

end TexLint
