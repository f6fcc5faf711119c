import TexLint.Knowledge.Package

/-!
# Schemas of commands and environments

What is known of a command: which arguments it takes, what they hold, and which package
provides it. A command may have several schemas, as several packages may provide it.
-/

namespace TexLint

/-- How an argument names a file. -/
structure FileArgument where
  /-- The extensions that the file may have. -/
  extensions : List String
  /-- The extension of a name that is written without one. -/
  defaultExtension : String
  deriving DecidableEq, Repr

/-- An argument that is a brace group. -/
structure RequiredArgument where
  /-- What the argument is called. -/
  name : String
  /-- How the argument names a file, if it does. -/
  file : Option FileArgument
  /-- Whether the argument holds several values with commas between them. -/
  commaSeparated : Bool
  deriving DecidableEq, Repr

/-- An argument of a command. -/
inductive Argument where
  /-- A brace group. -/
  | required (argument : RequiredArgument)
  /-- A bracket group of the given name. -/
  | optional (name : String)
  deriving DecidableEq, Repr

/-- The argument as a brace group, if it is one. -/
def Argument.asRequired : Argument → Option RequiredArgument
  | required argument => some argument
  | optional _ => none

/-- One known form of a command. -/
structure CommandSchema where
  /-- The name of the command without its backslash. -/
  command : String
  /-- The arguments in order. -/
  arguments : List Argument
  /-- The package that provides the command, if it is known. -/
  dependency : Option Package
  deriving DecidableEq, Repr

namespace CommandSchema

/-- The arguments that are brace groups. -/
def requiredArguments (s : CommandSchema) : List RequiredArgument :=
  s.arguments.filterMap Argument.asRequired

/-- The first argument that names a file but allows no extension. -/
def argumentWithoutExtensions (s : CommandSchema) : Option RequiredArgument :=
  s.requiredArguments.find? fun a => a.file.any (·.extensions.isEmpty)

end CommandSchema

/-- What is known of an environment. -/
structure EnvironmentSchema where
  /-- The name of the environment. -/
  name : String
  /-- The package that provides the environment, if it is known. -/
  dependency : Option Package
  deriving DecidableEq, Repr

end TexLint
