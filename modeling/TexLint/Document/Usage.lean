import TexLint.Source.Parse
import TexLint.Source.Environment
import TexLint.Text.Split

/-!
# Usages of commands and environments

What the checks need to know of a source: each command that is used, with its
parameters, and each environment that is begun, in the order in which they start.
-/

namespace TexLint

/-- The name of a command without the star of its starred form. The control symbol made
of a star keeps it. -/
def unstarred (name : String) : String :=
  let chars := name.toList
  if chars.getLast? = some '*' ∧ 1 < byteLength chars.dropLast then
    String.ofList chars.dropLast
  else name

/-- One use of a command. -/
structure CommandUsage where
  /-- The control sequence with its backslash and its star. -/
  name : String
  /-- The range of the command with its parameters. -/
  span : Span
  /-- The parameters in order. -/
  parameters : List Parameter
  /-- How many commands of the document start before this one. -/
  index : Nat
  deriving DecidableEq, Repr

namespace CommandUsage

/-- The range of the control sequence alone. -/
def nameSpan (u : CommandUsage) : Span := .ofLength u.span.start (byteLength u.name.toList)

/-- The name without its star, by which commands are known. -/
def baseName (u : CommandUsage) : String := unstarred u.name

/-- The index of the command that starts just before this one. -/
def previousIndex (u : CommandUsage) : Option Nat :=
  if u.index = 0 then none else some (u.index - 1)

/-- The parameters that are brace groups. -/
def requiredParameters (u : CommandUsage) : List Parameter :=
  u.parameters.filter (·.isRequired)

/-- The parameters that are bracket groups. -/
def optionalParameters (u : CommandUsage) : List Parameter :=
  u.parameters.filter (!·.isRequired)

/-- The first brace group. -/
def firstRequired (u : CommandUsage) : Option Parameter := u.parameters.find? (·.isRequired)

/-- Where a parameter stands, counted from the start of the command. -/
def relativeOffset (u : CommandUsage) (p : Parameter) : Nat := p.offset - u.span.start

end CommandUsage

/-- One beginning of an environment. -/
structure EnvironmentUsage where
  /-- The name of the environment. -/
  name : String
  /-- The range of the beginning with its parameters. -/
  span : Span
  /-- Where the name stands. -/
  nameSpan : Span
  deriving DecidableEq, Repr

/-- The command that a visited node is, before it has its index. -/
def SyntaxTree.Visit.command? (v : SyntaxTree.Visit) : Option (Nat → CommandUsage) :=
  if v.tree.isNode .command then
    v.tree.commandName?.map fun name index =>
      ⟨String.ofList name, v.span, v.tree.parameters v.offset, index⟩
  else none

/-- The commands of a source in the order in which they start. -/
def commandUsages (tree : SyntaxTree) : List CommandUsage :=
  ((tree.preorder 0 0).filterMap (·.command?)).mapIdx fun index usage => usage index

/-- The environments of a source in the order in which they start. -/
def environments (tree : SyntaxTree) : List Environment :=
  (tree.preorder 0 0).filterMap fun v => Environment.ofTree? v.offset v.tree

/-- The environment as a usage, if it has a name. -/
def Environment.toUsage? (e : Environment) : Option EnvironmentUsage :=
  e.name.map fun (name, span) => ⟨String.ofList name, e.opening, span⟩

/-- The named environments of a source in the order in which they start. -/
def environmentUsages (tree : SyntaxTree) : List EnvironmentUsage :=
  (environments tree).filterMap (·.toUsage?)

/-- The texts of the brace groups among some parameters, without the braces at either
end and the whitespace around what is left. -/
def requiredTexts (parameters : List Parameter) : List Text :=
  (parameters.filter (·.isRequired)).map fun p =>
    trim (dropEndWhile (· == '}') (p.text.dropWhile (· == '{')))

end TexLint
