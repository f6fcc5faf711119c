import TexLint.Source.Tree
import TexLint.Text.Group

/-!
# Parameters of commands

A parameter is a brace or bracket group that follows a command. This module reads the
parameters of a node out of the tree, with what each of them holds.
-/

namespace TexLint

/-- The two kinds of parameter. -/
inductive ParameterKind where
  /-- A brace group. -/
  | required
  /-- A bracket group. -/
  | optional
  deriving DecidableEq, Repr

/-- One piece of what a parameter holds. -/
inductive Content where
  /-- A token or a construct, as it is written. -/
  | text (text : Text)
  /-- A brace group, without its braces. -/
  | group (interior : Text)
  deriving DecidableEq, Repr

/-- The characters of a piece. -/
def Content.chars : Content → Text
  | text t | group t => t

/-- A parameter of a command. -/
structure Parameter where
  /-- Which kind it is. -/
  kind : ParameterKind
  /-- The offset of its opening delimiter. -/
  offset : Nat
  /-- The parameter as it is written, with its delimiters. -/
  text : Text
  /-- What stands between its delimiters. -/
  contents : List Content
  deriving DecidableEq, Repr

namespace Parameter

/-- Whether the parameter is a brace group. -/
def isRequired (p : Parameter) : Bool := p.kind == .required

/-- The range of the parameter with its delimiters. -/
def span (p : Parameter) : Span := .ofLength p.offset (byteLength p.text)

/-- The text between the delimiters. -/
def interior (p : Parameter) : Text := stripGroup p.text

end Parameter

namespace SyntaxTree

/-- Whether a tree is a closing brace or bracket. -/
def isClosingToken (tree : SyntaxTree) : Bool := tree.isToken .rbrace || tree.isToken .rbracket

/-- The text of a group without its braces; a group that is cut off has no closing one. -/
def groupInterior (group : SyntaxTree) : Text :=
  let inner := group.text.drop 1
  match group.children.getLast? with
  | some last => if last.isToken .rbrace then inner.dropLast else inner
  | none => inner

/-- What a subtree is among the contents of a parameter. -/
def toContent (tree : SyntaxTree) : Content :=
  if tree.isNode .group then .group tree.groupInterior else .text tree.text

/-- The contents of a parameter with the given subtrees: the first one opens it, and the
last one closes it if it is a closing token. -/
def contentsOf (children : List SyntaxTree) : List Content :=
  let inner := children.drop 1
  let inner :=
    match inner.getLast? with
    | some last => if last.isClosingToken then inner.dropLast else inner
    | none => inner
  inner.map toContent

/-- The tree as a parameter, if it is one. -/
def toParameter? (offset : Nat) : SyntaxTree → Option Parameter
  | .node .required children =>
    some ⟨.required, offset, tokensText (tokensOfAll children), contentsOf children⟩
  | .node .optional children =>
    some ⟨.optional, offset, tokensText (tokensOfAll children), contentsOf children⟩
  | _ => none

/-- The parameters among the subtrees of a node at the given offset. -/
def parameters (offset : Nat) (tree : SyntaxTree) : List Parameter :=
  (withOffsets offset tree.children).filterMap fun (start, child) => child.toParameter? start

/-- The control sequence that a node starts with. -/
def commandName? : SyntaxTree → Option Text
  | .node _ (.leaf token :: _) => if token.kind = .command then some token.text else none
  | _ => none

end SyntaxTree

end TexLint
