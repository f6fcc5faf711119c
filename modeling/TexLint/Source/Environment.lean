import TexLint.Source.Parameter

/-!
# Environments

An environment in the tree: where it stands, where its beginning and its end stand, and
the name that its beginning gives.
-/

namespace TexLint

/-- An environment of a source. -/
structure Environment where
  /-- The range of the whole environment. -/
  span : Span
  /-- The range of its beginning with all parameters. -/
  opening : Span
  /-- The range of its end, if the source has one. -/
  closing : Option Span
  /-- Its name and where the name stands, if a brace group gives one. -/
  name : Option (Text × Span)
  deriving DecidableEq, Repr

namespace Environment

/-- The name in the first brace group after a beginning. The closing brace is left out
if the group ends with one. -/
def nameOf (parameters : List Parameter) : Option (Text × Span) :=
  (parameters.find? (·.isRequired)).map fun p =>
    let inner := p.text.drop 1
    let name := if inner.getLast? = some '}' then inner.dropLast else inner
    (name, .ofLength (p.offset + 1) (byteLength name))

/-- The environment that a node at the given offset is. -/
def ofTree? (offset : Nat) (tree : SyntaxTree) : Option Environment :=
  if tree.isNode .environment then
    let parts := SyntaxTree.withOffsets offset tree.children
    let part (kind : NodeKind) := parts.find? (·.2.isNode kind)
    let spanOf (p : Nat × SyntaxTree) : Span := .ofLength p.1 p.2.length
    (part .opening).map fun opening =>
      { span := .ofLength offset tree.length
        opening := spanOf opening
        closing := (part .closing).map spanOf
        name := nameOf (opening.2.parameters opening.1) }
  else none

end Environment

end TexLint
