import TexLint.Json.Reader
import TexLint.Text.Basic
import TexLint.Knowledge.Format

/-!
# Overlays

An overlay is a JSON document that adds to what is known: schemas to a catalogue, loads
and conflicts to a graph.

## The model

* A document that cannot be read adds nothing.
* A schema that is refused ends the merge; what came before it stays.
-/

namespace TexLint

/-- Reads a JSON document with the given reader. -/
def Json.readAs? {α : Type} (ofJson? : Json → Option α) (text : Text) : Option α :=
  (Json.read? text).bind ofJson?

/-- What is wrong with an overlay for a catalogue. -/
inductive OverlayError where
  /-- The document cannot be read. -/
  | malformed
  /-- A schema is refused. -/
  | invalidSchema (schema : InvalidSchema)
  deriving DecidableEq, Repr

/-- The wording of a refusal. -/
def InvalidSchema.message (e : InvalidSchema) : String :=
  "file argument `" ++ e.argument ++ "` of \\" ++ e.command ++ " declares no extensions"

namespace Catalogue

/-- Adds the schemas of an overlay. -/
def mergeText (c : Catalogue) (text : Text) : Catalogue × Option OverlayError :=
  match Json.readAs? CatalogueEntries.ofJson? text with
  | none => (c, some .malformed)
  | some entries =>
    let (c, refused) := c.merge entries
    (c, refused.map .invalidSchema)

/-- The catalogue of the schemas in a document. -/
def ofText (text : Text) : Except OverlayError Catalogue :=
  match empty.mergeText text with
  | (c, none) => .ok c
  | (_, some e) => .error e

end Catalogue

namespace LoadGraph

/-- Adds the loads and conflicts of an overlay, if it can be read. -/
def mergeText? (g : LoadGraph) (text : Text) : Option LoadGraph :=
  (Json.readAs? LoadEntries.ofJson? text).map g.merge

/-- The graph of the loads and conflicts in a document, if it can be read. -/
def ofText? (text : Text) : Option LoadGraph := empty.mergeText? text

end LoadGraph

end TexLint
