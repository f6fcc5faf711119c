import TexLint.Check.MissingImport
import TexLint.Check.ImportFix
import TexLint.Check.Reference
import TexLint.Check.IndexProgram
import TexLint.Json.Value

/-!
# Reports

Problems, references and index programs as they are shown: as lines of text, or in JSON.

## The model

* A place is shown by line and column, both counted from one, the column in bytes.
* `Location.of` finds the line of an offset by the line feeds before it.
-/

namespace TexLint

/-- A place in a file. -/
structure Location where
  /-- The path of the file. -/
  file : String
  /-- The line of its start, counted from one. -/
  line : Nat
  /-- The byte in the line of its start, counted from one. -/
  column : Nat
  /-- The place as a range of offsets. -/
  span : Span
  deriving DecidableEq, Repr

namespace Location

/-- The place of a range of a document. -/
def of (d : Document) (span : Span) : Location :=
  let before := (splitFloor d.text span.start).1
  let lineStart := before.reverse.dropWhile (· != '\n')
  { file := d.path
    line := before.count '\n' + 1
    column := span.start - byteLength lineStart + 1
    span := span }

/-- The fields that show a place in JSON. -/
def fields (l : Location) : List (String × Json) :=
  [("file", .text l.file), ("line", .nat l.line), ("column", .nat l.column),
    ("start", .nat l.span.start), ("end", .nat l.span.stop)]

end Location

namespace Manuscript

/-- The place of a range in a document of the manuscript. -/
def locate? (m : Manuscript) (position : Nat) (span : Span) : Option Location :=
  (m.documents[position]?).map (Location.of · span)

end Manuscript

namespace Problem

/-- What the fixes of a problem are called. -/
def fixTitles (p : Problem) : List String := p.packages.map (·.fixTitle)

/-- A problem as text: its place and its message, then its fixes on lines of their own. -/
def report? (p : Problem) (m : Manuscript) : Option String :=
  (m.locate? p.document p.span).map fun l =>
    l.file ++ ":" ++ toString l.line ++ ":" ++ toString l.column ++ ": " ++ p.message ++
      String.join (p.fixTitles.map ("\n    fix: " ++ ·))

/-- A problem in JSON. -/
def toJson? (p : Problem) (m : Manuscript) : Option Json :=
  (m.locate? p.document p.span).map fun l =>
    .record (l.fields ++ [("message", .text p.message), ("fixes", .texts p.fixTitles)])

end Problem

namespace Reference

/-- What a reference names: the text at its place, or the command it stands for. -/
def shownTarget? (r : Reference) (u : CommandUsage) (text : Text) : Option String :=
  match r with
  | definition command => some command
  | _ => (r.target? u text).map String.ofList

/-- The extensions that the file of a reference may have. -/
def extensions : Reference → List String
  | file _ argument => argument.extensions
  | _ => []

/-- A reference in JSON. What it has nothing of is left out. -/
def toJson (r : Reference) (u : CommandUsage) (text : Text) : Json :=
  .record ([("kind", .text r.kind)] ++
    ((r.shownTarget? u text).map fun t => ("target", .text t)).toList ++
    if r.extensions.isEmpty then [] else [("extensions", .texts r.extensions)])

end Reference

/-- A command and what it refers to in JSON. -/
def referencesJson? (m : Manuscript) (u : Located CommandUsage) (references : List Reference) :
    Option Json :=
  (m.documents[u.document]?).map fun d =>
    .record ((Location.of d u.value.nameSpan).fields ++
      [("command", .text u.value.name),
        ("references", .array (references.map fun r => r.toJson u.value d.text))])

namespace IndexProgram

/-- A program as text: its name and the command that runs it. -/
def report (p : IndexProgram) : String := p.name ++ " (" ++ p.executable ++ ")"

/-- A program in JSON. -/
def toJson (p : IndexProgram) : Json :=
  .record [("program", .text p.name), ("executable", .text p.executable)]

end IndexProgram

end TexLint
