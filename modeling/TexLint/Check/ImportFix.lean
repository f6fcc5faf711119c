import TexLint.Check.MissingImport

/-!
# Adding an import

A problem is mended by importing a package in the root document.

## The model

* The import goes on a line of its own: behind the last import, or behind the document
  class if there is no import, or at the top.
* A fix changes no document. It says what came of it (`FixOutcome`) and what the host is
  to do (`HostAction`).
-/

namespace TexLint

/-- An insertion into a document. -/
structure TextEdit where
  /-- The position of the document. -/
  document : Nat
  /-- Where the text goes. -/
  offset : Nat
  /-- The text to insert. -/
  text : Text
  deriving DecidableEq, Repr

/-- The source with the edit made. An offset past the end, or inside a character, moves
back to the nearest boundary. -/
def TextEdit.apply (edit : TextEdit) (source : Text) : Text :=
  let (before, behind) := splitFloor source edit.offset
  before ++ edit.text ++ behind

/-- What came of a fix. -/
inductive FixOutcome where
  /-- The import is to be inserted. -/
  | inserted (edit : TextEdit)
  /-- There is nothing to do. -/
  | alreadyIncluded
  /-- A package is not imported because one that excludes it is. -/
  | conflict (package conflicting : String)
  deriving DecidableEq, Repr

/-- What the host is to do. -/
inductive HostAction where
  /-- Make an edit. -/
  | insertImport (edit : TextEdit)
  /-- Tell the user something. -/
  | showAdvisory (title message : String)
  deriving DecidableEq, Repr

/-- The advisory that a package is refused. -/
def conflictAdvisory (package : String) : HostAction :=
  .showAdvisory "Conflicting package detected"
    ("The package " ++ package ++
      " was not inserted because a conflicting package was detected.")

namespace Document

/-- The command behind which an import is inserted. -/
def importAnchor? (d : Document) : Option CommandUsage :=
  (d.commands.reverse.find? (Vocabulary.packageImports.contains ·.name)).or
    (d.commands.find? (·.name == Vocabulary.documentClass))

/-- The edit that imports a package in the root document. -/
def importEdit (d : Document) (p : Package) : TextEdit :=
  let line := p.importCommand.toList
  match d.importAnchor? with
  | none => ⟨0, 0, line ++ ['\n']⟩
  | some anchor =>
    let behind := (splitFloor d.text anchor.span.stop).2
    let restOfLine := behind.takeWhile (· != '\n')
    if restOfLine.length < behind.length then
      ⟨0, anchor.span.stop + byteLength restOfLine + 1, line ++ ['\n']⟩
    else ⟨0, byteLength d.text, '\n' :: line⟩

end Document

namespace Package

/-- What the fix that imports a package is called. -/
def fixTitle (p : Package) : String := "Add import for package '" ++ p.name ++ "'"

/-- Imports a package unless it is imported already or excluded by an imported one. -/
def fix (p : Package) (graph : LoadGraph) (m : Manuscript) :
    Except ManuscriptError (FixOutcome × List HostAction) := do
  let root ← m.root
  let included := m.includedPackages
  if p.isKernel || included.contains p.name then return (.alreadyIncluded, [])
  match graph.conflictingPackage p.name included with
  | some conflicting => return (.conflict p.name conflicting, [conflictAdvisory p.name])
  | none =>
    let edit := root.importEdit p
    return (.inserted edit, [.insertImport edit])

end Package

end TexLint
