import TexLint.Files.Tree
import TexLint.Json.Printer
import TexLint.Knowledge.Overlay
import TexLint.Knowledge.StyleFile

/-!
# Knowledge in files

Overlays, the index of installed packages, and the distribution it is made from, as they
stand in a file tree.
-/

namespace TexLint

/-- What is wrong with the file of a catalogue. -/
inductive CatalogueFileError where
  /-- The file cannot be read. -/
  | unreadable (path : String) (reason : ReadError)
  /-- What the file holds is no good. -/
  | overlay (error : OverlayError)
  deriving DecidableEq, Repr

/-- The wording of the error that a file cannot be read. -/
def unreadableMessage (path : String) (reason : ReadError) : String :=
  "failed to read " ++ path ++ ": " ++ reason.message

/-- The catalogue of the schemas in a file. -/
def Catalogue.ofFile (files : FileTree) (path : String) : Except CatalogueFileError Catalogue :=
  match files.readText path with
  | .error reason => .error (.unreadable path reason)
  | .ok text =>
    match ofText text with
    | .error e => .error (.overlay e)
    | .ok c => .ok c

/-- Why an index cannot be saved. -/
inductive SaveError where
  /-- The directory for the file cannot be made. -/
  | noDirectory (path : String)
  /-- The file cannot be written. -/
  | noFile (path : String)
  deriving DecidableEq, Repr

namespace PackageIndex

/-- The index in a file, if there is one. -/
def load? (files : FileTree) (path : String) : Option PackageIndex :=
  match files.readText path with
  | .error _ => none
  | .ok text => Json.readAs? ofJson? text

/-- The text of the file of an index. -/
def fileText (i : PackageIndex) : Text := i.toJson.pretty.toList

/-- Writes an index to a file, whose directory is made if it is not there. -/
def save (i : PackageIndex) (files : FileTree) (path : String) : Except SaveError FileTree :=
  let directory := (Path.parent? path).getD ""
  match files.makeDirectory directory with
  | none => .error (.noDirectory directory)
  | some files =>
    match files.writeFile path (Bytes.ofText i.fileText) with
    | none => .error (.noFile path)
    | some files => .ok files

/-- The extension of style files. -/
def styleExtension : String := "sty"

/-- The package that a file provides and what it defines, if it is a style file. -/
def ofStyleFile? (place : Place) (content : Bytes) : Option (String × PackageContents) :=
  place.getLast?.bind fun name =>
    let (stem, extension) := Path.splitExtension name
    if extension = some styleExtension then
      some (stem, .ofStyleFile (Bytes.lossyText content))
    else none

/-- The index of the style files in a directory and the directories in it, if there is
such a directory. A file is left out if its path from that of the directory is too long. -/
def ofDirectory? (files : FileTree) (path : String) : Option PackageIndex :=
  match files.find path with
  | .ok (place, .directory) =>
    let pathOf (below : Place) := Path.join path (Path.ofPieces (below.drop place.length))
    let within := (files.filesBelow place).filter fun f => !Path.isTooLong (pathOf f.1)
    some ⟨.ofList (within.filterMap fun f => ofStyleFile? f.1 f.2)⟩
  | _ => none

end PackageIndex

end TexLint
