import TexLint.Files.Path
import TexLint.Text.Utf8
import TexLint.Ordered

/-!
# File trees

The files and directories that a run of the program can see, as a value.

## The model

* A `Place` is the names on the way from the working directory, or from the top, to a
  file or directory. Directories above the working directory are reached by `..` names.
* `FileTree` binds places to files and directories. The working directory, those above it
  and the top are always there.
* `find` walks a path: every piece but the last must lead to a directory, and a slash or
  a dot behind a file leads nowhere. There are no links. The tree does not know where the
  working directory stands: a file in it has one place for the paths that stay inside, and
  other ones for paths that come in from the top or by name from a directory above.
* A path that can lead nowhere in any tree is refused as a whole (`refusal?`) before it
  is walked; a name that is too long is refused where it is met.
-/

namespace TexLint

/-- The way to a file or directory. -/
abbrev Place := List String

/-- A path that leads to a place. -/
def Place.path : Place → String
  | [] => Path.here
  | name :: names =>
    if name == Path.top then name ++ Path.ofPieces names else Path.ofPieces (name :: names)

/-- What can stand at a place. -/
inductive Entry where
  /-- A file and what it holds. -/
  | file (content : Bytes)
  /-- A directory. -/
  | directory
  deriving DecidableEq, Repr

/-- Why a file cannot be read. -/
inductive ReadError where
  /-- There is nothing at the path. -/
  | notFound
  /-- A piece of the path is taken for a directory and is none. -/
  | notDirectory
  /-- There is a directory at the path. -/
  | isDirectory
  /-- The path, or a name in it, is too long. -/
  | tooLong
  /-- The path has a NUL in it. -/
  | holdsNul
  /-- The file does not hold text. -/
  | notText
  deriving DecidableEq, Repr

/-- The wording of a read error. -/
def ReadError.message : ReadError → String
  | notFound => "No such file or directory (os error 2)"
  | notDirectory => "Not a directory (os error 20)"
  | isDirectory => "Is a directory (os error 21)"
  | tooLong => "File name too long (os error 36)"
  | holdsNul => "file name contained an unexpected NUL byte"
  | notText => "stream did not contain valid UTF-8"

/-- The files and directories that can be seen. -/
structure FileTree where
  /-- What stands where. -/
  entries : OrderedMap Place Entry
  deriving DecidableEq, Repr

namespace FileTree

/-- The tree without files. -/
def empty : FileTree := ⟨.empty⟩

/-- Whether a place is a directory in every tree. -/
def isGiven (place : Place) : Bool := place == [Path.top] || place.all (· == Path.above)

/-- What stands at a place. -/
def entry? (t : FileTree) (place : Place) : Option Entry :=
  if isGiven place then some .directory else t.entries.get? place

/-- Where a piece of a path leads from a place. -/
def stepPlace (place : Place) (piece : String) : Place :=
  if Path.isIdle piece then place
  else if piece == Path.above then
    if place == [Path.top] then place
    else if place.all (· == Path.above) then place ++ [piece]
    else place.dropLast
  else place ++ [piece]

/-- The place where a path starts and the pieces that lead on from there. -/
def startOf (path : String) : Place × List String :=
  if Path.isAbsolute path then ([Path.top], (Path.pieces path).drop 1)
  else ([], Path.pieces path)

/-- Why a path is refused before it is walked, if it is. -/
def refusal? (path : String) : Option ReadError :=
  if Path.holdsNul path then some .holdsNul
  else if path == "" then some .notFound
  else if Path.isTooLong path then some .tooLong
  else none

/-- Follows the pieces of a path from a place. -/
def walk (t : FileTree) (place : Place) : List String → Except ReadError Place
  | [] => .ok place
  | piece :: pieces =>
    match t.entry? place with
    | none => .error .notFound
    | some (.file _) => .error .notDirectory
    | some .directory =>
      if Path.isTooLongName piece then .error .tooLong
      else t.walk (stepPlace place piece) pieces

/-- The place and the entry that a path leads to. -/
def find (t : FileTree) (path : String) : Except ReadError (Place × Entry) :=
  match refusal? path with
  | some e => .error e
  | none =>
    let (start, pieces) := startOf path
    match t.walk start pieces with
    | .error e => .error e
    | .ok place =>
      match t.entry? place with
      | none => .error .notFound
      | some entry => .ok (place, entry)

/-- What the file at a path holds. -/
def readBytes (t : FileTree) (path : String) : Except ReadError Bytes :=
  match t.find path with
  | .error e => .error e
  | .ok (_, .directory) => .error .isDirectory
  | .ok (_, .file content) => .ok content

/-- The text of the file at a path. -/
def readText (t : FileTree) (path : String) : Except ReadError Text :=
  match t.readBytes path with
  | .error e => .error e
  | .ok content =>
    match Bytes.text? content with
    | none => .error .notText
    | some text => .ok text

/-- What can be read stands in the tree, at some place. -/
theorem exists_mem_of_readBytes {t : FileTree} {path : String} {content : Bytes}
    (h : t.readBytes path = .ok content) :
    ∃ place, (place, Entry.file content) ∈ t.entries.entries := by
  unfold readBytes at h
  split at h
  · cases h
  · cases h
  · next place _ hfind =>
    cases h
    refine ⟨place, OrderedMap.mem_of_get? ?_⟩
    have hentry : t.entry? place = some (.file content) := by
      unfold find at hfind
      grind
    unfold entry? at hentry
    split at hentry
    · cases hentry
    · exact hentry

/-- A text that can be read is that of a file in the tree. -/
theorem exists_mem_of_readText {t : FileTree} {path : String} {text : Text}
    (h : t.readText path = .ok text) :
    ∃ place content, (place, Entry.file content) ∈ t.entries.entries ∧
      Bytes.text? content = some text := by
  unfold readText at h
  split at h
  · cases h
  · next content hread =>
    obtain ⟨place, hmem⟩ := exists_mem_of_readBytes hread
    split at h
    · cases h
    · next htext => cases h; exact ⟨place, content, hmem, htext⟩

/-- Whether a path leads to a file. -/
def isFile (t : FileTree) (path : String) : Bool := (t.readBytes path).toBool

/-- Whether a path leads to a directory. -/
def isDirectory (t : FileTree) (path : String) : Bool :=
  match t.find path with
  | .ok (_, .directory) => true
  | _ => false

/-- Makes the directories that a path passes through and ends with, as far as they are
not there. Fails where a file is in the way and at a name that is too long. -/
def makeDirectories (t : FileTree) (place : Place) : List String → Option FileTree
  | [] => some t
  | piece :: pieces =>
    if Path.isTooLongName piece then none
    else
      let next := stepPlace place piece
      match t.entry? next with
      | some (.file _) => none
      | some .directory => t.makeDirectories next pieces
      | none => (⟨t.entries.insert next .directory⟩ : FileTree).makeDirectories next pieces

/-- Makes the directory at a path and those that lead to it. The empty path needs none. -/
def makeDirectory (t : FileTree) (path : String) : Option FileTree :=
  if path == "" then some t
  else if (refusal? path).isSome then none
  else
    let (start, pieces) := startOf path
    t.makeDirectories start pieces

/-- Writes a file in a directory that is there. -/
def writeFile (t : FileTree) (path : String) (content : Bytes) : Option FileTree :=
  let (start, pieces) := startOf path
  match pieces.reverse with
  | [] => none
  | name :: before =>
    if (refusal? path).isSome || Path.isIdle name || name == Path.above ||
        Path.isTooLongName name then none
    else
      match t.walk start before.reverse with
      | .error _ => none
      | .ok directory =>
        let place := stepPlace directory name
        match t.entry? directory, t.entry? place with
        | some .directory, some .directory => none
        | some .directory, _ => some ⟨t.entries.insert place (.file content)⟩
        | _, _ => none

/-- Writes a file and makes the directories that lead to it. -/
def addFile (t : FileTree) (path : String) (content : Bytes) : Option FileTree :=
  (t.makeDirectory ((Path.parent? path).getD "")).bind (·.writeFile path content)

/-- The files in a directory and the directories in it, with their places. -/
def filesBelow (t : FileTree) (place : Place) : List (Place × Bytes) :=
  t.entries.entries.filterMap fun (p, entry) =>
    match entry with
    | .file content =>
      if place.isPrefixOf p && place.length < p.length then some (p, content) else none
    | .directory => none

/-- What stands in a tree and did not stand in an earlier one. -/
def changesSince (t before : FileTree) : List (Place × Entry) :=
  t.entries.entries.filter fun (place, entry) => before.entry? place != some entry

end FileTree

end TexLint
