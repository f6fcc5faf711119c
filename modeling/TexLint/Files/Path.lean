import TexLint.Document.Options

/-!
# Paths

Paths are kept as they are spelled. This module takes them apart and puts them together.

## The model

* `pieces` are what stands between the slashes. Empty pieces and dots mean nothing but at
  the start of a path; `components` leaves them out, and two paths count as the same path
  when their components are the same.
* A parent directory, a file name and an extension belong to the last piece that means
  something.
* Every text is a path, but not every path can lead somewhere: its length, that of its
  pieces and its characters are limited.
* An extension belongs to a file name, so one that leads into a directory is refused.
-/

namespace TexLint.Path

/-- The piece that stands for the directory itself. -/
def here : String := "."

/-- The piece that stands for the directory above. -/
def above : String := ".."

/-- The component that stands for the top of all directories. -/
def top : String := "/"

/-- What stands between the slashes of a path. -/
def pieces (path : String) : List String := (splitOnChar '/' path.toList).map String.ofList

/-- Whether a path starts at the top of all directories. -/
def isAbsolute (path : String) : Bool := path.toList.head? == some '/'

/-- Whether a piece that is not the first one means nothing. -/
def isIdle (piece : String) : Bool := piece == "" || piece == here

/-- The greatest length of a path in bytes. -/
def lengthLimit : Nat := 4095

/-- The greatest length of a name in bytes. -/
def nameLimit : Nat := 255

/-- Whether a path is too long to lead anywhere. -/
def isTooLong (path : String) : Bool := lengthLimit < path.utf8ByteSize

/-- Whether a piece is too long to name anything. -/
def isTooLongName (piece : String) : Bool := nameLimit < piece.utf8ByteSize

/-- Whether a path has a character in it that ends all paths. -/
def holdsNul (path : String) : Bool := path.toList.contains '\x00'

/-- What a path means, spelling apart. An absolute path starts with the top. -/
def components (path : String) : List String :=
  match pieces path with
  | [] => []
  | first :: rest =>
    let rest := rest.filter (!isIdle ·)
    if first != "" then first :: rest else if isAbsolute path then top :: rest else rest

/-- The pieces without those at the end that mean nothing. -/
def dropIdleEnd : List String → List String
  | [] => []
  | first :: rest => first :: (rest.reverse.dropWhile isIdle).reverse

/-- The path with the given pieces. -/
def ofPieces (pieces : List String) : String := String.intercalate "/" pieces

/-- The directory that holds what a path names; the top and the empty path have none. -/
def parent? (path : String) : Option String :=
  match (dropIdleEnd (pieces path)).reverse with
  | [] => none
  | [only] => if only == "" then none else some ""
  | _ :: before =>
    let rest := dropIdleEnd before.reverse
    some (if rest == [""] then top else ofPieces rest)

/-- The name of what a path names, unless it ends with a directory mark. -/
def fileName? (path : String) : Option String :=
  match dropIdleEnd (pieces path) with
  | [] => none
  | pieces =>
    (pieces.getLast?).filter fun last => last != "" && last != here && last != above

/-- A file name without its extension, and the extension. A dot at the start of the name
begins none. -/
def splitExtension (name : String) : String × Option String :=
  let reversed := name.toList.reverse
  let extension := reversed.takeWhile (· != '.')
  match reversed.dropWhile (· != '.') with
  | _ :: stem =>
    if stem.isEmpty then (name, none)
    else (String.ofList stem.reverse, some (String.ofList extension.reverse))
  | [] => (name, none)

/-- The extension of what a path names. -/
def extension? (path : String) : Option String :=
  (fileName? path).bind fun name => (splitExtension name).2

/-- An extension that nothing can have: there is a slash in it. -/
structure UnfitExtension where
  /-- The extension. -/
  extension : String
  deriving DecidableEq, Repr

/-- Whether an extension has a slash in it. -/
def isUnfit (extension : String) : Bool := extension.toList.contains '/'

/-- The path with an extension put to it, if it has none. An unfit extension is refused, even
where the path names nothing that could have one. -/
def withDefaultExtension (path extension : String) : Except UnfitExtension String :=
  if (extension? path).isSome then .ok path
  else if isUnfit extension then .error ⟨extension⟩
  else if (fileName? path).isNone then .ok path
  else
    let path := ofPieces (dropIdleEnd (pieces path))
    .ok (if extension == "" then path else path ++ "." ++ extension)

/-- A path read from a directory. An absolute path is read from the top. -/
def join (directory path : String) : String :=
  if isAbsolute path || directory == "" then path
  else if directory.toList.getLast? == some '/' then directory ++ path
  else directory ++ "/" ++ path

end TexLint.Path
