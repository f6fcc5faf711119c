import TexLint.CommandLine.Run

/-!
# The program

Looks at the files that a command looks at, runs the command on what was found, writes
what is new and prints. What a run does with the files it sees is laid down elsewhere.
-/

namespace TexLint.Program

/-- Whether there is a directory at a path of the disk. -/
def isDirectory (path : String) : IO Bool := (System.mkFilePath [path]).isDir

/-- The tree with what stands at a path of the disk. -/
def look (t : FileTree) (path : String) : IO FileTree := do
  if ← isDirectory path then
    return (t.makeDirectory path).getD t
  try
    let content ← IO.FS.readBinFile path
    return (t.addFile path content.toList).getD t
  catch _ =>
    return t

/-- Whether a path of the disk is a link. -/
def isLink (path : String) : IO Bool := do
  try
    return (← (System.mkFilePath [path]).symlinkMetadata).type == .symlink
  catch _ =>
    return true

/-- The tree with a directory of the disk and the style files in it and below. -/
partial def lookBelow (t : FileTree) (path : String) : IO FileTree := do
  let t ← look t path
  try
    let mut t := t
    for entry in ← (System.mkFilePath [path]).readDir do
      let below := Path.join path entry.fileName
      if ← isLink below then
        continue
      if ← isDirectory below then
        t ← lookBelow t below
      else if Path.extension? below == some PackageIndex.styleExtension then
        t ← look t below
    return t
  catch _ =>
    return t

/-- The tree with what a command looks at, after the paths that have been looked at. -/
partial def gather (command : Command) (seen : List String) (t : FileTree) : IO FileTree := do
  let new := (command.consulted t).filter (!seen.contains ·)
  if new.isEmpty then
    return t
  let step := match command with
    | .scanPackages _ _ => lookBelow
    | _ => look
  gather command (new ++ seen) (← new.foldlM step t)

/-- The files that a command line is about. -/
def gatherFor (arguments : List String) : IO FileTree :=
  match Command.ofArguments arguments with
  | .ok command => gather command [] .empty
  | .error _ => return .empty

/-- Whether a program can be found. -/
def hasProgram (name : String) : IO Bool := do
  let directories := ((← IO.getEnv "PATH").getD "").splitOn ":"
  directories.anyM fun directory => (System.mkFilePath [directory, name]).pathExists

/-- Writes what is new, and gives what could not be written. -/
def store (before after : FileTree) : IO (Option SaveError) := do
  for (place, entry) in after.changesSince before do
    match entry with
    | .directory =>
      try IO.FS.createDirAll place.path catch _ => return some (.noDirectory place.path)
    | .file content =>
      try IO.FS.writeBinFile place.path content.toByteArray
      catch _ => return some (.noFile place.path)
  return none

end TexLint.Program

open TexLint

/-- Runs the program. -/
def main (arguments : List String) : IO UInt32 := do
  let world : World :=
    { files := ← Program.gatherFor arguments
      hasPerl := ← Program.hasProgram "perl"
      cacheDirectory := cacheDirectory? (← IO.getEnv "XDG_CACHE_HOME") (← IO.getEnv "HOME") }
  let outcome := runProgram world arguments
  if let some error := ← Program.store world.files outcome.files then
    IO.eprintln (Failure.cannotSave error).report
    return 1
  IO.print outcome.output
  if let some error := outcome.error then
    IO.eprintln error
  if outcome.status = 2 then
    IO.eprint Command.usage
  return outcome.status.toUInt32
