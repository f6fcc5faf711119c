import TexLint.Ordered

/-!
# The index of installed packages

What the style files of a distribution define and load, by package.
-/

namespace TexLint

/-- What a style file defines and loads. -/
structure PackageContents where
  /-- The names of the commands it defines, without backslash. -/
  commands : List String
  /-- The names of the environments it defines. -/
  environments : List String
  /-- The packages it loads. -/
  requires : List String
  deriving DecidableEq, Repr

/-- The contents of the style files by the name of the package. -/
structure PackageIndex where
  /-- The packages in the order in which they were found. -/
  packages : OrderedMap String PackageContents
  deriving DecidableEq, Repr

end TexLint
