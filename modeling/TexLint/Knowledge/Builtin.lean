import TexLint.Knowledge.Catalogue
import TexLint.Knowledge.LoadGraph

/-!
# Built-in knowledge

The commands, environments and packages that are known without any overlay.
-/

namespace TexLint.Builtin

/-! ### Entries -/

/-- Provided without an import. -/
def kernel : Option Package := some .kernel

/-- Provided by the package of the given name. -/
def named (name : String) : Option Package := some (.named name)

/-- A brace group with text. -/
def text (name : String) : Argument := .required ⟨name, none, true⟩

/-- A bracket group. -/
def optional (name : String) : Argument := .optional name

/-- A brace group that names files. The first extension is the default one. -/
def files (name : String) (extensions : List String) : Argument :=
  .required ⟨name, some ⟨extensions, extensions.headD ""⟩, true⟩

/-- A brace group that names one file. The first extension is the default one. -/
def file (name : String) (extensions : List String) : Argument :=
  .required ⟨name, some ⟨extensions, extensions.headD ""⟩, false⟩

/-- The schema of a command. -/
def command (name : String) (dependency : Option Package) (arguments : List Argument) :
    CommandSchema :=
  ⟨name, arguments, dependency⟩

/-- The extensions of images. -/
def imageExtensions : List String := ["pdf", "png", "jpg", "jpeg", "eps", "svg"]

/-- The extensions of program texts. -/
def listingExtensions : List String := ["tex", "txt", "py", "c", "java"]

/-! ### Commands -/

/-- What every document can use. -/
def kernelCommands : List CommandSchema := [
  command "sqrt" kernel [optional "root", text "radicand"],
  command "frac" kernel [text "numerator", text "denominator"],
  command "textbf" kernel [text "text"],
  command "emph" kernel [text "text"],
  command "section" kernel [optional "short", text "title"],
  command "label" kernel [text "key"],
  command "cite" kernel [optional "extra", text "keys"],
  command "index" kernel [text "entry"],
  command "makeindex" kernel [optional "options"],
  command "printindex" (named "makeidx") [],
  command "printindex" (named "imakeidx") [optional "options"],
  command "documentclass" kernel [optional "options", file "class" ["cls"]],
  command "usepackage" kernel [optional "options", files "packages" ["sty"]],
  command "RequirePackage" kernel [optional "options", files "packages" ["sty"]],
  command "input" kernel [file "file" ["tex"]],
  command "include" kernel [file "file" ["tex"]],
  command "includeonly" kernel [files "files" ["tex"]],
  command "bibliography" kernel [files "files" ["bib"]],
  command "bibliographystyle" kernel [file "style" ["bst"]],
  command "subfile" (named "subfiles") [file "file" ["tex"]]]

/-- Graphics and colour. -/
def graphicsCommands : List CommandSchema := [
  command "includegraphics" (named "graphicx") [optional "options",
    file "imagefile" imageExtensions],
  command "graphicspath" (named "graphicx") [text "paths"],
  command "textcolor" (named "xcolor") [text "color", text "text"],
  command "textcolor" (named "color") [text "color", text "text"],
  command "color" (named "xcolor") [text "color"],
  command "color" (named "color") [text "color"],
  command "definecolor" (named "xcolor") [text "name", text "model", text "spec"],
  command "tikz" (named "tikz") [],
  command "usetikzlibrary" (named "tikz") [text "libraries"],
  command "pgfmathsetmacro" (named "pgf") [text "macro", text "expression"]]

/-- Mathematics. -/
def mathCommands : List CommandSchema := [
  command "text" (named "amsmath") [text "text"],
  command "eqref" (named "amsmath") [text "key"],
  command "DeclareMathOperator" (named "amsmath") [text "command", text "operator"],
  command "DeclarePairedDelimiter" (named "mathtools") [text "command", text "left",
    text "right"],
  command "mathbb" (named "amssymb") [text "letters"],
  command "mathfrak" (named "amssymb") [text "letters"],
  command "checkmark" (named "amssymb") [],
  command "qedhere" (named "amsthm") [],
  command "SI" (named "siunitx") [optional "options", text "number", text "unit"],
  command "si" (named "siunitx") [optional "options", text "unit"]]

/-- Bibliographies. -/
def bibliographyCommands : List CommandSchema := [
  command "citep" (named "natbib") [optional "pre", optional "post", text "keys"],
  command "citet" (named "natbib") [optional "pre", optional "post", text "keys"],
  command "parencite" (named "biblatex") [optional "pre", optional "post", text "keys"],
  command "textcite" (named "biblatex") [optional "pre", optional "post", text "keys"],
  command "autocite" (named "biblatex") [optional "pre", optional "post", text "keys"],
  command "printbibliography" (named "biblatex") [optional "options"],
  command "addbibresource" (named "biblatex") [optional "options", file "resource" ["bib"]]]

/-- References and links. -/
def referenceCommands : List CommandSchema := [
  command "ref" kernel [text "key"],
  command "pageref" kernel [text "key"],
  command "nameref" (named "nameref") [text "key"],
  command "autoref" (named "hyperref") [text "key"],
  command "Autoref" (named "hyperref") [text "key"],
  command "fullref" (named "hyperref") [text "key"],
  command "vref" (named "varioref") [text "key"],
  command "cref" (named "cleveref") [text "keys"],
  command "Cref" (named "cleveref") [text "keys"],
  command "labelcref" (named "cleveref") [text "keys"],
  command "cpageref" (named "cleveref") [text "keys"],
  command "url" (named "url") [text "url"],
  command "url" (named "hyperref") [text "url"],
  command "href" (named "hyperref") [text "url", text "text"],
  command "hypersetup" (named "hyperref") [text "options"]]

/-- Listings, tables and captions. -/
def listingCommands : List CommandSchema := [
  command "lstinputlisting" (named "listings") [optional "options",
    file "file" listingExtensions],
  command "inputminted" (named "minted") [optional "options", text "language",
    file "file" listingExtensions],
  command "toprule" (named "booktabs") [],
  command "midrule" (named "booktabs") [],
  command "bottomrule" (named "booktabs") [],
  command "subcaption" (named "subcaption") [optional "short", text "caption"],
  command "subfloat" (named "subfig") [optional "caption"]]

/-- Glossaries and what fits nowhere else. -/
def glossaryCommands : List CommandSchema := [
  command "makeglossaries" (named "glossaries") [],
  command "gls" (named "glossaries") [text "label"],
  command "newglossaryentry" (named "glossaries") [text "label", text "definition"],
  command "todo" (named "todonotes") [optional "options", text "text"],
  command "hl" (named "soul") [text "text"],
  command "lipsum" (named "lipsum") [optional "paragraphs"]]

/-- The commands that define something; they never ask for an import. -/
def definitionCommands : List CommandSchema :=
  ["newcommand", "newcommand*", "renewcommand", "renewcommand*", "providecommand",
    "providecommand*", "newif", "NewDocumentCommand", "RenewDocumentCommand",
    "ProvideDocumentCommand", "DeclareDocumentCommand", "def", "let", "newenvironment",
    "renewenvironment", "newtheorem", "NewDocumentEnvironment"].map fun name =>
      command name kernel [text "name"]

/-- All known commands. -/
def commands : List CommandSchema :=
  kernelCommands ++ graphicsCommands ++ mathCommands ++ bibliographyCommands ++
    referenceCommands ++ listingCommands ++ glossaryCommands ++ definitionCommands

/-! ### Environments -/

/-- The environments that every document can use. -/
def kernelEnvironments : List String :=
  ["document", "itemize", "enumerate", "description", "figure", "table", "tabular", "center",
    "verbatim", "equation", "quote", "abstract", "thebibliography"]

/-- The environments that a package provides, with the package. -/
def packagedEnvironments : List (String × String) :=
  [("align", "amsmath"), ("align*", "amsmath"), ("gather", "amsmath"), ("multline", "amsmath"),
    ("equation*", "amsmath"), ("pmatrix", "amsmath"), ("bmatrix", "amsmath"),
    ("cases", "amsmath"), ("proof", "amsthm"), ("tikzpicture", "tikz"),
    ("lstlisting", "listings"), ("minted", "minted"), ("subfigure", "subcaption"),
    ("longtable", "longtable"), ("tabularx", "tabularx"), ("algorithm", "algorithm"),
    ("algorithmic", "algorithmic"), ("refsection", "biblatex")]

/-- All known environments. -/
def environments : List EnvironmentSchema :=
  kernelEnvironments.map (⟨·, kernel⟩) ++ packagedEnvironments.map fun e => ⟨e.1, named e.2⟩

/-! ### Packages -/

/-- The packages that packages load. -/
def loads : List (String × List String) :=
  [("amssymb", ["amsfonts"]),
    ("mathtools", ["amsmath"]),
    ("graphicx", ["graphics"]),
    ("xcolor", ["color"]),
    ("tikz", ["pgf"]),
    ("pgf", ["graphicx", "xcolor"]),
    ("hyperref", ["url", "nameref"]),
    ("subcaption", ["caption"]),
    ("glossaries-extra", ["glossaries"])]

/-- The packages that exclude each other. -/
def conflicts : List (List String) := [["biblatex", "natbib"], ["subfig", "subcaption"]]

end TexLint.Builtin

namespace TexLint

/-- The catalogue of the built-in entries. -/
def Catalogue.builtin : Catalogue :=
  (Catalogue.empty.merge ⟨Builtin.commands, Builtin.environments⟩).1

/-- The graph of the built-in loads and conflicts. -/
def LoadGraph.builtin : LoadGraph :=
  LoadGraph.empty.merge ⟨⟨Builtin.loads⟩, Builtin.conflicts⟩

end TexLint
