import TexLint.Text.Group

/-!
# Splitting at separators

A parameter may hold several values with separators between them. A separator counts
only where the text is unprotected: outside brace groups and not after a backslash.

## The model

* A `Separator` says how many characters at the start of a text it takes; its
  occurrences are found from left to right and do not overlap (`Separator.cuts`).
* `Protection` follows the text character by character and says of each whether it is
  protected. An occurrence with a protected character in it is no separator.
* `split` gives the pieces between the separators, each with its offset. Pieces may
  be empty; an empty text has none.
-/

namespace TexLint

/-- A separator: how many characters at the start of a text it takes, zero if the text
does not start with it. -/
abbrev Separator := Text → Nat

namespace Separator

/-- A run of one or more of the given character. -/
def run (c : Char) : Separator := fun text => (text.takeWhile (· == c)).length

/-- One of the given characters. -/
def oneOf (cs : List Char) : Separator
  | [] => 0
  | c :: _ => if cs.contains c then 1 else 0

/-- The given text. -/
def literal (word : Text) : Separator := fun text =>
  if word.isPrefixOf text then word.length else 0

/-- The given character with all the whitespace around it. -/
def padded (c : Char) : Separator := fun text =>
  match text.dropWhile isWhitespace with
  | [] => 0
  | d :: rest =>
    if d = c then
      (text.takeWhile isWhitespace).length + 1 + (rest.takeWhile isWhitespace).length
    else 0

/-- The separator between the values of a parameter: a comma with the whitespace around it. -/
def parameter : Separator := padded ','

end Separator

/-- A stretch of text and the separator at its end. -/
structure Cut where
  /-- What comes before the separator. -/
  before : Text
  /-- The separator as it is written. -/
  separator : Text
  deriving DecidableEq, Repr

/-- The worker of `Separator.cuts`: `before` holds, in reverse, the text since the last
separator, and `skip` counts the characters of that separator that are still to come. -/
def Separator.cutsFrom (sep : Separator) (before : Text) (skip : Nat) : Text → List Cut × Text
  | [] => ([], before.reverse)
  | c :: rest =>
    match skip with
    | skip + 1 => cutsFrom sep before skip rest
    | 0 =>
      match sep (c :: rest) with
      | 0 => cutsFrom sep (c :: before) 0 rest
      | n + 1 =>
        let (cuts, last) := cutsFrom sep [] n rest
        (⟨before.reverse, (c :: rest).take (n + 1)⟩ :: cuts, last)

/-- Cuts a text at all occurrences of a separator: the stretches that end with one, and
the rest. -/
def Separator.cuts (sep : Separator) (text : Text) : List Cut × Text := cutsFrom sep [] 0 text

/-- What protects the next character of a text. -/
structure Protection where
  /-- How many brace groups are open. -/
  depth : Nat
  /-- Whether a backslash stands before the character. -/
  escaped : Bool
  deriving DecidableEq, Repr

namespace Protection

/-- Nothing is open at the start of a text. -/
def start : Protection := ⟨0, false⟩

/-- The state after a character. -/
def next (p : Protection) (c : Char) : Protection :=
  if p.escaped then ⟨p.depth, false⟩
  else if c = '\\' then ⟨p.depth, true⟩
  else if c = '{' then ⟨p.depth + 1, false⟩
  else if c = '}' then ⟨p.depth - 1, false⟩
  else ⟨p.depth, false⟩

/-- The state after a text. -/
def after (p : Protection) (text : Text) : Protection := text.foldl next p

/-- Whether a character is protected: strictly inside a brace group, or after a
backslash and not whitespace. -/
def protects (p : Protection) (c : Char) : Bool :=
  if p.escaped then 0 < p.depth || !isWhitespace c
  else
    let depth := (p.next c).depth
    (0 < depth && c != '{') || 1 < depth

/-- Whether some character of a text is protected. -/
def touches (p : Protection) : Text → Bool
  | [] => false
  | c :: rest => p.protects c || (p.next c).touches rest

end Protection

/-- A part of a text and where it starts. -/
structure Piece where
  /-- The offset of its first byte. -/
  offset : Nat
  /-- What it holds. -/
  text : Text
  deriving DecidableEq, Repr

namespace Piece

/-- The range of a piece. -/
def span (p : Piece) : Span := .ofLength p.offset (byteLength p.text)

/-- The piece in a text that has `n` more bytes in front. -/
def shift (p : Piece) (n : Nat) : Piece := ⟨p.offset + n, p.text⟩

end Piece

/-- The pieces of a text that is given as its cuts and the rest, from a piece that has
begun at `offset` with `begun`. -/
def joinCuts (p : Protection) (offset : Nat) (begun : Text) : List Cut → Text → List Piece
  | [], last => [⟨offset, begun ++ last⟩]
  | cut :: cuts, last =>
    let piece := begun ++ cut.before
    let here := p.after cut.before
    let next := here.after cut.separator
    if here.touches cut.separator then joinCuts next offset (piece ++ cut.separator) cuts last
    else
      ⟨offset, piece⟩ ::
        joinCuts next (offset + byteLength piece + byteLength cut.separator) [] cuts last

/-- The pieces of a text between its unprotected separators. -/
def split (sep : Separator) (text : Text) : List Piece :=
  if text.isEmpty then []
  else
    let (cuts, last) := sep.cuts text
    joinCuts .start 0 [] cuts last

/-- The values of a parameter that is written with its delimiters; their offsets count
from the opening delimiter. -/
def parameterPieces (text : Text) : List Piece :=
  let opening := byteLength (text.take 1)
  (split .parameter (stripGroup text)).map (·.shift opening)

end TexLint
