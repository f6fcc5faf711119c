import TexLint.Text.Alphabetic
import TexLint.Text.Whitespace

/-!
# Tokens of a source text

A source text is a sequence of tokens whose texts, put together, are the source.
No text is an error at this level.

## The model

* A control sequence is a backslash with a control word (letters and `@`, then at
  most one star), a backslash with one other character, or a backslash that ends
  the source.
* Braces, brackets and dollars stand alone; a comment runs from `%` to the end of
  its line, which it leaves out; whitespace and all other characters form runs.
* `Shape` says how the token read so far can go on. Reading takes each character
  into the current token if its shape allows (`Shape.next?`) and opens a new token
  otherwise (`Shape.start`), so each token is as long as it can be.
-/

namespace TexLint

/-- The kinds of token. -/
inductive TokenKind where
  /-- An opening brace. -/
  | lbrace
  /-- A closing brace. -/
  | rbrace
  /-- An opening bracket. -/
  | lbracket
  /-- A closing bracket. -/
  | rbracket
  /-- A control sequence with its backslash and its star. -/
  | command
  /-- A dollar sign. -/
  | dollar
  /-- A run of whitespace. -/
  | whitespace
  /-- A comment up to the end of its line. -/
  | comment
  /-- A run of other characters. -/
  | text
  deriving DecidableEq, Repr

/-- A token: its kind and the characters it is written with. -/
structure Token where
  /-- What the token is. -/
  kind : TokenKind
  /-- The token as it stands in the source. -/
  text : Text
  deriving DecidableEq, Repr

/-- The texts of a token sequence, put together. -/
def tokensText (tokens : List Token) : Text := tokens.flatMap Token.text

/-- Whether a character may stand in a control word. -/
def isCommandLetter (c : Char) : Bool := isAlphabetic c || c == '@'

/-- Whether a character belongs to a run of plain text. -/
def isTextChar (c : Char) : Bool :=
  !(c == '\\' || c == '{' || c == '}' || c == '[' || c == ']' || c == '%' || c == '$' ||
    isWhitespace c)

/-- How the token read so far can go on. -/
inductive Shape where
  /-- A backslash alone, which takes any next character. -/
  | backslash
  /-- A control word, which takes more letters or one star. -/
  | word
  /-- A control word with its star, or a control symbol; neither takes any more. -/
  | finished
  /-- A single-character token of the given kind. -/
  | single (kind : TokenKind)
  /-- A comment, which takes all but a line end. -/
  | comment
  /-- A run of whitespace. -/
  | whitespace
  /-- A run of plain text. -/
  | text
  deriving DecidableEq, Repr

namespace Shape

/-- The kind of a token of this shape. -/
def kind : Shape → TokenKind
  | backslash | word | finished => .command
  | single kind => kind
  | comment => .comment
  | whitespace => .whitespace
  | text => .text

/-- The shape of a token whose first character is `c`. -/
def start (c : Char) : Shape :=
  if c = '\\' then backslash
  else if c = '{' then single .lbrace
  else if c = '}' then single .rbrace
  else if c = '[' then single .lbracket
  else if c = ']' then single .rbracket
  else if c = '$' then single .dollar
  else if c = '%' then comment
  else if isWhitespace c then whitespace
  else text

/-- The shape of the token after it takes `c`, or nothing if `c` is not part of it. -/
def next? : Shape → Char → Option Shape
  | backslash, c => some (if isCommandLetter c then word else finished)
  | word, c =>
    if isCommandLetter c then some word else if c = '*' then some finished else none
  | finished, _ | single _, _ => none
  | comment, c => if c = '\n' ∨ c = '\r' then none else some comment
  | whitespace, c => if isWhitespace c then some whitespace else none
  | text, c => if isTextChar c then some text else none

end Shape

/-- A token being read: its shape and, in reverse, the characters it has taken. -/
structure OpenToken where
  /-- How the token can go on. -/
  shape : Shape
  /-- The characters taken so far, the last one first. -/
  taken : Text

namespace OpenToken

/-- The token that starts with `c`. -/
def start (c : Char) : OpenToken := ⟨.start c, [c]⟩

/-- The finished token. -/
def close (o : OpenToken) : Token := ⟨o.shape.kind, o.taken.reverse⟩

end OpenToken

/-- The worker of `tokenize`: `done` holds the finished tokens, the last one first. -/
def tokenizeFrom (done : List Token) (o : OpenToken) : Text → List Token
  | [] => (o.close :: done).reverse
  | c :: rest =>
    match o.shape.next? c with
    | some shape => tokenizeFrom done ⟨shape, c :: o.taken⟩ rest
    | none => tokenizeFrom (o.close :: done) (.start c) rest

/-- The tokens of a source text. -/
def tokenize : Text → List Token
  | [] => []
  | c :: rest => tokenizeFrom [] (.start c) rest

theorem tokensText_tokenizeFrom (text : Text) (done : List Token) (o : OpenToken) :
    tokensText (tokenizeFrom done o text) =
      tokensText done.reverse ++ o.taken.reverse ++ text := by
  induction text generalizing done o with
  | nil => simp [tokenizeFrom, tokensText, OpenToken.close]
  | cons c rest ih =>
    rw [tokenizeFrom]
    split
    · simp [ih]
    · rw [ih]
      simp [tokensText, OpenToken.close, OpenToken.start]

/-- The tokens of a text make up the text. -/
theorem tokensText_tokenize (text : Text) : tokensText (tokenize text) = text := by
  cases text with
  | nil => rfl
  | cons c rest =>
    rw [tokenize, tokensText_tokenizeFrom]
    simp [tokensText, OpenToken.start]

end TexLint
