import TexLint.Text.Basic

/-!
# Whitespace

The characters with the Unicode property `White_Space`, and the removal of them
from the ends of a text.
-/

namespace TexLint

/-- Whether a character has the Unicode property `White_Space`. -/
def isWhitespace (c : Char) : Bool :=
  let n := c.toNat
  (9 ≤ n && n ≤ 13) || n == 0x20 || n == 0x85 || n == 0xA0 || n == 0x1680 ||
    (0x2000 ≤ n && n ≤ 0x200A) || n == 0x2028 || n == 0x2029 || n == 0x202F ||
    n == 0x205F || n == 0x3000

/-- The text without the whitespace it starts with. -/
def trimStart (text : Text) : Text := text.dropWhile isWhitespace

/-- The text without the characters satisfying `p` that it ends with. -/
def dropEndWhile (p : Char → Bool) (text : Text) : Text :=
  (text.reverse.dropWhile p).reverse

/-- The text without the whitespace it ends with. -/
def trimEnd (text : Text) : Text := dropEndWhile isWhitespace text

/-- The text without the whitespace at either end. -/
def trim (text : Text) : Text := trimEnd (trimStart text)

/-- Whether a text holds nothing but whitespace. -/
def isBlank (text : Text) : Bool := text.all isWhitespace

end TexLint
