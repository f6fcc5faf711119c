import TexLint.Json.Value

/-!
# Reading JSON

A JSON text is read in two passes over its characters. The first one makes tokens, the
second one builds the value out of them. A text that is not exactly one value, with
nothing but blanks around it, is refused.

## The model

* `Lexing` is what has been read of the current token together with the tokens so far.
* A string is read as the code points that its characters and escapes name;
  `decodePoints` joins the halves of surrogate pairs.
* `Building` says which token may come next, with the arrays and objects that are still
  open around it.
-/

namespace TexLint

namespace Json

/-- The tokens of a JSON text. -/
inductive Lexeme where
  /-- An opening brace. -/
  | lbrace
  /-- A closing brace. -/
  | rbrace
  /-- An opening bracket. -/
  | lbracket
  /-- A closing bracket. -/
  | rbracket
  /-- The mark between a name and its value. -/
  | colon
  /-- The mark between two items. -/
  | comma
  /-- A value without parts. -/
  | scalar (value : Json)

/-! ### Scalars -/

/-- Whether a text is one or more digits. -/
def isDigits (text : List Char) : Bool := !text.isEmpty && text.all Char.isDigit

/-- Whether a text is the exponent of a number, which may be missing. -/
def isExponent : List Char → Bool
  | [] => true
  | e :: sign :: digits =>
    (e == 'e' || e == 'E') &&
      (if sign = '+' ∨ sign = '-' then isDigits digits else isDigits (sign :: digits))
  | [_] => false

/-- Whether a text may stand after the digits of a number's integral part. -/
def isNumberTail : List Char → Bool
  | '.' :: rest =>
    isDigits (rest.takeWhile Char.isDigit) && isExponent (rest.dropWhile Char.isDigit)
  | rest => isExponent rest

/-- Whether a text is a number without sign, with no needless zero in front. -/
def isUnsigned : List Char → Bool
  | '0' :: rest => isNumberTail rest
  | c :: rest => c.isDigit && isNumberTail (rest.dropWhile Char.isDigit)
  | [] => false

/-- Whether a text is a number. It has no sign but a minus. -/
def isNumber : List Char → Bool
  | '-' :: rest => isUnsigned rest
  | rest => isUnsigned rest

/-- The value of a bare word: a literal or a number. -/
def wordValue? (word : List Char) : Option Json :=
  if word = "null".toList then some .null
  else if word = "true".toList then some (.bool true)
  else if word = "false".toList then some (.bool false)
  else if isNumber word then some (.number (String.ofList word))
  else none

/-- Whether a code point is the first half of a surrogate pair. -/
def isHighHalf (n : Nat) : Bool := 0xD800 ≤ n && n < 0xDC00

/-- Whether a code point is the second half of a surrogate pair. -/
def isLowHalf (n : Nat) : Bool := 0xDC00 ≤ n && n < 0xE000

/-- The characters that code points stand for. A half without its partner stands for
none. -/
def decodePoints : List Nat → Option (List Char)
  | [] => some []
  | [n] => if isHighHalf n || isLowHalf n then none else some [Char.ofNat n]
  | n :: m :: rest =>
    if isHighHalf n && isLowHalf m then
      (decodePoints rest).map (Char.ofNat (0x10000 + (n - 0xD800) * 0x400 + (m - 0xDC00)) :: ·)
    else if isHighHalf n || isLowHalf n then none
    else (decodePoints (m :: rest)).map (Char.ofNat n :: ·)

/-- The value of a hexadecimal digit. -/
def hexDigit? (c : Char) : Option Nat :=
  if c.isDigit then some (c.toNat - '0'.toNat)
  else if 'a' ≤ c ∧ c ≤ 'f' then some (c.toNat - 'a'.toNat + 10)
  else if 'A' ≤ c ∧ c ≤ 'F' then some (c.toNat - 'A'.toNat + 10)
  else none

/-- The character that a one-letter escape names. -/
def escaped? : Char → Option Char
  | '"' => some '"'
  | '\\' => some '\\'
  | '/' => some '/'
  | 'b' => some '\x08'
  | 'f' => some '\x0c'
  | 'n' => some '\n'
  | 'r' => some '\r'
  | 't' => some '\t'
  | _ => none

/-! ### Tokens -/

/-- What has been read of the current token. -/
inductive Partial where
  /-- Nothing: the next character starts a token. -/
  | none
  /-- The characters of a bare word, the last one first. -/
  | word (taken : List Char)
  /-- The code points of a string, the last one first. -/
  | string (points : List Nat)
  /-- A string whose last character is the backslash of an escape. -/
  | escape (points : List Nat)
  /-- A string in whose last escape some hexadecimal digits are still to come. -/
  | hex (points : List Nat) (missing value : Nat)

/-- How far a text has been read: the tokens, the last one first, and the current one. -/
structure Lexing where
  /-- The finished tokens. -/
  done : List Lexeme
  /-- The token being read. -/
  current : Partial

namespace Lexing

/-- Whether a character belongs to a bare word. -/
def isWordChar (c : Char) : Bool := c.isAlphanum || c == '-' || c == '+' || c == '.'

/-- Reads a character that stands outside strings, words and escapes. -/
def startToken (done : List Lexeme) (c : Char) : Option Lexing :=
  if c = ' ' ∨ c = '\n' ∨ c = '\t' ∨ c = '\r' then some ⟨done, .none⟩
  else if c = '{' then some ⟨.lbrace :: done, .none⟩
  else if c = '}' then some ⟨.rbrace :: done, .none⟩
  else if c = '[' then some ⟨.lbracket :: done, .none⟩
  else if c = ']' then some ⟨.rbracket :: done, .none⟩
  else if c = ':' then some ⟨.colon :: done, .none⟩
  else if c = ',' then some ⟨.comma :: done, .none⟩
  else if c = '"' then some ⟨done, .string []⟩
  else if isWordChar c then some ⟨done, .word [c]⟩
  else none

/-- Reads one character. Control characters in strings are refused. -/
def next (l : Lexing) (c : Char) : Option Lexing :=
  match l.current with
  | .none => startToken l.done c
  | .word taken =>
    if isWordChar c then some ⟨l.done, .word (c :: taken)⟩
    else (wordValue? taken.reverse).bind fun value => startToken (.scalar value :: l.done) c
  | .string points =>
    if c = '"' then
      let value := (decodePoints points.reverse).map String.ofList
      some ⟨.scalar (.string value) :: l.done, .none⟩
    else if c = '\\' then some ⟨l.done, .escape points⟩
    else if c.toNat < 0x20 then none
    else some ⟨l.done, .string (c.toNat :: points)⟩
  | .escape points =>
    if c = 'u' then some ⟨l.done, .hex points 4 0⟩
    else (escaped? c).map fun e => ⟨l.done, .string (e.toNat :: points)⟩
  | .hex points missing value =>
    (hexDigit? c).map fun digit =>
      let value := value * 16 + digit
      if missing ≤ 1 then ⟨l.done, .string (value :: points)⟩
      else ⟨l.done, .hex points (missing - 1) value⟩

end Lexing

/-- The tokens of a JSON text. -/
def lexemes? (text : List Char) : Option (List Lexeme) := do
  let l ← text.foldlM Lexing.next ⟨[], .none⟩
  match l.current with
  | .none => some l.done.reverse
  | .word taken =>
    let value ← wordValue? taken.reverse
    some (Lexeme.scalar value :: l.done).reverse
  | .string _ | .escape _ | .hex _ _ _ => none

/-! ### Values -/

/-- An array or object that is still open, with what it holds so far, the last first. -/
inductive OpenValue where
  /-- An array and its items. -/
  | array (items : List Json)
  /-- An object, its fields, and the name of the value that comes next. -/
  | object (fields : List (JsonString × Json)) (name : JsonString)

/-- What may come next. -/
inductive Expected where
  /-- A value. -/
  | value
  /-- The first item of an array, or its end. -/
  | firstItem
  /-- The name of a field of the object with the given fields, or its end if it has none. -/
  | name (fields : List (JsonString × Json))
  /-- The mark after the name of a field. -/
  | colon (fields : List (JsonString × Json)) (name : JsonString)
  /-- The mark or the end after the given value, or the end of the text. -/
  | afterValue (value : Json)

/-- How far a value has been built: what may come next inside which open values, the
innermost one first. -/
structure Building where
  /-- What may come next. -/
  expected : Expected
  /-- The open values. -/
  outer : List OpenValue

namespace Building

/-- Reads a token where a value may start. -/
def startValue (outer : List OpenValue) : Lexeme → Option Building
  | .scalar value => some ⟨.afterValue value, outer⟩
  | .lbracket => some ⟨.firstItem, outer⟩
  | .lbrace => some ⟨.name [], outer⟩
  | _ => none

/-- Reads one token. -/
def next (b : Building) (t : Lexeme) : Option Building :=
  match b.expected, t with
  | .value, t => startValue b.outer t
  | .firstItem, .rbracket => some ⟨.afterValue (.array []), b.outer⟩
  | .firstItem, t => startValue (.array [] :: b.outer) t
  | .name fields, .scalar (.string name) => some ⟨.colon fields name, b.outer⟩
  | .name [], .rbrace => some ⟨.afterValue (.object []), b.outer⟩
  | .name _, _ => none
  | .colon fields name, .colon => some ⟨.value, .object fields name :: b.outer⟩
  | .colon _ _, _ => none
  | .afterValue value, t =>
    match b.outer, t with
    | .array items :: outer, .comma => some ⟨.value, .array (value :: items) :: outer⟩
    | .array items :: outer, .rbracket =>
      some ⟨.afterValue (.array (value :: items).reverse), outer⟩
    | .object fields name :: outer, .comma => some ⟨.name ((name, value) :: fields), outer⟩
    | .object fields name :: outer, .rbrace =>
      some ⟨.afterValue (.object ((name, value) :: fields).reverse), outer⟩
    | _, _ => none

end Building

/-- The value that a JSON text stands for, if it is one. -/
def read? (text : List Char) : Option Json := do
  let tokens ← lexemes? text
  let b ← tokens.foldlM Building.next ⟨.value, []⟩
  match b with
  | ⟨.afterValue value, []⟩ => some value
  | _ => none

end Json

end TexLint
