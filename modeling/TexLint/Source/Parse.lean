import TexLint.Source.Tree

/-!
# Building the syntax tree

Every token sequence has a tree: what is malformed is reported and read as well as
it can be, and no token is lost.

## The model

* `Nest` is the tree built so far: the constructs that are still open, each inside
  the next, with what they already hold. Tokens are read one at a time.
* Before a token is read, it may end some of the open constructs
  (`Construct.before`, `Nest.settle`): a command takes no more parameters, a bracket
  group is given up at a paragraph break. The token is then read by the innermost
  construct that is left (`Nest.read`).
* What stays open at the end of the source is closed there (`Construct.atEnd`,
  `Nest.finish`).
* A `Defect` names what is wrong; its place is the token at which it shows.
-/

namespace TexLint

/-- What can be wrong with a source. -/
inductive Defect where
  /-- A closing brace where no group is open. -/
  | unmatchedBrace
  /-- A closing brace in an environment, where no group is open. -/
  | unmatchedBraceInEnvironment
  /-- A brace group that the source leaves open. -/
  | unclosedGroup
  /-- A bracket group that something other than a paragraph break cuts off. -/
  | unclosedOptional
  /-- A bracket group that a paragraph break cuts off. -/
  | unclosedOptionalAtParagraph
  /-- An end that closes no environment. -/
  | unmatchedEnd
  /-- A beginning that no brace group follows. -/
  | missingBeginName
  /-- An end that no brace group follows. -/
  | missingEndName
  /-- An environment that the source leaves open. -/
  | unclosedEnvironment
  deriving DecidableEq, Repr

/-- The wording of a defect. -/
def Defect.message : Defect → String
  | unmatchedBrace => "Unmatched '\x7d'"
  | unmatchedBraceInEnvironment => "Unmatched '\x7d' inside environment"
  | unclosedGroup => "Expected '\x7d'"
  | unclosedOptional => "Expected ']'"
  | unclosedOptionalAtParagraph => "Expected ']' before paragraph break"
  | unmatchedEnd => "Unmatched \\end"
  | missingBeginName => "Expected '\x7b' after \\begin"
  | missingEndName => "Expected '\x7b' after \\end"
  | unclosedEnvironment => "Unclosed environment, expected \\end"

/-- A defect and the token at which it shows. -/
structure SyntaxError where
  /-- What is wrong. -/
  defect : Defect
  /-- The range of the token, empty at the end of the source. -/
  span : Span
  deriving DecidableEq, Repr

/-- The commands that set the size of a delimiter. A bracket after one of them is that
delimiter and opens no parameter. -/
def delimiterCommands : List Text :=
  ["\\left", "\\right", "\\middle", "\\big", "\\Big", "\\bigg", "\\Bigg", "\\bigl", "\\bigr",
    "\\Bigl", "\\Bigr", "\\biggl", "\\biggr", "\\Biggl", "\\Biggr"].map String.toList

namespace Token

/-- Whether the token begins an environment. -/
def isBegin (t : Token) : Bool := t.kind == .command && t.text == "\\begin".toList

/-- Whether the token ends an environment. -/
def isEnd (t : Token) : Bool := t.kind == .command && t.text == "\\end".toList

theorem kind_of_isBegin {t : Token} (h : t.isBegin = true) : t.kind = .command := by
  simp only [isBegin, Bool.and_eq_true, beq_iff_eq] at h
  exact h.1

theorem kind_of_isEnd {t : Token} (h : t.isEnd = true) : t.kind = .command := by
  simp only [isEnd, Bool.and_eq_true, beq_iff_eq] at h
  exact h.1

theorem isEnd_of_isBegin {t : Token} (h : t.isBegin = true) : t.isEnd = false := by
  simp only [isBegin, Bool.and_eq_true, beq_iff_eq] at h
  rw [isEnd, h.2]
  simp

/-- Whether the token is whitespace that ends a paragraph, which holds two line ends. -/
def isParagraphBreak (t : Token) : Bool := t.kind == .whitespace && 2 ≤ t.text.count '\n'

end Token

/-- The constructs that can be open while a source is read. -/
inductive Construct where
  /-- A brace group of its own. -/
  | group
  /-- A brace group that is a parameter. -/
  | required
  /-- A bracket group that is a parameter. -/
  | optional
  /-- A command that may take more parameters, among them bracket groups or not. -/
  | command (takesOptional : Bool)
  /-- The beginning of an environment; it is bare until it has a parameter. -/
  | opening (bare : Bool)
  /-- An environment, whose end may have been met. -/
  | environment (ended : Bool)
  /-- The end of an environment; it is bare until it has its parameter. -/
  | closing (bare : Bool)
  /-- An end that closes nothing. -/
  | strayEnd
  deriving DecidableEq, Repr

namespace Construct

/-- The kind of node that a construct becomes. -/
def kind : Construct → NodeKind
  | group => .group
  | required => .required
  | optional => .optional
  | command _ => .command
  | opening _ => .opening
  | environment _ => .environment
  | closing _ | strayEnd => .closing

end Construct

/-- What a coming token does to an open construct. -/
structure Effect where
  /-- Whether the construct ends before the token. -/
  closes : Bool
  /-- What is wrong with the construct at this place. -/
  defect : Option Defect

namespace Construct

/-- What a coming token does to a construct before it is read. -/
def before : Construct → Token → Effect
  | group, _ | required, _ => ⟨false, none⟩
  | optional, t =>
    if t.kind = .rbrace ∨ t.isBegin ∨ t.isEnd then ⟨true, some .unclosedOptional⟩
    else if t.isParagraphBreak then ⟨true, some .unclosedOptionalAtParagraph⟩
    else ⟨false, none⟩
  | command takesOptional, t =>
    ⟨!(t.kind == .lbrace || (takesOptional && t.kind == .lbracket)), none⟩
  | opening bare, t =>
    ⟨!(t.kind == .lbrace || t.kind == .lbracket),
      if bare && t.kind != .lbrace then some .missingBeginName else none⟩
  | environment ended, _ => ⟨ended, none⟩
  | closing true, t =>
    if t.kind = .lbrace then ⟨false, none⟩ else ⟨true, some .missingEndName⟩
  | closing false, _ => ⟨true, none⟩
  | strayEnd, t => ⟨t.kind != .lbrace, none⟩

/-- What is wrong with a construct that the end of the source closes. -/
def atEnd : Construct → Option Defect
  | group | required => some .unclosedGroup
  | optional => some .unclosedOptional
  | command _ | strayEnd | environment true | opening false | closing false => none
  | opening true => some .missingBeginName
  | environment false => some .unclosedEnvironment
  | closing true => some .missingEndName

end Construct

/-- The open constructs, each inside the next, with the trees they hold so far, the
last one first. -/
inductive Nest where
  /-- The source itself. -/
  | root (content : List SyntaxTree)
  /-- An open construct inside another. -/
  | inside (construct : Construct) (content : List SyntaxTree) (outer : Nest)

namespace Nest

/-- Puts a finished tree into the innermost construct. -/
def add (tree : SyntaxTree) : Nest → Nest
  | root content => root (tree :: content)
  | inside construct content outer => inside construct (tree :: content) outer

/-- Opens a construct whose first token is `t`. -/
def enter (construct : Construct) (t : Token) (nest : Nest) : Nest :=
  inside construct [.leaf t] nest

/-- The node that a construct with the given content becomes. -/
def close (construct : Construct) (content : List SyntaxTree) : SyntaxTree :=
  .node construct.kind content.reverse

/-- Ends the constructs that the coming token ends. `finished` holds the tree of the
construct that has just been ended, if any, for the next one to take. -/
def settleFrom (t : Token) (finished : List SyntaxTree) : Nest → Nest × List Defect
  | root content => (root (finished ++ content), [])
  | inside construct content outer =>
    let effect := construct.before t
    if effect.closes then
      let (nest, defects) := settleFrom t [close construct (finished ++ content)] outer
      (nest, effect.defect.toList ++ defects)
    else (inside construct (finished ++ content) outer, effect.defect.toList)

/-- Ends the constructs that the coming token ends, and says what is wrong with them. -/
def settle (t : Token) (nest : Nest) : Nest × List Defect := settleFrom t [] nest

/-- Reads a token as an element of the innermost construct. -/
def readElement (t : Token) (nest : Nest) : Nest × List Defect :=
  match t.kind with
  | .command =>
    if t.isBegin then ((inside (.environment false) [] nest).enter (.opening true) t, [])
    else if t.isEnd then (nest.enter .strayEnd t, [.unmatchedEnd])
    else (nest.enter (.command (!delimiterCommands.contains t.text)) t, [])
  | .lbrace => (nest.enter .group t, [])
  | .rbrace => (nest.add (.node .error [.leaf t]), [.unmatchedBrace])
  | _ => (nest.add (.leaf t), [])

/-- Reads a token in a nest that it ends no construct of. -/
def read (t : Token) : Nest → Nest × List Defect
  | root content => readElement t (root content)
  | inside construct content outer =>
    let nest := inside construct content outer
    match construct, t.kind with
    | .group, .rbrace | .required, .rbrace | .optional, .rbracket =>
      (outer.add (close construct (.leaf t :: content)), [])
    | .command _, .lbrace | .strayEnd, .lbrace => (nest.enter .required t, [])
    | .command _, .lbracket => (nest.enter .optional t, [])
    | .opening _, .lbrace => ((inside (.opening false) content outer).enter .required t, [])
    | .opening _, .lbracket => ((inside (.opening false) content outer).enter .optional t, [])
    | .closing _, .lbrace => ((inside (.closing false) content outer).enter .required t, [])
    | .environment _, .rbrace =>
      (nest.add (.node .error [.leaf t]), [.unmatchedBraceInEnvironment])
    | .environment _, .command =>
      if t.isEnd then ((inside (.environment true) content outer).enter (.closing true) t, [])
      else readElement t nest
    | _, _ => readElement t nest

/-- Closes everything at the end of the source: the trees of the source and what is
wrong with the constructs that were open. -/
def finishFrom (finished : List SyntaxTree) : Nest → List SyntaxTree × List Defect
  | root content => ((finished ++ content).reverse, [])
  | inside construct content outer =>
    let (trees, defects) := finishFrom [close construct (finished ++ content)] outer
    (trees, construct.atEnd.toList ++ defects)

end Nest

/-- How far a source has been read. -/
structure Reading where
  /-- The offset of the next token. -/
  offset : Nat
  /-- The tree built so far. -/
  nest : Nest
  /-- The defects met so far, the last one first. -/
  errors : List SyntaxError

namespace Reading

/-- Nothing has been read. -/
def start : Reading := ⟨0, .root [], []⟩

/-- Reads one token. -/
def next (r : Reading) (t : Token) : Reading :=
  let (settled, early) := r.nest.settle t
  let (nest, late) := settled.read t
  let span := Span.ofLength r.offset (byteLength t.text)
  ⟨span.stop, nest, ((early ++ late).map (⟨·, span⟩)).reverse ++ r.errors⟩

end Reading

/-- A source read to its end. -/
structure Parsed where
  /-- The tree of the whole source. -/
  tree : SyntaxTree
  /-- The defects in the order of the tokens at which they show. -/
  errors : List SyntaxError

/-- Builds the tree of a token sequence. -/
def parseTokens (tokens : List Token) : Parsed :=
  let reading := tokens.foldl Reading.next .start
  let (trees, defects) := reading.nest.finishFrom []
  let span := Span.ofLength reading.offset 0
  ⟨.node .root trees, reading.errors.reverse ++ defects.map (⟨·, span⟩)⟩

/-- Builds the tree of a source text. -/
def parse (text : Text) : Parsed := parseTokens (tokenize text)

end TexLint
