import TexLint.Source.Token

/-!
# Syntax trees

A syntax tree keeps every token of the source, whitespace and comments included, so
offsets in the tree are offsets in the source.

## The model

* A tree is a token or a node of some kind with its subtrees in source order.
* `SyntaxTree.foldTokens` reads the tokens of a tree in one pass. `SyntaxTree.tokens`,
  what a tree is written with, and `SyntaxTree.length` come of such passes.
* `SyntaxTree.preorder` lists a tree's nodes and tokens, outermost first, each with
  its depth and its offset. All the views of a document read this list. It is gathered
  in one pass too; `preorder_node` and `preorderOfAll_cons` say what it holds.
-/

namespace TexLint

/-- The kinds of node. -/
inductive NodeKind where
  /-- A whole source. -/
  | root
  /-- A brace group that is not the parameter of a command. -/
  | group
  /-- A command with its parameters. -/
  | command
  /-- A brace group that follows a command. -/
  | required
  /-- A bracket group that follows a command. -/
  | optional
  /-- An environment, from its beginning to its end. -/
  | environment
  /-- The beginning of an environment with its parameters. -/
  | opening
  /-- The end of an environment with its name, or an end that closes nothing. -/
  | closing
  /-- A token that has no place where it stands. -/
  | error
  deriving DecidableEq, Repr

/-- A syntax tree. -/
inductive SyntaxTree where
  /-- A token. -/
  | leaf (token : Token)
  /-- A node and its subtrees. -/
  | node (kind : NodeKind) (children : List SyntaxTree)

namespace SyntaxTree

mutual

/-- Applies a function to the tokens of a tree from left to right. -/
def foldTokens {α : Type} (f : α → Token → α) (a : α) : SyntaxTree → α
  | leaf token => f a token
  | node _ children => foldAllTokens f a children

/-- Applies a function to the tokens of a sequence of trees from left to right. -/
def foldAllTokens {α : Type} (f : α → Token → α) (a : α) : List SyntaxTree → α
  | [] => a
  | tree :: trees => foldAllTokens f (tree.foldTokens f a) trees

end

/-- The tokens of a tree from left to right. -/
def tokens (tree : SyntaxTree) : List Token :=
  (tree.foldTokens (fun read token => token :: read) []).reverse

/-- The tokens of a sequence of trees from left to right. -/
def tokensOfAll (trees : List SyntaxTree) : List Token :=
  (foldAllTokens (fun read token => token :: read) [] trees).reverse

mutual

/-- A fold may start after tokens that have been gathered. -/
theorem foldTokens_foldl {α : Type} (f : α → Token → α) (a : α) (read : List Token) :
    (tree : SyntaxTree) → tree.foldTokens f (read.reverse.foldl f a) =
      (tree.foldTokens (fun read token => token :: read) read).reverse.foldl f a
  | leaf token => by simp [foldTokens]
  | node _ children => by
    rw [foldTokens, foldTokens]
    exact foldAllTokens_foldl f a read children

/-- A fold over a sequence may start after tokens that have been gathered. -/
theorem foldAllTokens_foldl {α : Type} (f : α → Token → α) (a : α) (read : List Token) :
    (trees : List SyntaxTree) → foldAllTokens f (read.reverse.foldl f a) trees =
      (foldAllTokens (fun read token => token :: read) read trees).reverse.foldl f a
  | [] => by simp [foldAllTokens]
  | tree :: trees => by
    rw [foldAllTokens, foldAllTokens, foldTokens_foldl f a read tree]
    exact foldAllTokens_foldl f a _ trees

end

/-- A fold over a tree is a fold over its tokens. -/
theorem foldTokens_eq_foldl {α : Type} (f : α → Token → α) (a : α) (tree : SyntaxTree) :
    tree.foldTokens f a = tree.tokens.foldl f a :=
  foldTokens_foldl f a [] tree

/-- A fold over a sequence of trees is a fold over their tokens. -/
theorem foldAllTokens_eq_foldl {α : Type} (f : α → Token → α) (a : α) (trees : List SyntaxTree) :
    foldAllTokens f a trees = (tokensOfAll trees).foldl f a :=
  foldAllTokens_foldl f a [] trees

@[simp] theorem tokens_leaf (token : Token) : (leaf token).tokens = [token] := by
  simp [tokens, foldTokens]

@[simp] theorem tokens_node (kind : NodeKind) (children : List SyntaxTree) :
    (node kind children).tokens = tokensOfAll children := by
  simp [tokens, tokensOfAll, foldTokens]

@[simp] theorem tokensOfAll_nil : tokensOfAll [] = [] := by
  simp [tokensOfAll, foldAllTokens]

@[simp] theorem tokensOfAll_cons (tree : SyntaxTree) (trees : List SyntaxTree) :
    tokensOfAll (tree :: trees) = tree.tokens ++ tokensOfAll trees := by
  rw [tokensOfAll, foldAllTokens, foldAllTokens_eq_foldl, foldTokens_eq_foldl]
  simp

@[simp] theorem tokensOfAll_append (a b : List SyntaxTree) :
    tokensOfAll (a ++ b) = tokensOfAll a ++ tokensOfAll b := by
  induction a with
  | nil => simp
  | cons t ts ih => simp [ih]

/-- The text a tree is written with. -/
def text (tree : SyntaxTree) : Text := tokensText tree.tokens

/-- The offset at which a tree ends that starts at the given offset. -/
def stop (offset : Nat) (tree : SyntaxTree) : Nat :=
  tree.foldTokens (fun n token => n + byteLength token.text) offset

/-- The length of a tree in bytes. -/
def length (tree : SyntaxTree) : Nat := tree.stop 0

/-- A tree ends behind its text. -/
theorem stop_eq_add_byteLength (offset : Nat) (tree : SyntaxTree) :
    tree.stop offset = offset + byteLength tree.text := by
  rw [stop, foldTokens_eq_foldl, text]
  induction tree.tokens generalizing offset with
  | nil => simp [tokensText]
  | cons t ts ih => simp [ih, tokensText, Nat.add_assoc]

/-- The length of a tree is that of its text. -/
theorem length_eq (tree : SyntaxTree) : tree.length = byteLength tree.text := by
  rw [length, stop_eq_add_byteLength, Nat.zero_add]

/-- A tree ends its length behind its start. -/
theorem stop_eq (offset : Nat) (tree : SyntaxTree) : tree.stop offset = offset + tree.length := by
  rw [stop_eq_add_byteLength, length_eq]

/-- The subtrees of a node; a token has none. -/
def children : SyntaxTree → List SyntaxTree
  | leaf _ => []
  | node _ children => children

/-- Whether a tree is a node of the given kind. -/
def isNode (kind : NodeKind) : SyntaxTree → Bool
  | leaf _ => false
  | node k _ => k == kind

/-- Whether a tree is a token of the given kind. -/
def isToken (kind : TokenKind) : SyntaxTree → Bool
  | leaf token => token.kind == kind
  | node _ _ => false

/-- A tree met on the way through an enclosing tree. -/
structure Visit where
  /-- How many nodes enclose it. -/
  depth : Nat
  /-- The offset of its first byte. -/
  offset : Nat
  /-- The tree itself. -/
  tree : SyntaxTree

/-- The range of a visited tree. -/
def Visit.span (v : Visit) : Span := .ofLength v.offset v.tree.length

mutual

/-- Visits a tree and all that it holds. Takes and gives the offset that is reached and
what has been visited so far, the last one first. -/
def visit (depth : Nat) (reached : Nat × List Visit) : SyntaxTree → Nat × List Visit
  | leaf token =>
    (reached.1 + byteLength token.text, ⟨depth, reached.1, leaf token⟩ :: reached.2)
  | node kind children =>
    visitAll (depth + 1) (reached.1, ⟨depth, reached.1, node kind children⟩ :: reached.2)
      children

/-- Visits a sequence of trees and all that they hold. -/
def visitAll (depth : Nat) (reached : Nat × List Visit) : List SyntaxTree → Nat × List Visit
  | [] => reached
  | tree :: trees => visitAll depth (tree.visit depth reached) trees

end

/-- A tree at the given depth and offset followed by all that it holds, in preorder. -/
def preorder (depth offset : Nat) (tree : SyntaxTree) : List Visit :=
  (tree.visit depth (offset, [])).2.reverse

/-- A sequence of trees and all that they hold, in preorder. -/
def preorderOfAll (depth offset : Nat) (trees : List SyntaxTree) : List Visit :=
  (visitAll depth (offset, []) trees).2.reverse

mutual

/-- Visiting a tree leads behind it. -/
theorem visit_fst (depth : Nat) (reached : Nat × List Visit) :
    (tree : SyntaxTree) → (tree.visit depth reached).1 = tree.stop reached.1
  | leaf token => by rw [visit, stop, foldTokens]
  | node kind children => by
    rw [visit, stop, foldTokens]
    exact visitAll_fst _ _ children

/-- Visiting a sequence of trees leads behind them. -/
theorem visitAll_fst (depth : Nat) (reached : Nat × List Visit) :
    (trees : List SyntaxTree) → (visitAll depth reached trees).1 =
      foldAllTokens (fun n token => n + byteLength token.text) reached.1 trees
  | [] => by rw [visitAll, foldAllTokens]
  | tree :: trees => by
    rw [visitAll, foldAllTokens, visitAll_fst depth _ trees, visit_fst depth reached tree, stop]

end

mutual

/-- What has been visited before does not matter to a visit. -/
theorem visit_snd (depth offset : Nat) (seen : List Visit) :
    (tree : SyntaxTree) → (tree.visit depth (offset, seen)).2 =
      (tree.visit depth (offset, [])).2 ++ seen
  | leaf token => by simp [visit]
  | node kind children => by
    rw [visit, visit, visitAll_snd, visitAll_snd _ _ [_]]
    simp

/-- What has been visited before does not matter to the visits of a sequence. -/
theorem visitAll_snd (depth offset : Nat) (seen : List Visit) :
    (trees : List SyntaxTree) → (visitAll depth (offset, seen) trees).2 =
      (visitAll depth (offset, []) trees).2 ++ seen
  | [] => by simp [visitAll]
  | tree :: trees => by
    have hreached : (tree.visit depth (offset, seen)).1 = (tree.visit depth (offset, [])).1 := by
      rw [visit_fst, visit_fst]
    rw [visitAll, visitAll, ← Prod.eta (tree.visit depth (offset, seen)), hreached,
      visitAll_snd, visit_snd depth offset seen tree,
      ← Prod.eta (tree.visit depth (offset, [])), visitAll_snd _ _ (Prod.snd _)]
    simp

end

@[simp] theorem preorder_leaf (depth offset : Nat) (token : Token) :
    (leaf token).preorder depth offset = [⟨depth, offset, leaf token⟩] := by
  simp [preorder, visit]

@[simp] theorem preorder_node (depth offset : Nat) (kind : NodeKind)
    (children : List SyntaxTree) : (node kind children).preorder depth offset =
      ⟨depth, offset, node kind children⟩ :: preorderOfAll (depth + 1) offset children := by
  rw [preorder, visit, visitAll_snd]
  simp [preorderOfAll]

@[simp] theorem preorderOfAll_nil (depth offset : Nat) : preorderOfAll depth offset [] = [] := by
  simp [preorderOfAll, visitAll]

/-- Each tree of a sequence is visited at the offset at which those before it end. -/
@[simp] theorem preorderOfAll_cons (depth offset : Nat) (tree : SyntaxTree)
    (trees : List SyntaxTree) : preorderOfAll depth offset (tree :: trees) =
      tree.preorder depth offset ++ preorderOfAll depth (offset + tree.length) trees := by
  have hreached : (tree.visit depth (offset, [])).1 = offset + tree.length := by
    rw [visit_fst, stop_eq]
  rw [preorderOfAll, visitAll, ← Prod.eta (tree.visit depth (offset, [])), visitAll_snd]
  simp [preorderOfAll, preorder, hreached]

/-- Puts a tree behind others, of which the offset at their end is known and the trees
with their offsets, the last one first. -/
def placeNext (reached : Nat × List (Nat × SyntaxTree)) (tree : SyntaxTree) :
    Nat × List (Nat × SyntaxTree) :=
  (tree.stop reached.1, (reached.1, tree) :: reached.2)

/-- The trees of a sequence that starts at the given offset, each with its own offset. -/
def withOffsets (offset : Nat) (trees : List SyntaxTree) : List (Nat × SyntaxTree) :=
  (trees.foldl placeNext (offset, [])).2.reverse

/-- What has been placed before does not matter to the trees that follow. -/
theorem foldl_placeNext_snd (offset : Nat) (seen : List (Nat × SyntaxTree))
    (trees : List SyntaxTree) : (trees.foldl placeNext (offset, seen)).2 =
      (trees.foldl placeNext (offset, [])).2 ++ seen := by
  induction trees generalizing offset seen with
  | nil => simp
  | cons tree trees ih =>
    rw [List.foldl_cons, List.foldl_cons, placeNext, placeNext, ih, ih _ [_]]
    simp

@[simp] theorem withOffsets_nil (offset : Nat) : withOffsets offset [] = [] := rfl

/-- Each tree of a sequence starts where the one before it ends. -/
@[simp] theorem withOffsets_cons (offset : Nat) (tree : SyntaxTree) (trees : List SyntaxTree) :
    withOffsets offset (tree :: trees) =
      (offset, tree) :: withOffsets (offset + tree.length) trees := by
  rw [withOffsets, List.foldl_cons, placeNext, foldl_placeNext_snd, stop_eq]
  simp [withOffsets]

end SyntaxTree

end TexLint
