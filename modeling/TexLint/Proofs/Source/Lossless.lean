import TexLint.Proofs.Source.Building

/-!
# Nothing of a source is lost

Whatever is wrong with a source, its tree consists of the tokens of the source and nothing else.

## The model

* `placeTokens` gives each token of a sequence the offset at which it stands.
* `Visit.token?` is the token that a visit of a tree meets, with the offset of the visit.

## What is proved

* `filterMap_token?_preorder`: on the way through a tree its tokens are met in order, each at its
  place.
* `parse_lossless`: the tree of a source has the tokens of the source, and each of its parts
  ranges over the tokens it is made of.
-/

namespace TexLint

/-- A token and where it stands. -/
structure PlacedToken where
  /-- The offset of its first byte. -/
  offset : Nat
  /-- The token itself. -/
  token : Token
  deriving DecidableEq, Repr

/-- The tokens of a sequence that starts at the given offset, each with its own offset. -/
def placeTokens (offset : Nat) : List Token → List PlacedToken
  | [] => []
  | t :: tokens => ⟨offset, t⟩ :: placeTokens (offset + byteLength t.text) tokens

theorem placeTokens_append (offset : Nat) (a b : List Token) : placeTokens offset (a ++ b) =
    placeTokens offset a ++ placeTokens (offset + byteLength (tokensText a)) b := by
  induction a generalizing offset with
  | nil => rfl
  | cons t a ih =>
    rw [List.cons_append, placeTokens, placeTokens, ih]
    simp [tokensText, Nat.add_assoc]

namespace SyntaxTree

/-- The token that a visit meets, if it meets one. -/
def Visit.token? (v : Visit) : Option PlacedToken :=
  match v.tree with
  | leaf token => some ⟨v.offset, token⟩
  | node _ _ => none

theorem filterMap_token?_preorderOfAll {trees : List SyntaxTree}
    (h : ∀ tree ∈ trees, ∀ depth offset,
      (tree.preorder depth offset).filterMap (·.token?) = placeTokens offset tree.tokens)
    (depth offset : Nat) : (preorderOfAll depth offset trees).filterMap (·.token?) =
      placeTokens offset (tokensOfAll trees) := by
  induction trees generalizing offset with
  | nil => rfl
  | cons tree trees ih =>
    rw [preorderOfAll_cons, List.filterMap_append, h tree List.mem_cons_self,
      ih (fun t ht => h t (List.mem_cons_of_mem _ ht)), tokensOfAll_cons, placeTokens_append,
      length_eq]
    rfl

/-- On the way through a tree its tokens are met in order, each at its place. -/
theorem filterMap_token?_preorder (tree : SyntaxTree) (depth offset : Nat) :
    (tree.preorder depth offset).filterMap (·.token?) = placeTokens offset tree.tokens := by
  induction tree using induct generalizing depth offset with
  | leaf token => simp [Visit.token?, placeTokens]
  | node kind children ih =>
    rw [preorder_node, List.filterMap_cons_none rfl, tokens_node]
    exact filterMap_token?_preorderOfAll ih (depth + 1) offset

end SyntaxTree

open SyntaxTree

/-- Every source has a tree. Its tokens are those of the source, each of them once, in order and
at its place, so it is written with the text of the source. Each part of the tree ranges from the
start of its first token to the end of its last one. -/
theorem parse_lossless (text : Text) :
    (parse text).tree.tokens = tokenize text ∧
    ((parse text).tree.preorder 0 0).filterMap (·.token?) = placeTokens 0 (tokenize text) ∧
    (parse text).tree.text = text ∧
    ∀ v ∈ (parse text).tree.preorder 0 0, ∃ before behind,
      tokenize text = before ++ v.tree.tokens ++ behind ∧
        v.span = ⟨byteLength (tokensText before),
          byteLength (tokensText (before ++ v.tree.tokens))⟩ := by
  refine ⟨tokens_parse text, ?_, text_parse text, fun v hv => ?_⟩
  · rw [filterMap_token?_preorder, tokens_parse]
  · obtain ⟨before, behind, htokens, hoffset⟩ := exists_tokens_of_mem_preorder hv
    refine ⟨before, behind, by rw [← tokens_parse, htokens], ?_⟩
    rw [Visit.span, Span.ofLength, hoffset, length_eq, Nat.zero_add, tokensText_append,
      byteLength_append]
    rfl

end TexLint
