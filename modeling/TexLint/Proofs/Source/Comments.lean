import TexLint.Proofs.Source.Form
import TexLint.Proofs.Source.Tokens

/-!
# Token sequences and trees without comments

A comment is a token of its own, so leaving the comments out of a token sequence or of a tree is a
matter of leaving out some of its tokens.

## The model

* `uncommented` leaves the comments out of a token sequence, `SyntaxTree.withoutComments` out of a
  tree.

## What is proved

* `no_comment_of_count_le`: a sequence that loses no percent sign with its comments has none.
* `SyntaxTree.tokens_withoutComments`: the tokens of a tree without comments are those of the tree
  without the comments.
* `SyntaxTree.withoutComments_eq_self`: a tree without comments stays as it is.
-/

namespace TexLint

open SyntaxTree

/-! ### Tokens -/

/-- The tokens of a sequence that are no comments. -/
def uncommented (tokens : List Token) : List Token := tokens.filter (·.kind ≠ .comment)

theorem uncommented_eq_self {tokens : List Token} (h : ∀ t ∈ tokens, t.kind ≠ .comment) :
    uncommented tokens = tokens :=
  List.filter_eq_self.mpr (by simpa using h)

theorem uncommented_append (a b : List Token) :
    uncommented (a ++ b) = uncommented a ++ uncommented b :=
  List.filter_append ..

theorem count_tokensText_cons (c : Char) (t : Token) (tokens : List Token) :
    (tokensText (t :: tokens)).count c = t.text.count c + (tokensText tokens).count c := by
  simp [tokensText]

theorem count_uncommented_le (c : Char) (tokens : List Token) :
    (tokensText (uncommented tokens)).count c ≤ (tokensText tokens).count c := by
  induction tokens with
  | nil => exact Nat.le_refl _
  | cons t tokens ih =>
    rw [uncommented, List.filter_cons]
    split
    · rw [count_tokensText_cons, count_tokensText_cons]
      exact Nat.add_le_add_left ih _
    · rw [count_tokensText_cons]
      exact Nat.le_trans ih (Nat.le_add_left _ _)

/-- No percent sign is lost with the comments only if there are none. -/
theorem no_comment_of_count_le {tokens : List Token}
    (hpercent : ∀ t ∈ tokens, t.kind = .comment → '%' ∈ t.text)
    (h : (tokensText tokens).count '%' ≤ (tokensText (uncommented tokens)).count '%') :
    ∀ t ∈ tokens, t.kind ≠ .comment := by
  induction tokens with
  | nil => simp
  | cons t tokens ih =>
    obtain ⟨hsign, hpercent⟩ := List.forall_mem_cons.mp hpercent
    have hle := count_uncommented_le '%' tokens
    rw [uncommented, List.filter_cons, count_tokensText_cons] at h
    split at h
    · next hkind =>
      rw [count_tokensText_cons] at h
      refine List.forall_mem_cons.mpr ⟨by simpa using hkind, ih hpercent ?_⟩
      exact Nat.le_of_add_le_add_left h
    · next hkind =>
      have hpositive := List.count_pos_iff.mpr (hsign (by simpa using hkind))
      have hrest : (tokensText (tokens.filter (·.kind ≠ .comment))).count '%' ≤
        (tokensText tokens).count '%' := hle
      omega

/-! ### Trees -/

namespace SyntaxTree

mutual

/-- A tree without the comments in it. -/
def withoutComments : SyntaxTree → SyntaxTree
  | leaf token => leaf token
  | node kind children => node kind (withoutCommentsOfAll children)

/-- Trees without the comments among them and in them. -/
def withoutCommentsOfAll : List SyntaxTree → List SyntaxTree
  | [] => []
  | tree :: trees =>
    if tree.isToken .comment then withoutCommentsOfAll trees
    else tree.withoutComments :: withoutCommentsOfAll trees

end

mutual

theorem tokens_withoutComments : (tree : SyntaxTree) → tree.isToken .comment = false →
    tree.withoutComments.tokens = uncommented tree.tokens
  | leaf t, h => by
    have ht : t.kind ≠ .comment := beq_eq_false_iff_ne.mp h
    rw [withoutComments, tokens_leaf, uncommented_eq_self (by simpa using ht)]
  | node kind children, _ => by
    rw [withoutComments, tokens_node, tokens_node, tokensOfAll_withoutComments children]

theorem tokensOfAll_withoutComments : (trees : List SyntaxTree) →
    tokensOfAll (withoutCommentsOfAll trees) = uncommented (tokensOfAll trees)
  | [] => rfl
  | tree :: trees => by
    rw [withoutCommentsOfAll, tokensOfAll_cons, uncommented_append]
    cases h : tree.isToken .comment with
    | true =>
      cases tree with
      | leaf t =>
        have ht : t.kind = .comment := beq_iff_eq.mp h
        have hnone : uncommented (leaf t).tokens = [] := by simp [uncommented, ht]
        rw [if_pos rfl, hnone, List.nil_append, tokensOfAll_withoutComments trees]
      | node kind children => cases h
    | false =>
      rw [if_neg (by simp), tokensOfAll_cons, tokens_withoutComments tree h,
        tokensOfAll_withoutComments trees]

end

mutual

theorem withoutComments_eq_self : (tree : SyntaxTree) → (∀ t ∈ tree.tokens, t.kind ≠ .comment) →
    tree.withoutComments = tree
  | leaf t, _ => rfl
  | node kind children, h => by
    rw [withoutComments, withoutCommentsOfAll_eq_self children (by simpa using h)]

theorem withoutCommentsOfAll_eq_self : (trees : List SyntaxTree) →
    (∀ t ∈ tokensOfAll trees, t.kind ≠ .comment) → withoutCommentsOfAll trees = trees
  | [], _ => rfl
  | tree :: trees, h => by
    rw [tokensOfAll_cons, List.forall_mem_append] at h
    have hleaf : tree.isToken .comment = false := by
      cases tree with
      | leaf t => exact beq_eq_false_iff_ne.mpr (h.1 t (by simp))
      | node kind children => rfl
    rw [withoutCommentsOfAll, if_neg (by simp [hleaf]), withoutComments_eq_self tree h.1,
      withoutCommentsOfAll_eq_self trees h.2]

end

theorem isNode_withoutComments (kind : NodeKind) (tree : SyntaxTree) :
    tree.withoutComments.isNode kind = tree.isNode kind := by
  cases tree <;> rfl

/-- The bracket groups of a node without comments are its bracket groups without theirs. -/
theorem filter_withoutCommentsOfAll (kind : NodeKind) (trees : List SyntaxTree) :
    (withoutCommentsOfAll trees).filter (·.isNode kind) =
      (trees.filter (·.isNode kind)).map withoutComments := by
  induction trees with
  | nil => rfl
  | cons tree trees ih =>
    rw [withoutCommentsOfAll]
    cases tree with
    | leaf t => split <;> simpa [isNode, withoutComments] using ih
    | node k children =>
      rw [if_neg (by simp [isToken]), List.filter_cons, List.filter_cons, isNode_withoutComments]
      split
      · rw [List.map_cons, ih]
      · exact ih

end SyntaxTree

end TexLint
