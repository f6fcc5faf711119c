import TexLint.Source.Tree
import Mathlib.Data.List.Basic

/-!
# Where the parts of a tree stand

The views of a document read the list of all parts of its tree, each with an offset. This
module says what these offsets are worth.

## What is proved

* `exists_tokens_of_mem_preorder`, `exists_text_of_mem_preorder`: at the offset of a part stand its
  tokens, and its text.
* `Subtree.exists_mem_preorder`, `subtree_of_mem_preorder`: the parts that are listed are the
  subtrees.
* `Everywhere.of_subtree`: what holds of all nodes of a tree holds of those of its parts.
-/

namespace TexLint

theorem tokensText_cons (t : Token) (tokens : List Token) :
    tokensText (t :: tokens) = t.text ++ tokensText tokens := by
  simp [tokensText]

theorem tokensText_append (a b : List Token) :
    tokensText (a ++ b) = tokensText a ++ tokensText b := by
  simp [tokensText]

namespace SyntaxTree

/-- The text a sequence of trees is written with. -/
def textOfAll (trees : List SyntaxTree) : Text := tokensText (tokensOfAll trees)

@[simp] theorem text_leaf (token : Token) : (leaf token).text = token.text := by
  simp [text, tokensText]

@[simp] theorem text_node (kind : NodeKind) (children : List SyntaxTree) :
    (node kind children).text = textOfAll children := by
  simp [text, textOfAll]

@[simp] theorem textOfAll_nil : textOfAll [] = [] := by
  simp [textOfAll, tokensText]

@[simp] theorem textOfAll_cons (tree : SyntaxTree) (trees : List SyntaxTree) :
    textOfAll (tree :: trees) = tree.text ++ textOfAll trees := by
  rw [textOfAll, tokensOfAll_cons, tokensText_append]
  rfl

theorem textOfAll_append (a b : List SyntaxTree) :
    textOfAll (a ++ b) = textOfAll a ++ textOfAll b := by
  rw [textOfAll, tokensOfAll_append, tokensText_append]
  rfl

/-! ### Parts of a tree -/

/-- Induction on trees: a property that a node has when all its subtrees have it holds of all
trees. -/
theorem induct {P : SyntaxTree → Prop} (leaf : ∀ token, P (leaf token))
    (node : ∀ kind children, (∀ c ∈ children, P c) → P (node kind children)) (tree : SyntaxTree) :
    P tree :=
  SyntaxTree.rec (motive_1 := P) (motive_2 := fun trees => ∀ c ∈ trees, P c) leaf node (by simp)
    (fun _ _ h hs _ hmem => (List.mem_cons.mp hmem).elim (fun he => he ▸ h) (hs _)) tree

/-- What is visited in a sequence is visited in one of its trees, which stands behind those
before it. -/
theorem mem_preorderOfAll_iff {depth offset : Nat} {trees : List SyntaxTree} {v : Visit} :
    v ∈ preorderOfAll depth offset trees ↔ ∃ before tree behind,
      trees = before ++ tree :: behind ∧
        v ∈ tree.preorder depth (offset + byteLength (textOfAll before)) := by
  induction trees generalizing offset with
  | nil => simp
  | cons t ts ih =>
    rw [preorderOfAll_cons, List.mem_append, ih]
    constructor
    · rintro (h | ⟨before, tree, behind, rfl, h⟩)
      · exact ⟨[], t, ts, rfl, by simpa using h⟩
      · refine ⟨t :: before, tree, behind, rfl, ?_⟩
        rwa [textOfAll_cons, byteLength_append, ← Nat.add_assoc, ← length_eq]
    · rintro ⟨before, tree, behind, heq, h⟩
      cases before with
      | nil =>
        obtain ⟨rfl, rfl⟩ := List.cons.inj heq
        exact .inl (by simpa using h)
      | cons b before =>
        obtain ⟨rfl, rfl⟩ := List.cons.inj heq
        refine .inr ⟨before, tree, behind, rfl, ?_⟩
        rwa [textOfAll_cons, byteLength_append, ← Nat.add_assoc, ← length_eq] at h

/-- The tokens of a part stand behind those of the parts before it. -/
theorem exists_tokens_of_mem_preorder {depth offset : Nat} {tree : SyntaxTree} {v : Visit}
    (h : v ∈ tree.preorder depth offset) : ∃ before behind,
      tree.tokens = before ++ v.tree.tokens ++ behind ∧
        v.offset = offset + byteLength (tokensText before) := by
  induction tree using induct generalizing depth offset with
  | leaf token =>
    rw [preorder_leaf, List.mem_singleton] at h
    exact ⟨[], [], by simp [h], by simp [h, tokensText]⟩
  | node kind children ih =>
    rw [preorder_node, List.mem_cons] at h
    rcases h with rfl | h
    · exact ⟨[], [], by simp, by simp [tokensText]⟩
    · obtain ⟨trees, tree, trees', rfl, hv⟩ := mem_preorderOfAll_iff.mp h
      obtain ⟨before, behind, htokens, hoffset⟩ := ih tree (by simp) hv
      refine ⟨tokensOfAll trees ++ before, behind ++ tokensOfAll trees', ?_, ?_⟩
      · rw [tokens_node, tokensOfAll_append, tokensOfAll_cons, htokens]
        simp
      · rw [hoffset, tokensText_append, byteLength_append, Nat.add_assoc]
        rfl

/-- At the offset of a part stands its text. -/
theorem exists_text_of_mem_preorder {depth offset : Nat} {tree : SyntaxTree} {v : Visit}
    (h : v ∈ tree.preorder depth offset) : ∃ before behind,
      tree.text = before ++ v.tree.text ++ behind ∧ v.offset = offset + byteLength before := by
  obtain ⟨before, behind, htokens, hoffset⟩ := exists_tokens_of_mem_preorder h
  refine ⟨tokensText before, tokensText behind, ?_, hoffset⟩
  rw [text, htokens, tokensText_append, tokensText_append]
  rfl

/-- A tree is a part of another one, or that one itself. -/
inductive Subtree (t : SyntaxTree) : SyntaxTree → Prop where
  /-- A tree is a part of itself. -/
  | self : Subtree t t
  /-- A part of a part is a part. -/
  | child {kind : NodeKind} {children : List SyntaxTree} {c : SyntaxTree} :
      c ∈ children → Subtree t c → Subtree t (node kind children)

/-- The parts of a tree are visited. -/
theorem Subtree.exists_mem_preorder {t tree : SyntaxTree} (h : Subtree t tree)
    (depth offset : Nat) : ∃ v ∈ tree.preorder depth offset, v.tree = t := by
  induction h generalizing depth offset with
  | self =>
    cases t with
    | leaf token => exact ⟨_, by rw [preorder_leaf]; exact List.mem_singleton_self _, rfl⟩
    | node kind children => exact ⟨_, by rw [preorder_node]; exact List.mem_cons_self, rfl⟩
  | child hmem _ ih =>
    obtain ⟨before, behind, rfl⟩ := List.append_of_mem hmem
    obtain ⟨v, hv, rfl⟩ := ih (depth + 1) (offset + byteLength (textOfAll before))
    refine ⟨v, ?_, rfl⟩
    rw [preorder_node]
    exact List.mem_cons_of_mem _ (mem_preorderOfAll_iff.mpr ⟨before, _, behind, rfl, hv⟩)

/-- What is visited is a part of the tree. -/
theorem subtree_of_mem_preorder {depth offset : Nat} {tree : SyntaxTree} {v : Visit}
    (h : v ∈ tree.preorder depth offset) : Subtree v.tree tree := by
  induction tree using induct generalizing depth offset with
  | leaf token =>
    rw [preorder_leaf, List.mem_singleton] at h
    rw [h]
    exact .self
  | node kind children ih =>
    rw [preorder_node, List.mem_cons] at h
    rcases h with rfl | h
    · exact .self
    · obtain ⟨before, tree, behind, rfl, hv⟩ := mem_preorderOfAll_iff.mp h
      exact .child (by simp) (ih tree (by simp) hv)

theorem Subtree.trans {s t tree : SyntaxTree} (hs : Subtree s t) (ht : Subtree t tree) :
    Subtree s tree := by
  induction ht with
  | self => exact hs
  | child hmem _ ih => exact .child hmem ih

theorem subtree_of_mem_children {t tree : SyntaxTree} (h : t ∈ tree.children) :
    Subtree t tree := by
  cases tree with
  | leaf token => cases h
  | node kind children => exact .child h .self

/-- The tokens of a part are tokens of the tree. -/
theorem Subtree.mem_tokens {t tree : SyntaxTree} (h : Subtree t tree) {token : Token}
    (ht : token ∈ t.tokens) : token ∈ tree.tokens := by
  induction h with
  | self => exact ht
  | child hmem _ ih =>
    obtain ⟨before, behind, rfl⟩ := List.append_of_mem hmem
    simp [ih]

/-! ### What holds of all nodes -/

/-- All nodes of a tree satisfy a condition on their kinds and subtrees. -/
inductive Everywhere (P : NodeKind → List SyntaxTree → Prop) : SyntaxTree → Prop where
  /-- A token is no node. -/
  | leaf (token : Token) : Everywhere P (leaf token)
  /-- A node that satisfies the condition and whose subtrees do. -/
  | node {kind : NodeKind} {children : List SyntaxTree} : P kind children →
      (∀ c ∈ children, Everywhere P c) → Everywhere P (node kind children)

theorem Everywhere.of_subtree {P : NodeKind → List SyntaxTree → Prop} {t tree : SyntaxTree}
    (h : Everywhere P tree) (ht : Subtree t tree) : Everywhere P t := by
  induction ht with
  | self => exact h
  | child hmem _ ih =>
    cases h with
    | node _ hchildren => exact ih (hchildren _ hmem)

end SyntaxTree

end TexLint
