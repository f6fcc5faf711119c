import TexLint.Proofs.Source.Building

/-!
# Trees that differ at one place

Two sources that differ at one place are read alike on either side of it: what stands there opens
and closes nothing that the rest of the source could notice.

## The model

* `Exchanged a b n row row'`: a row of trees has `a` where the other one has `b`, in the row itself
  or within a node, `n` bytes behind its start.
* `Nest.Exchanged`: two nests have the same constructs open, and what these hold differs at one
  place.

## What is proved

* `Exchanged.tokens`: the tokens differ at this place.
* `Nest.Exchanged.next`: a token that is read leaves the difference as it is.
* `Nest.Exchanged.trees`: so do all that follow, and the end of the source.
-/

namespace TexLint

namespace SyntaxTree

/-- A row of trees has `a` where another one has `b`, the given number of bytes behind its start. -/
inductive Exchanged (a b : List SyntaxTree) : Nat → List SyntaxTree → List SyntaxTree → Prop where
  /-- At the start of the row. -/
  | here (rest : List SyntaxTree) : Exchanged a b 0 (a ++ rest) (b ++ rest)
  /-- Behind a tree. -/
  | behind (tree : SyntaxTree) {n : Nat} {row row' : List SyntaxTree} :
    Exchanged a b n row row' → Exchanged a b (tree.length + n) (tree :: row) (tree :: row')
  /-- Within the first tree. -/
  | within (kind : NodeKind) (rest : List SyntaxTree) {n : Nat} {row row' : List SyntaxTree} :
    Exchanged a b n row row' → Exchanged a b n (.node kind row :: rest) (.node kind row' :: rest)

namespace Exchanged

variable {a b row row' : List SyntaxTree} {n : Nat}

theorem append_right (h : Exchanged a b n row row') (rest : List SyntaxTree) :
    Exchanged a b n (row ++ rest) (row' ++ rest) := by
  induction h with
  | here rest' =>
    rw [List.append_assoc, List.append_assoc]
    exact .here _
  | behind tree _ ih => exact .behind tree ih
  | within kind rest' h _ => exact .within kind (rest' ++ rest) h

theorem append_left (h : Exchanged a b n row row') (init : List SyntaxTree) :
    ∃ n, Exchanged a b n (init ++ row) (init ++ row') := by
  induction init with
  | nil => exact ⟨n, h⟩
  | cons tree init ih =>
    obtain ⟨n, h⟩ := ih
    exact ⟨_, .behind tree h⟩

/-- The tokens differ at the place. -/
theorem tokens (h : Exchanged a b n row row') : ∃ before behind,
    tokensOfAll row = before ++ tokensOfAll a ++ behind ∧
      tokensOfAll row' = before ++ tokensOfAll b ++ behind ∧
        byteLength (tokensText before) = n := by
  induction h with
  | here rest => exact ⟨[], tokensOfAll rest, by simp, by simp, rfl⟩
  | behind tree _ ih =>
    obtain ⟨before, behind, hrow, hrow', hlength⟩ := ih
    refine ⟨tree.tokens ++ before, behind, by simp [hrow], by simp [hrow'], ?_⟩
    rw [tokensText, List.flatMap_append, byteLength_append, length_eq, ← hlength]
    rfl
  | within kind rest _ ih =>
    obtain ⟨before, behind, hrow, hrow', hlength⟩ := ih
    exact ⟨before, behind ++ tokensOfAll rest, by simp [hrow], by simp [hrow'], hlength⟩

end Exchanged

end SyntaxTree

open SyntaxTree

namespace Nest

/-- The same constructs are open in two nests, and somewhere one of them has `a` where the other
one has `b`. -/
inductive Exchanged (a b : List SyntaxTree) : Nest → Nest → Prop where
  /-- In what the source itself holds. -/
  | root {n : Nat} {content content' : List SyntaxTree} :
    SyntaxTree.Exchanged a b n content.reverse content'.reverse →
    Exchanged a b (.root content) (.root content')
  /-- In what the innermost construct holds. -/
  | content (construct : Construct) (outer : Nest) {n : Nat} {content content' : List SyntaxTree} :
    SyntaxTree.Exchanged a b n content.reverse content'.reverse →
    Exchanged a b (.inside construct content outer) (.inside construct content' outer)
  /-- Further out. -/
  | outer (construct : Construct) (content : List SyntaxTree) {outer outer' : Nest} :
    Exchanged a b outer outer' →
    Exchanged a b (.inside construct content outer) (.inside construct content outer')

section Exchanged

variable {a b : List SyntaxTree} {nest nest' : Nest}

theorem exchanged_append {finished finished' : List SyntaxTree} {n : Nat}
    (h : SyntaxTree.Exchanged a b n finished.reverse finished'.reverse)
    (content : List SyntaxTree) :
    ∃ n, SyntaxTree.Exchanged a b n (finished ++ content).reverse
      (finished' ++ content).reverse := by
  rw [List.reverse_append, List.reverse_append]
  exact h.append_left _

theorem exchanged_append_left {content content' : List SyntaxTree} {n : Nat}
    (h : SyntaxTree.Exchanged a b n content.reverse content'.reverse)
    (finished : List SyntaxTree) :
    SyntaxTree.Exchanged a b n (finished ++ content).reverse (finished ++ content').reverse := by
  rw [List.reverse_append, List.reverse_append]
  exact h.append_right _

/-- What a construct becomes differs where its content does. -/
theorem exchanged_close (construct : Construct) {content content' : List SyntaxTree} {n : Nat}
    (h : SyntaxTree.Exchanged a b n content.reverse content'.reverse) :
    SyntaxTree.Exchanged a b n [close construct content].reverse
      [close construct content'].reverse :=
  .within construct.kind [] h

/-- A nest takes trees that differ at one place. -/
theorem exchanged_treesWith (nest : Nest) {finished finished' : List SyntaxTree} {n : Nat}
    (h : SyntaxTree.Exchanged a b n finished.reverse finished'.reverse) :
    ∃ n, SyntaxTree.Exchanged a b n (nest.treesWith finished) (nest.treesWith finished') := by
  induction nest generalizing finished finished' n with
  | root content => exact exchanged_append h content
  | inside construct content outer ih =>
    obtain ⟨n, h⟩ := exchanged_append h content
    exact ih (exchanged_close construct h)

/-- The trees at the end of a source differ at one place. -/
theorem Exchanged.treesWith (h : Exchanged a b nest nest') (finished : List SyntaxTree) :
    ∃ n, SyntaxTree.Exchanged a b n (nest.treesWith finished) (nest'.treesWith finished) := by
  induction h generalizing finished with
  | root h => exact ⟨_, exchanged_append_left h _⟩
  | content construct outer h =>
    exact exchanged_treesWith outer (exchanged_close construct (exchanged_append_left h _))
  | outer construct content _ ih => exact ih _

/-- A coming token ends the same constructs if what has been ended last differs. -/
theorem exchanged_settleFrom (t : Token) (nest : Nest) {finished finished' : List SyntaxTree}
    {n : Nat} (h : SyntaxTree.Exchanged a b n finished.reverse finished'.reverse) :
    Exchanged a b (nest.settleFrom t finished).1 (nest.settleFrom t finished').1 := by
  induction nest generalizing finished finished' n with
  | root content =>
    obtain ⟨n, h⟩ := exchanged_append h content
    exact .root h
  | inside construct content outer ih =>
    obtain ⟨n, h⟩ := exchanged_append h content
    rw [settleFrom, settleFrom]
    simp only []
    split
    · exact ih (exchanged_close construct h)
    · exact .content construct outer h

/-- A coming token ends the same constructs. -/
theorem Exchanged.settleFrom (h : Exchanged a b nest nest') (t : Token)
    (finished : List SyntaxTree) :
    Exchanged a b (nest.settleFrom t finished).1 (nest'.settleFrom t finished).1 := by
  induction h generalizing finished with
  | root h => exact .root (exchanged_append_left h _)
  | content construct outer h =>
    rw [Nest.settleFrom, Nest.settleFrom]
    simp only []
    split
    · exact exchanged_settleFrom t outer (exchanged_close construct (exchanged_append_left h _))
    · exact .content construct outer (exchanged_append_left h _)
  | outer construct content _ ih =>
    rw [Nest.settleFrom, Nest.settleFrom]
    simp only []
    split
    · exact ih _
    · exact .outer construct _ ‹_›

theorem Exchanged.add (h : Exchanged a b nest nest') (tree : SyntaxTree) :
    Exchanged a b (nest.add tree) (nest'.add tree) := by
  cases h with
  | root h => exact .root (exchanged_append_left h [tree])
  | content construct outer h =>
    exact .content construct outer (exchanged_append_left h [tree])
  | outer construct content h => exact .outer construct _ h

/-- A finished tree that differs makes a difference. -/
theorem exchanged_add (nest : Nest) {tree tree' : SyntaxTree} {n : Nat}
    (h : SyntaxTree.Exchanged a b n [tree] [tree']) :
    Exchanged a b (nest.add tree) (nest.add tree') := by
  have h : SyntaxTree.Exchanged a b n [tree].reverse [tree'].reverse := h
  cases nest with
  | root content =>
    obtain ⟨n, h⟩ := exchanged_append h content
    exact .root h
  | inside construct content outer =>
    obtain ⟨n, h⟩ := exchanged_append h content
    exact .content construct outer h

theorem Exchanged.readElement (h : Exchanged a b nest nest') (t : Token) :
    Exchanged a b (nest.readElement t).1 (nest'.readElement t).1 := by
  rw [Nest.readElement, Nest.readElement]
  split
  · split
    · exact .outer _ _ (.outer _ _ h)
    · split
      · exact .outer _ _ h
      · exact .outer _ _ h
  · exact .outer _ _ h
  · exact h.add _
  · exact h.add _

/-- What a token does to the innermost construct does not depend on what this and those around it
hold. -/
theorem exchanged_read {t : Token} {construct : Construct} {content content' : List SyntaxTree}
    {outer outer' : Nest}
    (h : ∀ construct, Exchanged a b (inside construct content outer)
      (inside construct content' outer'))
    (hclose : Exchanged a b (outer.add (close construct (.leaf t :: content)))
      (outer'.add (close construct (.leaf t :: content')))) :
    Exchanged a b ((inside construct content outer).read t).1
      ((inside construct content' outer').read t).1 := by
  have helement := (h construct).readElement t
  rw [Nest.read.eq_def, Nest.read.eq_def]
  dsimp only
  split
  · exact hclose
  · exact hclose
  · exact hclose
  · exact .outer _ _ (h _)
  · exact .outer _ _ (h _)
  · exact .outer _ _ (h _)
  · exact .outer _ _ (h _)
  · exact .outer _ _ (h _)
  · exact .outer _ _ (h _)
  · exact (h _).add _
  · split
    · exact .outer _ _ (h _)
    · exact helement
  · exact helement

theorem Exchanged.read (h : Exchanged a b nest nest') (t : Token) :
    Exchanged a b (nest.read t).1 (nest'.read t).1 := by
  cases h with
  | root h => exact (Exchanged.root h).readElement t
  | content construct outer h =>
    refine exchanged_read (fun construct => .content construct outer h) ?_
    exact exchanged_add outer
      (exchanged_close construct (exchanged_append_left h [.leaf t]))
  | outer construct content h =>
    exact exchanged_read (fun construct => .outer construct content h) (h.add _)

/-- A token that is read leaves the difference as it is. -/
theorem Exchanged.next (h : Exchanged a b nest nest') (t : Token) :
    Exchanged a b (nest.next t) (nest'.next t) :=
  (h.settleFrom t []).read t

theorem Exchanged.foldl_next (h : Exchanged a b nest nest') (tokens : List Token) :
    Exchanged a b (tokens.foldl Nest.next nest) (tokens.foldl Nest.next nest') := by
  induction tokens generalizing nest nest' with
  | nil => exact h
  | cons t tokens ih => exact ih (h.next t)

/-- So do all tokens that follow, and the end of the source. -/
theorem Exchanged.trees (h : Exchanged a b nest nest') (tokens : List Token) :
    ∃ n, SyntaxTree.Exchanged a b n (tokens.foldl Nest.next nest).trees
      (tokens.foldl Nest.next nest').trees :=
  (h.foldl_next tokens).treesWith []

end Exchanged

end Nest

/-! ### Sources that differ in one token -/

/-- Two sequences differ at one place only. -/
theorem eq_of_replaced {α : Type} {t t' : α} (hne : t ≠ t') {a b x y : List α}
    (h : x ++ t :: y = a ++ t :: b) (h' : x ++ t' :: y = a ++ t' :: b) : x = a := by
  induction x generalizing a with
  | nil =>
    cases a with
    | nil => rfl
    | cons c a =>
      have hc : t = c := List.head_eq_of_cons_eq h
      have hc' : t' = c := List.head_eq_of_cons_eq h'
      exact absurd (hc.trans hc'.symm) hne
  | cons d x ih =>
    cases a with
    | nil =>
      have hd : d = t := List.head_eq_of_cons_eq h
      have hd' : d = t' := List.head_eq_of_cons_eq h'
      exact absurd (hd.symm.trans hd') hne
    | cons c a =>
      obtain ⟨rfl, htail⟩ := List.cons_eq_cons.mp h
      obtain ⟨-, htail'⟩ := List.cons_eq_cons.mp h'
      rw [ih htail htail']

/-- When one token is exchanged for one that is read alike, the trees differ in this token. -/
theorem exchanged_parse {t t' : Token} (hne : t ≠ t')
    (hnext : ∀ nest : Nest, Nest.Exchanged [.leaf t] [.leaf t'] (nest.next t) (nest.next t'))
    {a b : List Token} {text text' : Text} (h : tokenize text = a ++ t :: b)
    (h' : tokenize text' = a ++ t' :: b) :
    ∃ row row', (parse text).tree = .node .root row ∧ (parse text').tree = .node .root row' ∧
      SyntaxTree.Exchanged [.leaf t] [.leaf t'] (byteLength (tokensText a)) row row' := by
  obtain ⟨n, hrow⟩ := (hnext (a.foldl Nest.next (.root []))).trees b
  obtain ⟨x, y, htokens, htokens', rfl⟩ := hrow.tokens
  refine ⟨_, _, parse_tree text, parse_tree text', ?_⟩
  rw [h, h', List.foldl_append, List.foldl_append, List.foldl_cons, List.foldl_cons]
  rw [← List.foldl_cons, ← List.foldl_append, Nest.tokens_trees_foldl_next] at htokens htokens'
  have hx : x = a := by
    refine eq_of_replaced hne (y := y) (b := b) ?_ ?_
    · simpa [Nest.trees, Nest.treesWith_root] using htokens.symm
    · simpa [Nest.trees, Nest.treesWith_root] using htokens'.symm
  rwa [hx] at hrow

end TexLint
