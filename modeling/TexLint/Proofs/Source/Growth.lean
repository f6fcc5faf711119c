import TexLint.Proofs.Source.Lexing
import TexLint.Proofs.Source.Shape

/-!
# How a tree grows

When a source goes on, its tree grows at the end: what has been closed stays as it is, and only the
constructs that were open take more.

## The model

* `Grows` says what a row of trees can become when more tokens follow.
* `Stands`: a tree is part of a row, with the tokens that stand before it.
* `Solid`: each node of a tree holds something.

## What is proved

* `Nest.grows_foldl_next`: reading tokens makes the trees of a source grow.
* `Grows.exists_stands_of_lt`, `Grows.exists_stands`: what begins in the part that has been read is
  there before and after.
* `Grows.eq_concat_of_tokens`: a row that has grown ends where its tokens end.
* `exists_stands_exchange`: what follows a closed group does not matter to the node that it is a
  part of.
-/

namespace TexLint

namespace SyntaxTree

/-- What a row of trees can become when the source goes on: more trees follow, and the last node may
hold more. -/
inductive Grows : List SyntaxTree → List SyntaxTree → Prop where
  /-- More trees follow. -/
  | nil (more : List SyntaxTree) : Grows [] more
  /-- The last node holds more, and then more trees follow. -/
  | last {children children' : List SyntaxTree} (kind : NodeKind) (more : List SyntaxTree) :
      Grows children children' → Grows [node kind children] (node kind children' :: more)
  /-- The trees before the end stay as they are. -/
  | cons (tree : SyntaxTree) {trees trees' : List SyntaxTree} : Grows trees trees' →
      Grows (tree :: trees) (tree :: trees')

/-- A tree is part of a row, behind the given tokens. -/
inductive Stands (tree : SyntaxTree) : List Token → List SyntaxTree → Prop where
  /-- It is the first tree. -/
  | head (rest : List SyntaxTree) : Stands tree [] (tree :: rest)
  /-- It is part of the first node. -/
  | into {before : List Token} {kind : NodeKind} {children : List SyntaxTree}
      (rest : List SyntaxTree) : Stands tree before children →
      Stands tree before (node kind children :: rest)
  /-- It stands behind the first tree. -/
  | tail {before : List Token} {rest : List SyntaxTree} (c : SyntaxTree) :
      Stands tree before rest → Stands tree (c.tokens ++ before) (c :: rest)

/-- Each node of a tree holds something. -/
def Solid (tree : SyntaxTree) : Prop := Everywhere (fun _ children => children ≠ []) tree

variable {a b c init : List SyntaxTree} {tree last : SyntaxTree} {before : List Token}

namespace Grows

theorem refl (a : List SyntaxTree) : Grows a a := by
  induction a with
  | nil => exact .nil []
  | cons tree a ih => exact .cons tree ih

theorem append_left (h : Grows a b) (c : List SyntaxTree) : Grows (c ++ a) (c ++ b) := by
  induction c with
  | nil => exact h
  | cons tree c ih => exact .cons tree ih

theorem eq_nil (h : Grows a []) : a = [] := by
  cases h
  rfl

theorem trans (hab : Grows a b) (hbc : Grows b c) : Grows a c := by
  induction hab generalizing c with
  | nil => exact .nil c
  | last kind more h ih =>
    cases hbc with
    | last _ more' hbc => exact .last kind more' (ih hbc)
    | cons => exact .last kind _ h
  | cons tree h ih =>
    cases hbc with
    | last kind more hbc =>
      obtain rfl := h.eq_nil
      exact .last kind more hbc
    | cons _ hbc => exact .cons tree (ih hbc)

/-- A row that grows takes more tokens at its end. -/
theorem exists_tokens (h : Grows a b) : ∃ more, tokensOfAll b = tokensOfAll a ++ more := by
  induction h with
  | nil more => exact ⟨tokensOfAll more, by simp⟩
  | last kind more _ ih =>
    obtain ⟨tokens, ih⟩ := ih
    exact ⟨tokens ++ tokensOfAll more, by simp [ih]⟩
  | cons tree _ ih =>
    obtain ⟨tokens, ih⟩ := ih
    exact ⟨tokens, by simp [ih]⟩

/-- What begins in the part that has been read is there before and after. It may have grown, and
then it reached to the end of that part. -/
theorem exists_stands_of_lt {kind : NodeKind} {children : List SyntaxTree} (h : Grows a b)
    (hb : Stands (node kind children) before b) (hlt : before.length < (tokensOfAll a).length) :
    ∃ children₀, Grows children₀ children ∧ Stands (node kind children₀) before a ∧
      (children₀ = children ∨ tokensOfAll a = before ++ tokensOfAll children₀) := by
  induction h generalizing before with
  | nil => simp at hlt
  | @last inner inner' k more h ih =>
    cases hb with
    | head => exact ⟨inner, h, .head [], .inr (by simp)⟩
    | into _ hb =>
      obtain ⟨children₀, hgrows, hstands, htokens⟩ := ih hb (by simpa using hlt)
      exact ⟨children₀, hgrows, .into [] hstands, by simpa using htokens⟩
    | tail _ hb =>
      -- It would stand behind a node that holds all that has been read.
      obtain ⟨more', hmore⟩ := h.exists_tokens
      simp only [tokens_node, hmore, tokensOfAll_cons, tokensOfAll_nil, List.append_nil,
        List.length_append] at hlt
      omega
  | @cons tree trees trees' h ih =>
    cases hb with
    | head => exact ⟨children, refl _, .head _, .inl rfl⟩
    | into _ hb => exact ⟨children, refl _, .into _ hb, .inl rfl⟩
    | @tail before' _ _ hb =>
      have hlt : before'.length < (tokensOfAll trees).length := by simpa using hlt
      obtain ⟨children₀, hgrows, hstands, htokens⟩ := ih hb hlt
      refine ⟨children₀, hgrows, .tail tree hstands, htokens.imp_right fun htokens => ?_⟩
      rw [tokensOfAll_cons, htokens, List.append_assoc]

/-- What stands in a row stands there when the row has grown. It may have grown, too. -/
theorem exists_stands {kind : NodeKind} {children : List SyntaxTree} (h : Grows a b)
    (ha : Stands (node kind children) before a) :
    ∃ children', Grows children children' ∧ Stands (node kind children') before b := by
  induction h generalizing before with
  | nil => cases ha
  | last k more h ih =>
    cases ha with
    | head => exact ⟨_, h, .head more⟩
    | into _ ha =>
      obtain ⟨children', hgrows, hstands⟩ := ih ha
      exact ⟨children', hgrows, .into more hstands⟩
    | tail _ ha => cases ha
  | cons tree h ih =>
    cases ha with
    | head => exact ⟨children, refl _, .head _⟩
    | into _ ha => exact ⟨children, refl _, .into _ ha⟩
    | tail _ ha =>
      obtain ⟨children', hgrows, hstands⟩ := ih ha
      exact ⟨children', hgrows, .tail tree hstands⟩

/-- Of a row that grows only the last tree changes. -/
theorem exists_of_concat (h : Grows (a ++ [last]) b) : ∃ last' more, b = a ++ last' :: more ∧
    (last' = last ∨ ∃ kind children children', last = node kind children ∧
      last' = node kind children' ∧ Grows children children') := by
  induction a generalizing b with
  | nil =>
    cases h with
    | last kind more h => exact ⟨_, more, rfl, .inr ⟨kind, _, _, rfl, rfl, h⟩⟩
    | @cons _ _ more _ => exact ⟨last, more, rfl, .inl rfl⟩
  | cons tree a ih =>
    rw [List.cons_append] at h
    generalize hrest : a ++ [last] = rest at h
    cases h with
    | last => simp at hrest
    | cons _ h =>
      subst hrest
      obtain ⟨last', more, rfl, hlast⟩ := ih h
      exact ⟨last', more, rfl, hlast⟩

/-- A row that ends with a token stays as it is up to this place. -/
theorem exists_of_concat_leaf {t : Token} (h : Grows (a ++ [leaf t]) b) :
    ∃ more, b = a ++ leaf t :: more := by
  obtain ⟨last', more, rfl, rfl | ⟨_, _, _, hleaf, -⟩⟩ := h.exists_of_concat
  · exact ⟨more, rfl⟩
  · cases hleaf

end Grows

/-! ### Solid trees -/

theorem Solid.tokens_ne_nil (h : tree.Solid) : tree.tokens ≠ [] := by
  induction tree using induct with
  | leaf t => simp
  | node kind children ih =>
    cases h with
    | node hne hchildren =>
      obtain ⟨c, rest, rfl⟩ := List.exists_cons_of_ne_nil hne
      have hc := ih c List.mem_cons_self (hchildren c List.mem_cons_self)
      simp [hc]

theorem eq_nil_of_tokensOfAll (h : ∀ c ∈ a, c.Solid) (htokens : tokensOfAll a = []) : a = [] := by
  cases a with
  | nil => rfl
  | cons c a =>
    rw [tokensOfAll_cons, List.append_eq_nil_iff] at htokens
    exact absurd htokens.1 (h c List.mem_cons_self).tokens_ne_nil

/-- A part of a solid row is solid. -/
theorem Stands.solid (hstands : Stands tree before a) (h : ∀ c ∈ a, c.Solid) : tree.Solid := by
  induction hstands with
  | head rest => exact h tree List.mem_cons_self
  | into rest _ ih =>
    cases h _ List.mem_cons_self with
    | node _ hchildren => exact ih hchildren
  | tail c _ ih => exact ih fun d hd => h d (List.mem_cons_of_mem _ hd)

theorem Solid.of_mem_children {kind : NodeKind} {children : List SyntaxTree}
    (h : (node kind children).Solid) : ∀ c ∈ children, c.Solid := by
  cases h with
  | node _ hchildren => exact hchildren

/-- A row of solid trees that grows takes more tokens, or it stays as it is. -/
theorem Grows.eq_of_tokens (h : Grows a b) (hb : ∀ c ∈ b, c.Solid)
    (htokens : tokensOfAll b = tokensOfAll a) : a = b := by
  induction h with
  | nil more => exact (eq_nil_of_tokensOfAll hb htokens).symm
  | @last children children' kind more h ih =>
    obtain ⟨tokens, hmore⟩ := h.exists_tokens
    simp only [tokensOfAll_cons, tokens_node, hmore, tokensOfAll_nil, List.append_nil,
      List.append_assoc, List.append_right_eq_self, List.append_eq_nil_iff] at htokens
    obtain ⟨rfl, hnil⟩ := htokens
    obtain rfl := eq_nil_of_tokensOfAll (fun c hc => hb c (List.mem_cons_of_mem _ hc)) hnil
    rw [List.append_nil] at hmore
    rw [ih (hb _ List.mem_cons_self).of_mem_children hmore]
  | cons tree h ih =>
    rw [tokensOfAll_cons, tokensOfAll_cons, List.append_cancel_left_eq] at htokens
    rw [ih (fun c hc => hb c (List.mem_cons_of_mem _ hc)) htokens]

/-- A row that has grown ends where its tokens end. -/
theorem Grows.eq_concat_of_tokens {g : SyntaxTree} {behind : List SyntaxTree}
    (h : Grows a (init ++ g :: behind)) (ha : ∀ c ∈ a, c.Solid)
    (hb : ∀ c ∈ init ++ g :: behind, c.Solid)
    (htokens : tokensOfAll a = tokensOfAll (init ++ [g])) : a = init ++ [g] := by
  induction init generalizing a with
  | nil =>
    have hg : g.tokens ≠ [] := (hb g (by simp)).tokens_ne_nil
    simp only [List.nil_append, tokensOfAll_cons, tokensOfAll_nil, List.append_nil] at htokens
    rw [List.nil_append] at h
    cases h with
    | nil =>
      rw [tokensOfAll_nil] at htokens
      exact absurd htokens.symm hg
    | @last children children' kind more h =>
      have hsingle : Grows [node kind children] [node kind children'] := .last kind [] h
      refine hsingle.eq_of_tokens (fun c hc => ?_) (by simpa using htokens.symm)
      exact hb c (by rw [List.mem_singleton.mp hc]; simp)
    | @cons _ rest _ h =>
      rw [tokensOfAll_cons, List.append_right_eq_self] at htokens
      rw [eq_nil_of_tokensOfAll (fun c hc => ha c (List.mem_cons_of_mem _ hc)) htokens]
      rfl
  | cons c init ih =>
    rw [List.cons_append, tokensOfAll_cons] at htokens
    rw [List.cons_append] at h
    cases h with
    | nil =>
      have hc : c.tokens ≠ [] := (hb c (by simp)).tokens_ne_nil
      simp [hc] at htokens
    | @last children children' kind more h =>
      -- The node is not the last one that has been read, so it cannot have grown.
      have hg : g.tokens ≠ [] := (hb g (by simp)).tokens_ne_nil
      obtain ⟨tokens, hmore⟩ := h.exists_tokens
      simp [hmore, hg] at htokens
    | @cons _ rest _ h =>
      rw [tokensOfAll_cons, List.append_cancel_left_eq] at htokens
      rw [ih h (fun d hd => ha d (List.mem_cons_of_mem _ hd))
        (fun d hd => hb d (List.mem_cons_of_mem _ hd)) htokens]
      rfl

/-! ### Where a tree stands -/

/-- A tree stands behind its tokens. -/
theorem Stands.exists_tokens (h : Stands tree before a) :
    ∃ behind, tokensOfAll a = before ++ tree.tokens ++ behind := by
  induction h with
  | head rest => exact ⟨tokensOfAll rest, by simp⟩
  | into rest _ ih =>
    obtain ⟨behind, ih⟩ := ih
    exact ⟨behind ++ tokensOfAll rest, by simp [ih]⟩
  | tail c _ ih =>
    obtain ⟨behind, ih⟩ := ih
    exact ⟨behind, by simp [ih]⟩

theorem Stands.exists_subtree (h : Stands tree before a) : ∃ c ∈ a, Subtree tree c := by
  induction h with
  | head rest => exact ⟨tree, List.mem_cons_self, .self⟩
  | into rest _ ih =>
    obtain ⟨c, hc, hsub⟩ := ih
    exact ⟨_, List.mem_cons_self, .child hc hsub⟩
  | tail c _ ih =>
    obtain ⟨d, hd, hsub⟩ := ih
    exact ⟨d, List.mem_cons_of_mem _ hd, hsub⟩

theorem Stands.append_left (h : Stands tree before a) (c : List SyntaxTree) :
    Stands tree (tokensOfAll c ++ before) (c ++ a) := by
  induction c with
  | nil => simpa using h
  | cons d c ih => simpa using Stands.tail d ih

/-- What is visited stands in the tree, at the offset behind the tokens before it. -/
theorem exists_stands_of_mem_preorder {depth offset : Nat} {v : Visit}
    (h : v ∈ tree.preorder depth offset) (rest : List SyntaxTree) : ∃ before,
      Stands v.tree before (tree :: rest) ∧ v.offset = offset + byteLength (tokensText before) := by
  induction tree using induct generalizing depth offset rest with
  | leaf token =>
    rw [preorder_leaf, List.mem_singleton] at h
    subst h
    exact ⟨[], .head rest, by simp [tokensText]⟩
  | node kind children ih =>
    rw [preorder_node, List.mem_cons] at h
    rcases h with rfl | h
    · exact ⟨[], .head rest, by simp [tokensText]⟩
    · obtain ⟨trees, tree, trees', rfl, hv⟩ := mem_preorderOfAll_iff.mp h
      obtain ⟨before, hstands, hoffset⟩ := ih tree (by simp) hv trees'
      refine ⟨tokensOfAll trees ++ before, .into rest (hstands.append_left trees), ?_⟩
      rw [hoffset, tokensText_append, byteLength_append, Nat.add_assoc]
      rfl

end SyntaxTree

open SyntaxTree

namespace Nest

/-! ### Reading -/

/-- When the node at the open end of a nest grows, so do the trees. -/
theorem grows_treesWith_change (nest : Nest) (kind : NodeKind) {a b : List SyntaxTree}
    (h : Grows a b) :
    Grows (nest.treesWith [.node kind a]) (nest.treesWith [.node kind b]) := by
  induction nest generalizing kind a b with
  | root content =>
    simp only [treesWith_root, List.singleton_append, List.reverse_cons]
    exact Grows.append_left (.last kind [] h) _
  | inside construct content outer ih =>
    simp only [treesWith_inside, close, List.singleton_append, List.reverse_cons]
    exact ih _ (Grows.append_left (.last kind [] h) _)

theorem grows_treesWith (nest : Nest) (tree : SyntaxTree) :
    Grows nest.trees (nest.treesWith [tree]) := by
  have happend (content : List SyntaxTree) : Grows content (content ++ [tree]) := by
    simpa using Grows.append_left (.nil [tree]) content
  cases nest with
  | root content =>
    simp only [trees, treesWith_root, List.singleton_append, List.reverse_cons, List.nil_append]
    exact happend content.reverse
  | inside construct content outer =>
    simp only [trees, treesWith_inside, close, List.singleton_append, List.reverse_cons,
      List.nil_append]
    exact grows_treesWith_change outer _ (happend content.reverse)

theorem grows_next (t : Token) (nest : Nest) : Grows nest.trees (nest.next t).trees := by
  obtain ⟨tree, -, hnext, hsettle⟩ := exists_seed_next t nest
  rw [hnext, ← hsettle]
  exact grows_treesWith _ tree

/-- Reading tokens makes the trees of a source grow. -/
theorem grows_foldl_next (tokens : List Token) (nest : Nest) :
    Grows nest.trees (tokens.foldl next nest).trees := by
  induction tokens generalizing nest with
  | nil => exact .refl _
  | cons t tokens ih => exact (grows_next t nest).trans (ih (nest.next t))

end Nest

/-! ### Sources -/

theorem Form.ne_nil {kind : NodeKind} {children : List SyntaxTree} {behind : List Token}
    (h : Form kind children behind) (hkind : kind ≠ .root) : children ≠ [] := by
  cases h with
  | root => exact absurd rfl hkind
  | braces | openBraces | brackets | openBrackets | command | opening | closing | environment
    | openEnvironment | error => simp

/-- No node holds a whole source. -/
theorem Form.not_root {kind : NodeKind} {children : List SyntaxTree} {behind : List Token}
    (h : Form kind children behind) {c : SyntaxTree} (hc : c ∈ children) :
    ¬ c.isNode .root = true := by
  intro hroot
  rcases h.child_cases hc with ⟨t, rfl⟩ | hnode | hnode | hplace | ⟨_, hnode | ⟨-, hnode⟩⟩
  · cases hroot
  · cases isNode_inj hroot hnode
  · cases isNode_inj hroot hnode
  · obtain ⟨parts, rfl⟩ := exists_of_isNode hroot
    exact hplace
  · cases isNode_inj hroot hnode
  · cases isNode_inj hroot hnode

namespace SyntaxTree

variable {text text' start : Text} {init behind inner : List SyntaxTree} {r : Token}
  {kind : NodeKind}

theorem WellFormed.solid {tree : SyntaxTree} {behind : List Token} (h : tree.WellFormed behind)
    (hroot : ¬ tree.isNode .root = true) : tree.Solid := by
  induction tree using SyntaxTree.induct generalizing behind with
  | leaf t => exact .leaf t
  | node kind children ih =>
    refine .node (h.1.ne_nil fun hkind => hroot (beq_iff_eq.mpr hkind)) fun c hc => ?_
    obtain ⟨before, after, rfl⟩ := List.append_of_mem hc
    exact ih c hc (allWellFormed_append.mp h.2).2.1 (h.1.not_root hc)

/-- The nodes of a source have a form, and they hold something. -/
theorem form_of_subtree {children : List SyntaxTree}
    (h : Subtree (node kind children) (parse text).tree) : ∃ behind, Form kind children behind := by
  obtain ⟨v, hv, hnode⟩ := h.exists_mem_preorder 0 0
  obtain ⟨-, behind, -, -, hwell⟩ := (wellFormed_parse text).of_mem_preorder hv
  rw [hnode] at hwell
  exact ⟨behind, hwell.1⟩

theorem solid_of_subtree {tree : SyntaxTree} (h : Subtree tree (parse text).tree)
    (hroot : ¬ tree.isNode .root = true) : tree.Solid := by
  obtain ⟨v, hv, rfl⟩ := h.exists_mem_preorder 0 0
  obtain ⟨-, behind, -, -, hwell⟩ := (wellFormed_parse text).of_mem_preorder hv
  exact hwell.solid hroot

/-- When a source goes on behind some tokens, its tree grows. -/
theorem grows_parse (h : tokenize start <+: tokenize text) :
    Grows [(parse start).tree] [(parse text).tree] := by
  obtain ⟨more, hmore⟩ := h
  rw [parse_tree, parse_tree, ← hmore, List.foldl_append]
  exact .last .root [] (Nest.grows_foldl_next more _)

/-- A closing brace is the last thing in its group. -/
theorem eq_nil_of_braced {more : List SyntaxTree} {tokens : List Token}
    (h : Braced (inner ++ leaf r :: more) tokens) (hr : r.kind = .rbrace) : more = [] := by
  obtain ⟨l, content, ending, heq, hl, hcontent, hend⟩ := h
  have hbefore : leaf r ∉ leaf l :: content := by
    intro hmem
    rcases List.mem_cons.mp hmem with hmem | hmem
    · cases hmem
      simp [hl] at hr
    · exact hcontent _ hmem (.inr hr)
  rw [← List.cons_append] at heq
  rcases hend with ⟨r', rfl, -⟩ | ⟨-, rfl⟩
  · rcases more.eq_nil_or_concat' with rfl | ⟨more, last, rfl⟩
    · rfl
    · have heq : (inner ++ leaf r :: more) ++ [last] = (leaf l :: content) ++ [leaf r'] := by
        simpa using heq
      have hinit : inner ++ leaf r :: more = leaf l :: content := List.append_inj_left' heq rfl
      exact absurd (by simp [← hinit]) hbefore
  · rw [List.append_nil] at heq
    exact absurd (by simp [← heq]) hbefore

/-- A closed brace group of a source has not grown when the source goes on. -/
theorem eq_of_grown_group {group' : SyntaxTree} (hr : r.kind = .rbrace)
    (hsub : Subtree group' (parse text).tree)
    (h : group' = node .required (inner ++ [leaf r]) ∨ ∃ kind children children',
      node .required (inner ++ [leaf r]) = node kind children ∧ group' = node kind children' ∧
        Grows children children') : group' = node .required (inner ++ [leaf r]) := by
  rcases h with h | ⟨kind, children, children', heq, rfl, hgrows⟩
  · exact h
  · cases heq
    obtain ⟨more, rfl⟩ := hgrows.exists_of_concat_leaf
    obtain ⟨tokens, hform⟩ := form_of_subtree hsub
    rw [eq_nil_of_braced (hform.braced (.inr rfl)) hr]

/-- What follows a closed brace group does not matter to the node that the group is a part of, up
to the group: the node stands in all sources that begin in the same way. -/
theorem exists_stands_exchange (htext : tokenize start <+: tokenize text)
    (htext' : tokenize start <+: tokenize text') (hkind : kind ≠ .root) {before : List Token}
    (hr : r.kind = .rbrace)
    (hstands : Stands (node kind (init ++ node .required (inner ++ [leaf r]) :: behind)) before
      [(parse text).tree])
    (hstart : tokenize start =
      before ++ tokensOfAll (init ++ [node .required (inner ++ [leaf r])])) :
    ∃ behind', Stands (node kind (init ++ node .required (inner ++ [leaf r]) :: behind')) before
      [(parse text').tree] := by
  have htokens : tokensOfAll [(parse start).tree] = tokenize start := by simp [tokens_parse]
  have hsolid {text : Text} {before : List Token} {children : List SyntaxTree}
      (h : Stands (node kind children) before [(parse text).tree]) : ∀ c ∈ children, c.Solid := by
    obtain ⟨tree, htree, hsub⟩ := h.exists_subtree
    rw [List.mem_singleton.mp htree] at hsub
    exact (solid_of_subtree hsub (by simpa [isNode] using hkind)).of_mem_children
  -- The node has begun when the group ends, and it ends there with the group.
  have hlt : before.length < (tokensOfAll [(parse start).tree]).length := by
    rw [htokens, hstart]
    simp only [tokensOfAll_append, tokensOfAll_cons, tokens_node, tokens_leaf, List.length_append,
      List.length_cons]
    omega
  obtain ⟨children₀, hgrows, hstands₀, hend⟩ := (grows_parse htext).exists_stands_of_lt hstands hlt
  obtain ⟨after, hafter⟩ := hstands₀.exists_tokens
  rw [htokens, hstart] at hafter hend
  have hchildren₀ : children₀ = init ++ [node .required (inner ++ [leaf r])] := by
    refine hgrows.eq_concat_of_tokens (hsolid hstands₀) (hsolid hstands) ?_
    rcases hend with rfl | hend
    · have hnil : tokensOfAll behind = [] ∧ after = [] := by simpa using hafter
      simp [hnil.1]
    · exact (List.append_cancel_left hend).symm
  rw [hchildren₀] at hstands₀
  -- From there on it grows behind the group only.
  obtain ⟨children', hgrows', hstands'⟩ := (grows_parse htext').exists_stands hstands₀
  obtain ⟨group', more, rfl, hgroup'⟩ := hgrows'.exists_of_concat
  obtain ⟨tree, htree, hsub⟩ := hstands'.exists_subtree
  rw [List.mem_singleton.mp htree] at hsub
  have hsub' : Subtree group' (parse text').tree :=
    (subtree_of_mem_children (by simp [SyntaxTree.children])).trans hsub
  rw [eq_of_grown_group hr hsub' hgroup'] at hstands'
  exact ⟨more, hstands'⟩

end SyntaxTree

end TexLint
