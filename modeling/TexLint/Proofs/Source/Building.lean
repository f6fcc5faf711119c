import TexLint.Source.Parse
import TexLint.Proofs.Source.Places
import TexLint.Proofs.Source.Tokens

/-!
# What building a tree keeps

A tree is built from a nest of open constructs that takes one token at a time. What the source
still holds can close constructs and put trees into them, but it cannot undo anything.

## The model

* `Nest.next` is a nest after one more token, `Nest.trees` the trees of a source that ends here.
* `Nest.Reads` lists what reading a token can do to a nest, `Nest.ReadsInside` what each open
  construct does with a token that does not end it.
* `Started` says how the nodes that stand for commands and environments start.
* `Nest.Holds` says that a tree is finished: it is part of what a nest has taken.

## What is proved

* `Nest.reads_read`, `Nest.readsInside_read`: what one token can do, from which the rest follows.
* `Nest.exists_seed`: reading a token puts one tree, which is made of that token, behind what
  the innermost construct holds.
* `text_parse`: no character of a source is lost.
* `everywhere_started_parse`: commands and environments start with a control sequence.
* `Nest.Holds.foldl_next`: what is finished stays, whatever comes.
* `Nest.next_command`: a control sequence opens a command in what it leaves open.
-/

namespace TexLint

open SyntaxTree

/-! ### How nodes start -/

/-- A command and the beginning of an environment start with a control sequence, an
environment with its beginning. -/
def Started : NodeKind → List SyntaxTree → Prop
  | .command, children | .opening, children =>
    ∃ t rest, children = .leaf t :: rest ∧ t.kind = .command ∧ t.Begins
  | .environment, children => ∃ parts rest, children = .node .opening parts :: rest
  | _, _ => True

theorem Started.append {kind : NodeKind} {children : List SyntaxTree} (h : Started kind children)
    (more : List SyntaxTree) : Started kind (children ++ more) := by
  cases kind with
  | command | opening =>
    obtain ⟨t, rest, rfl, ht⟩ := h
    exact ⟨t, rest ++ more, rfl, ht⟩
  | environment =>
    obtain ⟨parts, rest, rfl⟩ := h
    exact ⟨parts, rest ++ more, rfl⟩
  | root | group | required | optional | closing | error => trivial

/-- How a node starts does not depend on what the node at its end holds. -/
theorem Started.change {kind k : NodeKind} {children parts : List SyntaxTree}
    (h : Started kind (children ++ [.node k parts])) (parts' : List SyntaxTree) :
    Started kind (children ++ [.node k parts']) := by
  cases children with
  | nil =>
    cases kind with
    | command | opening =>
      obtain ⟨t, rest, heq, -⟩ := h
      cases heq
    | environment =>
      obtain ⟨_, rest, heq⟩ := h
      obtain ⟨rfl, rfl⟩ := SyntaxTree.node.inj (List.cons.inj heq).1
      exact ⟨parts', [], rfl⟩
    | root | group | required | optional | closing | error => trivial
  | cons c children =>
    cases kind with
    | command | opening =>
      obtain ⟨t, rest, heq, ht⟩ := h
      obtain ⟨rfl, -⟩ := List.cons.inj heq
      exact ⟨t, _, rfl, ht⟩
    | environment =>
      obtain ⟨first, rest, heq⟩ := h
      obtain ⟨rfl, -⟩ := List.cons.inj heq
      exact ⟨first, _, rfl⟩
    | root | group | required | optional | closing | error => trivial

namespace Nest

/-- The nest when one more token has been read. -/
def next (nest : Nest) (t : Token) : Nest := ((nest.settle t).1.read t).1

/-- The trees of a source that ends here, when the given trees have been put behind what the
innermost construct holds. -/
def treesWith (finished : List SyntaxTree) (nest : Nest) : List SyntaxTree :=
  (nest.finishFrom finished).1

/-- The trees of a source that ends here. -/
def trees (nest : Nest) : List SyntaxTree := nest.treesWith []

theorem treesWith_root (finished content : List SyntaxTree) :
    (root content).treesWith finished = (finished ++ content).reverse := rfl

theorem treesWith_inside (finished content : List SyntaxTree) (construct : Construct)
    (outer : Nest) : (inside construct content outer).treesWith finished =
      outer.treesWith [close construct (finished ++ content)] := rfl

/-! ### What one token does -/

/-- What reading a token can do to a nest that it ends no construct of. -/
inductive Reads (t : Token) (nest : Nest) : Nest → Prop where
  /-- The token is put into the innermost construct. -/
  | leaf : Reads t nest (nest.add (.leaf t))
  /-- The token has no place there. -/
  | error : Reads t nest (nest.add (.node .error [.leaf t]))
  /-- The token closes the innermost construct. -/
  | close (construct : Construct) (content : List SyntaxTree) (outer : Nest)
      (h : nest = inside construct content outer) :
      Reads t nest (outer.add (close construct (.leaf t :: content)))
  /-- The token opens a construct. -/
  | enter (inner : Construct) (h : t.Begins → Started inner.kind [.leaf t]) :
      Reads t nest (nest.enter inner t)
  /-- The token opens a construct, and the one around it is further on. -/
  | advance {construct construct' : Construct} {content : List SyntaxTree} {outer : Nest}
      (inner : Construct) (hnest : nest = inside construct content outer)
      (hkind : construct'.kind = construct.kind) (h : t.Begins → Started inner.kind [.leaf t]) :
      Reads t nest ((inside construct' content outer).enter inner t)
  /-- The token begins an environment. -/
  | begin (hkind : t.kind = .command) :
      Reads t nest ((inside (.environment false) [] nest).enter (.opening true) t)

theorem reads_readElement (t : Token) (nest : Nest) : Reads t nest (nest.readElement t).1 := by
  rw [readElement]
  split
  · next hkind =>
    split
    · exact .begin hkind
    · split
      · exact .enter .strayEnd fun _ => trivial
      · exact .enter (.command _) fun ht => ⟨t, [], rfl, hkind, ht⟩
  · exact .enter .group fun _ => trivial
  · exact .error
  · exact .leaf

theorem reads_read (t : Token) (nest : Nest) : Reads t nest (nest.read t).1 := by
  cases nest with
  | root content => exact reads_readElement t _
  | inside construct content outer =>
    rw [read.eq_def]
    dsimp only
    split
    · exact .close .group content outer rfl
    · exact .close .required content outer rfl
    · exact .close .optional content outer rfl
    · exact .enter .required fun _ => trivial
    · exact .enter .required fun _ => trivial
    · exact .enter .optional fun _ => trivial
    · exact .advance .required rfl rfl fun _ => trivial
    · exact .advance .optional rfl rfl fun _ => trivial
    · exact .advance .required rfl rfl fun _ => trivial
    · exact .error
    · split
      · exact .advance (.closing true) rfl rfl fun _ => trivial
      · exact reads_readElement t _
    · exact reads_readElement t _

end Nest

namespace Construct

/-- A token completes a construct. -/
inductive ClosedBy (t : Token) : Construct → Prop where
  /-- A closing brace completes a group. -/
  | group : t.kind = .rbrace → ClosedBy t .group
  /-- A closing brace completes a required parameter. -/
  | required : t.kind = .rbrace → ClosedBy t .required
  /-- A closing bracket completes an optional parameter. -/
  | optional : t.kind = .rbracket → ClosedBy t .optional

/-- A token opens a part of a construct: the construct before it, the construct that is further
on, and the part. -/
inductive Enters (t : Token) : Construct → Construct → Construct → Prop where
  /-- A required parameter of a command. -/
  | commandRequired {takesOptional : Bool} : t.kind = .lbrace →
      Enters t (.command takesOptional) (.command takesOptional) .required
  /-- An optional parameter of a command. -/
  | commandOptional : t.kind = .lbracket → Enters t (.command true) (.command true) .optional
  /-- A required parameter of a beginning. -/
  | openingRequired {bare : Bool} : t.kind = .lbrace →
      Enters t (.opening bare) (.opening false) .required
  /-- An optional parameter of a beginning. -/
  | openingOptional {bare : Bool} : t.kind = .lbracket →
      Enters t (.opening bare) (.opening false) .optional
  /-- The parameter of an end. -/
  | closingRequired : t.kind = .lbrace → Enters t (.closing true) (.closing false) .required
  /-- A parameter of an end that closes nothing. -/
  | strayEndRequired : t.kind = .lbrace → Enters t .strayEnd .strayEnd .required
  /-- The end of an environment. -/
  | ending : t.isEnd = true → Enters t (.environment false) (.environment true) (.closing true)

theorem Enters.kind_eq {t : Token} {construct construct' inner : Construct}
    (h : construct.Enters t construct' inner) : construct'.kind = construct.kind := by
  cases h <;> rfl

/-- A construct takes elements of the source. -/
inductive TakesElements : Construct → Prop where
  /-- A group does. -/
  | group : TakesElements .group
  /-- A required parameter does. -/
  | required : TakesElements .required
  /-- An optional parameter does. -/
  | optional : TakesElements .optional
  /-- An environment does until its end. -/
  | environment : TakesElements (.environment false)

end Construct

namespace Nest

/-- What the innermost construct does with a token that does not end it: the nest that results and
what is wrong. -/
inductive ReadsInside (t : Token) (construct : Construct) (content : List SyntaxTree)
    (outer : Nest) : Nest × List Defect → Prop where
  /-- The token completes the construct. -/
  | close : construct.ClosedBy t → ReadsInside t construct content outer
      (outer.add (close construct (.leaf t :: content)), [])
  /-- The token opens a part of the construct. -/
  | enter {construct' inner : Construct} : construct.Enters t construct' inner →
      ReadsInside t construct content outer ((inside construct' content outer).enter inner t, [])
  /-- The token has no place in an environment. -/
  | misplaced : construct = .environment false → t.kind = .rbrace →
      ReadsInside t construct content outer
        ((inside construct content outer).add (.node .error [.leaf t]),
          [.unmatchedBraceInEnvironment])
  /-- The token is read as an element. -/
  | element : construct.TakesElements → ¬ construct.ClosedBy t →
      (construct = .environment false → t.isEnd = false ∧ t.kind ≠ .rbrace) →
      ReadsInside t construct content outer ((inside construct content outer).readElement t)

theorem readsInside_read {t : Token} {construct : Construct} {content : List SyntaxTree}
    {outer : Nest} (hopen : (construct.before t).closes = false) :
    ReadsInside t construct content outer ((inside construct content outer).read t) := by
  have helement {c : Construct} (hkind : c.TakesElements) (hclosed : ¬ c.ClosedBy t)
      (henvironment : c = .environment false → t.isEnd = false ∧ t.kind ≠ .rbrace)
      (hread : (inside c content outer).read t = (inside c content outer).readElement t) :
      ReadsInside t c content outer ((inside c content outer).read t) :=
    hread ▸ .element hkind hclosed henvironment
  cases construct with
  | group =>
    by_cases hkind : t.kind = .rbrace
    · simp only [read, hkind]
      exact .close (.group hkind)
    · refine helement .group (fun h => ?_) (by simp) (by simp [read, hkind])
      cases h with
      | group h => exact hkind h
  | required =>
    by_cases hkind : t.kind = .rbrace
    · simp only [read, hkind]
      exact .close (.required hkind)
    · refine helement .required (fun h => ?_) (by simp) (by simp [read, hkind])
      cases h with
      | required h => exact hkind h
  | optional =>
    by_cases hkind : t.kind = .rbracket
    · simp only [read, hkind]
      exact .close (.optional hkind)
    · refine helement .optional (fun h => ?_) (by simp) (by simp [read, hkind])
      cases h with
      | optional h => exact hkind h
  | command takesOptional =>
    by_cases hkind : t.kind = .lbrace
    · simp only [read, hkind]
      exact .enter (.commandRequired hkind)
    · obtain ⟨rfl, hbracket⟩ : takesOptional = true ∧ t.kind = .lbracket := by
        simpa [Construct.before, hkind] using hopen
      simp only [read, hbracket]
      exact .enter (.commandOptional hbracket)
  | opening bare =>
    by_cases hkind : t.kind = .lbrace
    · simp only [read, hkind]
      exact .enter (.openingRequired hkind)
    · have hbracket : t.kind = .lbracket := by simpa [Construct.before, hkind] using hopen
      simp only [read, hbracket]
      exact .enter (.openingOptional hbracket)
  | environment ended =>
    obtain rfl : ended = false := hopen
    by_cases hbrace : t.kind = .rbrace
    · simp only [read, hbrace]
      exact .misplaced rfl hbrace
    · cases hend : t.isEnd with
      | true =>
        simp only [read, Token.kind_of_isEnd hend, hend, if_true]
        exact .enter (.ending hend)
      | false =>
        refine helement .environment (fun h => by cases h) (fun _ => ⟨hend, hbrace⟩) ?_
        rw [read.eq_def]
        cases hkind : t.kind <;> simp_all
  | closing bare =>
    cases bare with
    | false => cases hopen
    | true =>
      have hkind : t.kind = .lbrace :=
        Decidable.byContradiction fun hkind => by simp [Construct.before, hkind] at hopen
      simp only [read, hkind]
      exact .enter (.closingRequired hkind)
  | strayEnd =>
    have hkind : t.kind = .lbrace := by simpa [Construct.before] using hopen
    simp only [read, hkind]
    exact .enter (.strayEndRequired hkind)

/-! ### One token puts one tree into the nest -/

theorem treesWith_add (finished : List SyntaxTree) (tree : SyntaxTree) (nest : Nest) :
    (nest.add tree).treesWith finished = nest.treesWith (finished ++ [tree]) := by
  cases nest with
  | root content => simp [add, treesWith_root]
  | inside construct content outer => simp [add, treesWith_inside]

/-- Closing what a token ends does not change the trees. -/
theorem trees_settleFrom (t : Token) (finished : List SyntaxTree) (nest : Nest) :
    (nest.settleFrom t finished).1.trees = nest.treesWith finished := by
  induction nest generalizing finished with
  | root content => rfl
  | inside construct content outer ih =>
    rw [settleFrom, treesWith_inside]
    simp only []
    split
    · exact ih _
    · rfl

/-- A tree that a token alone makes: its text is the token, and its nodes start as they
should. -/
def Seed (t : Token) (tree : SyntaxTree) : Prop :=
  tree.tokens = [t] ∧ (t.Begins → Everywhere Started tree)

theorem seed_leaf (t : Token) : Seed t (.leaf t) := ⟨by simp, fun _ => .leaf t⟩

theorem seed_node (kind : NodeKind) {t : Token} (h : t.Begins → Started kind [.leaf t]) :
    Seed t (.node kind [.leaf t]) :=
  ⟨by simp, fun ht => .node (h ht) (by simpa using .leaf t)⟩

theorem seed_environment {t : Token} (h : t.kind = .command) :
    Seed t (.node .environment [.node .opening [.leaf t]]) := by
  refine ⟨by simp, fun ht => .node ⟨_, [], rfl⟩ ?_⟩
  simpa using .node ⟨t, [], rfl, h, ht⟩ (by simpa using .leaf t)

/-- Reading a token puts one tree, made of that token, behind what the innermost construct
holds. -/
theorem exists_seed (t : Token) (nest : Nest) :
    ∃ tree, Seed t tree ∧ (nest.read t).1.trees = nest.treesWith [tree] := by
  have hread := reads_read t nest
  generalize (nest.read t).1 = nest' at hread ⊢
  cases hread with
  | leaf => exact ⟨_, seed_leaf t, treesWith_add [] _ nest⟩
  | error => exact ⟨_, seed_node .error fun _ => trivial, treesWith_add [] _ nest⟩
  | close construct content outer h =>
    subst h
    exact ⟨_, seed_leaf t, treesWith_add [] _ outer⟩
  | enter inner h => exact ⟨_, seed_node inner.kind h, rfl⟩
  | @advance construct construct' content outer inner hnest hkind h =>
    subst hnest
    refine ⟨_, seed_node inner.kind h, ?_⟩
    rw [treesWith_inside, close, ← hkind]
    rfl
  | begin hkind => exact ⟨_, seed_environment hkind, rfl⟩

theorem exists_seed_next (t : Token) (nest : Nest) :
    ∃ tree, Seed t tree ∧ (nest.next t).trees = (nest.settle t).1.treesWith [tree] ∧
      (nest.settle t).1.trees = nest.trees := by
  obtain ⟨tree, hseed, hread⟩ := exists_seed t (nest.settle t).1
  exact ⟨tree, hseed, hread, trees_settleFrom t [] nest⟩

/-! ### No token is lost -/

theorem exists_tokens_treesWith (nest : Nest) : ∃ read, ∀ finished,
    tokensOfAll (nest.treesWith finished) = read ++ tokensOfAll finished.reverse := by
  induction nest with
  | root content => exact ⟨tokensOfAll content.reverse, fun _ => by simp [treesWith_root]⟩
  | inside construct content outer ih =>
    obtain ⟨read, hread⟩ := ih
    refine ⟨read ++ tokensOfAll content.reverse, fun finished => ?_⟩
    rw [treesWith_inside, hread]
    simp [close]

theorem tokens_trees_next (t : Token) (nest : Nest) :
    tokensOfAll (nest.next t).trees = tokensOfAll nest.trees ++ [t] := by
  obtain ⟨tree, ⟨htokens, -⟩, hnext, hsettle⟩ := exists_seed_next t nest
  obtain ⟨read, hread⟩ := exists_tokens_treesWith (nest.settle t).1
  have hbefore : tokensOfAll nest.trees = read := by
    rw [← hsettle, trees, hread]
    simp
  rw [hnext, hread, hbefore]
  simp [htokens]

theorem tokens_trees_foldl_next (tokens : List Token) (nest : Nest) :
    tokensOfAll (tokens.foldl next nest).trees = tokensOfAll nest.trees ++ tokens := by
  induction tokens generalizing nest with
  | nil => simp
  | cons t tokens ih => rw [List.foldl_cons, ih, tokens_trees_next, List.append_assoc]; rfl

/-! ### How the nodes of a nest start -/

theorem everywhere_of_treesWith (nest : Nest) {finished : List SyntaxTree}
    (h : ∀ c ∈ nest.treesWith finished, Everywhere Started c) :
    ∀ c ∈ finished, Everywhere Started c := by
  induction nest generalizing finished with
  | root content => exact fun c hc => h c (by simp [treesWith_root, hc])
  | inside construct content outer ih =>
    cases ih h _ (List.mem_singleton_self _) with
    | node _ hchildren => exact fun c hc => hchildren c (by simp [hc])

/-- The node at the open end of a nest may be exchanged for another one of its kind. -/
theorem everywhere_treesWith_change (nest : Nest) {kind : NodeKind}
    {children children' : List SyntaxTree}
    (h : ∀ c ∈ nest.treesWith [.node kind children], Everywhere Started c)
    (h' : Everywhere Started (.node kind children')) :
    ∀ c ∈ nest.treesWith [.node kind children'], Everywhere Started c := by
  induction nest generalizing kind children children' with
  | root content =>
    intro c hc
    rcases (List.mem_cons.mp (List.mem_reverse.mp hc) : _ ∨ c ∈ content) with rfl | hc
    · exact h'
    · exact h c (by simp [treesWith_root, hc])
  | inside construct content outer ih =>
    cases everywhere_of_treesWith outer h _ (List.mem_singleton_self _) with
    | node hstart hchildren =>
      refine ih h (.node ?_ ?_)
      · simp only [List.singleton_append, List.reverse_cons] at hstart ⊢
        exact hstart.change children'
      · intro c hc
        rcases (List.mem_cons.mp (List.mem_reverse.mp hc) : _ ∨ c ∈ content) with rfl | hc
        · exact h'
        · exact hchildren c (by simp [hc])

theorem everywhere_treesWith {nest : Nest} {tree : SyntaxTree}
    (h : ∀ c ∈ nest.trees, Everywhere Started c) (htree : Everywhere Started tree) :
    ∀ c ∈ nest.treesWith [tree], Everywhere Started c := by
  cases nest with
  | root content =>
    intro c hc
    rcases (List.mem_cons.mp (List.mem_reverse.mp hc) : _ ∨ c ∈ content) with rfl | hc
    · exact htree
    · exact h c (by simp [trees, treesWith_root, hc])
  | inside construct content outer =>
    cases everywhere_of_treesWith outer h _ (List.mem_singleton_self _) with
    | node hstart hchildren =>
      refine everywhere_treesWith_change outer h (.node ?_ ?_)
      · simp only [List.singleton_append, List.reverse_cons]
        exact hstart.append [tree]
      · intro c hc
        rcases (List.mem_cons.mp (List.mem_reverse.mp hc) : _ ∨ c ∈ content) with rfl | hc
        · exact htree
        · exact hchildren c (by simp [hc])

theorem everywhere_next {nest : Nest} {t : Token} (ht : t.Begins)
    (h : ∀ c ∈ nest.trees, Everywhere Started c) :
    ∀ c ∈ (nest.next t).trees, Everywhere Started c := by
  obtain ⟨tree, ⟨-, hseed⟩, hnext, hsettle⟩ := exists_seed_next t nest
  rw [← hsettle] at h
  rw [hnext]
  exact everywhere_treesWith h (hseed ht)

theorem everywhere_foldl_next {nest : Nest} {tokens : List Token} (ht : ∀ t ∈ tokens, t.Begins)
    (h : ∀ c ∈ nest.trees, Everywhere Started c) :
    ∀ c ∈ (tokens.foldl next nest).trees, Everywhere Started c := by
  induction tokens generalizing nest with
  | nil => exact h
  | cons t tokens ih =>
    exact ih (fun u hu => ht u (List.mem_cons_of_mem _ hu))
      (everywhere_next (ht t List.mem_cons_self) h)

end Nest

/-! ### The whole tree -/

theorem foldl_next_nest (tokens : List Token) (r : Reading) :
    (tokens.foldl Reading.next r).nest = tokens.foldl Nest.next r.nest := by
  induction tokens generalizing r with
  | nil => rfl
  | cons t tokens ih => exact ih (r.next t)

/-- Reading goes on to the end of the tokens. -/
theorem offset_foldl_next (r : Reading) (tokens : List Token) :
    (tokens.foldl Reading.next r).offset = r.offset + byteLength (tokensText tokens) := by
  induction tokens generalizing r with
  | nil => simp [tokensText]
  | cons t tokens ih =>
    rw [List.foldl_cons, ih]
    simp [Reading.next, Span.ofLength, tokensText, Nat.add_assoc]

/-- The tree of a source holds the trees that its tokens are read into. -/
theorem parse_tree (text : Text) : (parse text).tree =
    .node .root ((tokenize text).foldl Nest.next (.root [])).trees := by
  have h := foldl_next_nest (tokenize text) .start
  show SyntaxTree.node .root (((tokenize text).foldl Reading.next .start).nest.finishFrom []).1 = _
  rw [h]
  rfl

/-- The tree of a source holds its tokens. -/
theorem tokens_parse (text : Text) : (parse text).tree.tokens = tokenize text := by
  rw [parse_tree, tokens_node, Nest.tokens_trees_foldl_next]
  simp [Nest.trees, Nest.treesWith_root]

/-- No character of a source is lost. -/
theorem text_parse (text : Text) : (parse text).tree.text = text := by
  rw [SyntaxTree.text, tokens_parse, tokensText_tokenize]

/-- In the tree of a source, commands and environments start with a control sequence. -/
theorem everywhere_started_parse (text : Text) : Everywhere Started (parse text).tree := by
  rw [parse_tree]
  refine .node trivial (Nest.everywhere_foldl_next (fun t ht => begins_of_mem_tokenize ht) ?_)
  simp [Nest.trees, Nest.treesWith_root]

namespace Nest

/-! ### What is finished stays -/

/-- A tree is part of what a nest has taken. -/
def Holds (tree : SyntaxTree) : Nest → Prop
  | root content => ∃ c ∈ content, Subtree tree c
  | inside _ content outer => (∃ c ∈ content, Subtree tree c) ∨ outer.Holds tree

variable {tree : SyntaxTree}

theorem Holds.add {nest : Nest} (h : nest.Holds tree) (c : SyntaxTree) :
    (nest.add c).Holds tree := by
  cases nest with
  | root content =>
    obtain ⟨d, hd, ht⟩ := h
    exact ⟨d, List.mem_cons_of_mem _ hd, ht⟩
  | inside construct content outer =>
    rcases h with ⟨d, hd, ht⟩ | h
    · exact .inl ⟨d, List.mem_cons_of_mem _ hd, ht⟩
    · exact .inr h

theorem holds_add {c : SyntaxTree} (h : Subtree tree c) (nest : Nest) :
    (nest.add c).Holds tree := by
  cases nest with
  | root content => exact ⟨c, List.mem_cons_self, h⟩
  | inside construct content outer => exact .inl ⟨c, List.mem_cons_self, h⟩

theorem subtree_close {construct : Construct} {content : List SyntaxTree}
    (h : ∃ c ∈ content, Subtree tree c) : Subtree tree (close construct content) := by
  obtain ⟨c, hc, ht⟩ := h
  exact .child (List.mem_reverse.mpr hc) ht

theorem holds_settleFrom {nest : Nest} {finished : List SyntaxTree} (t : Token)
    (h : (∃ c ∈ finished, Subtree tree c) ∨ nest.Holds tree) :
    (nest.settleFrom t finished).1.Holds tree := by
  induction nest generalizing finished with
  | root content =>
    have hmem : ∃ c ∈ finished ++ content, Subtree tree c := by
      simp only [List.mem_append, or_and_right, exists_or]
      exact h
    exact hmem
  | inside construct content outer ih =>
    have hmem : (∃ c ∈ finished ++ content, Subtree tree c) ∨ outer.Holds tree := by
      simp only [List.mem_append, or_and_right, exists_or, or_assoc]
      exact h
    rw [settleFrom]
    simp only []
    split
    · refine ih (hmem.imp_left fun hc => ⟨_, List.mem_singleton_self _, subtree_close hc⟩)
    · exact hmem

theorem Holds.read {nest : Nest} (h : nest.Holds tree) (t : Token) :
    (nest.read t).1.Holds tree := by
  have hread := reads_read t nest
  generalize (nest.read t).1 = nest' at hread ⊢
  cases hread with
  | leaf => exact h.add _
  | error => exact h.add _
  | close construct content outer hnest =>
    subst hnest
    rcases h with ⟨c, hc, ht⟩ | h
    · exact holds_add (subtree_close ⟨c, List.mem_cons_of_mem _ hc, ht⟩) outer
    · exact h.add _
  | enter => exact .inr h
  | advance inner hnest =>
    subst hnest
    exact .inr h
  | begin => exact .inr (.inr h)

/-- What is finished stays when more tokens are read. -/
theorem Holds.foldl_next {nest : Nest} (h : nest.Holds tree) (tokens : List Token) :
    (tokens.foldl next nest).Holds tree := by
  induction tokens generalizing nest with
  | nil => exact h
  | cons t tokens ih => exact ih ((holds_settleFrom t (.inr h)).read t)

/-- What is finished, or is put into the innermost construct, is part of a tree at the end. -/
theorem exists_mem_treesWith (nest : Nest) {finished : List SyntaxTree}
    (h : (∃ c ∈ finished, Subtree tree c) ∨ nest.Holds tree) :
    ∃ c ∈ nest.treesWith finished, Subtree tree c := by
  induction nest generalizing finished with
  | root content =>
    rcases h with ⟨c, hc, ht⟩ | ⟨c, hc, ht⟩ <;> exact ⟨c, by simp [treesWith_root, hc], ht⟩
  | inside construct content outer ih =>
    refine ih ?_
    rcases h with ⟨c, hc, ht⟩ | ⟨c, hc, ht⟩ | h
    · exact .inl ⟨_, List.mem_singleton_self _, subtree_close ⟨c, by simp [hc], ht⟩⟩
    · exact .inl ⟨_, List.mem_singleton_self _, subtree_close ⟨c, by simp [hc], ht⟩⟩
    · exact .inr h

/-! ### Commands -/

/-- What is left innermost is not ended by the coming token. -/
theorem closes_of_settleFrom {nest outer : Nest} {t : Token} {finished content : List SyntaxTree}
    {construct : Construct} (h : (nest.settleFrom t finished).1 = inside construct content outer) :
    (construct.before t).closes = false := by
  induction nest generalizing finished with
  | root content => cases h
  | inside c content' outer' ih =>
    rw [settleFrom] at h
    simp only [] at h
    split at h
    · exact ih h
    · next hcloses =>
      cases h
      exact Bool.not_eq_true _ ▸ hcloses

/-- A control sequence opens a command in what it leaves open. -/
theorem next_command {t : Token} (hkind : t.kind = .command) (hbegin : t.isBegin = false)
    (hend : t.isEnd = false) (nest : Nest) : nest.next t =
      inside (.command (!delimiterCommands.contains t.text)) [.leaf t] (nest.settle t).1 := by
  have helement (nest : Nest) : (nest.readElement t).1 =
      inside (.command (!delimiterCommands.contains t.text)) [.leaf t] nest := by
    rw [readElement, hkind]
    simp [hbegin, hend, enter]
  rw [next, settle]
  cases hnest : (nest.settleFrom t []).1 with
  | root content => exact helement _
  | inside construct content outer =>
    have hopen := closes_of_settleFrom hnest
    cases construct with
    | group | required | optional => simp [read, hkind, helement]
    | environment ended => simp [read, hkind, hend, helement]
    | command _ | opening _ | strayEnd => simp [Construct.before, hkind] at hopen
    | closing bare => cases bare <;> simp [Construct.before, hkind] at hopen

/-- Reads a group of plain text behind a command. -/
theorem foldl_next_required {takesOptional : Bool} {content : List SyntaxTree} {outer : Nest}
    {l w r : Token} (hl : l.kind = .lbrace) (hw : w.kind = .text) (hr : r.kind = .rbrace) :
    [l, w, r].foldl next (inside (.command takesOptional) content outer) =
      inside (.command takesOptional)
        (.node .required [.leaf l, .leaf w, .leaf r] :: content) outer := by
  simp [next, settle, settleFrom, Construct.before, read, readElement, enter, add, close,
    Construct.kind, hl, hw, hr]

/-- Reads a group of plain text in brackets behind a command. -/
theorem foldl_next_optional {content : List SyntaxTree} {outer : Nest}
    {l w r : Token} (hl : l.kind = .lbracket) (hw : w.kind = .text) (hr : r.kind = .rbracket) :
    [l, w, r].foldl next (inside (.command true) content outer) =
      inside (.command true)
        (.node .optional [.leaf l, .leaf w, .leaf r] :: content) outer := by
  simp [next, settle, settleFrom, Construct.before, read, readElement, enter, add, close,
    Construct.kind, Token.isBegin, Token.isEnd, Token.isParagraphBreak, hl, hw, hr]

/-- A command is finished at the end, or before a token that is no part of it. -/
theorem exists_mem_trees_of_command {tokens : List Token}
    (h : ∀ t ∈ tokens.head?, t.kind ≠ .lbrace ∧ t.kind ≠ .lbracket) (takesOptional : Bool)
    (content : List SyntaxTree) (outer : Nest) :
    ∃ c ∈ (tokens.foldl next (inside (.command takesOptional) content outer)).trees,
      Subtree (.node .command content.reverse) c := by
  cases tokens with
  | nil =>
    exact exists_mem_treesWith outer (.inl ⟨_, List.mem_singleton_self _, .self⟩)
  | cons t tokens =>
    obtain ⟨hbrace, hbracket⟩ := h t rfl
    have hcloses : ((Construct.command takesOptional).before t).closes = true := by
      simp [Construct.before, hbrace, hbracket]
    have hholds : ((inside (.command takesOptional) content outer).next t).Holds
        (.node .command content.reverse) := by
      refine Holds.read ?_ t
      rw [settle, settleFrom]
      simp only [hcloses, if_true]
      exact holds_settleFrom t (.inl ⟨_, List.mem_singleton_self _, .self⟩)
    exact exists_mem_treesWith _ (.inr (hholds.foldl_next tokens))

end Nest

end TexLint
